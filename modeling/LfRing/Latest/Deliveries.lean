import LfRing.Latest.Subscriber

/-!
# What a subscriber delivers, write by write

Writes are numbered in the order of their commits. The value that a `try_read` of the subscriber
returns is that of the write committed last, and this number is the one delivered if `on_message`
gets the value (`Ledger`).

With one writer that does not die, the numbers delivered do not go down. But one may be delivered
twice: `last_seq` is the sequence at the moment of `raw_sequence`, not that of the value. If a value
has been delivered with its own sequence, is read once more, and the next write begins before
`raw_sequence`, then the sequence has changed and the value goes to `on_message` again
(`delivered_twice`). `loadsOwn` is the condition that excludes this, and `in_order` what every run
that meets it keeps.
-/

namespace LfRing.Latest.Subscriber

variable {size : ℕ}

/-! ## The numbers of the values delivered -/

/-- What the events so far say about the numbers. -/
structure Ledger where
  /-- How many writes are committed. -/
  commits : ℕ
  /-- The number of the write whose value was read last. -/
  reading : ℕ
  /-- The numbers delivered, in order. -/
  numbers : List ℕ

/-- One more event. -/
def Ledger.next (g : Ledger) : Event size → Ledger
  | .slot (.writer _ (.committed _)) => { g with commits := g.commits + 1 }
  | .slot (.reader _ (.returned .success _)) => { g with reading := g.commits }
  | .delivered _ => { g with numbers := g.numbers ++ [g.reading] }
  | _ => g

/-- The ledger of a run. -/
def ledger (tr : List (Event size)) : Ledger := tr.foldl Ledger.next ⟨0, 0, []⟩

/-- The value that a step delivers. -/
def Event.delivered? : Event size → List (List UInt8)
  | .delivered v => [v]
  | _ => []

/-- The values delivered, in order. -/
def deliveries (tr : List (Event size)) : List (List UInt8) := tr.flatMap Event.delivered?

section Histories

variable (tr : List (Event size)) (e : Event size)

/-- The ledger with one more event is the one before it, carried on by the event. -/
@[simp] theorem ledger_append : ledger (tr ++ [e]) = (ledger tr).next e := by simp [ledger]

/-- One more step adds the value that it delivers, if it delivers one. -/
@[simp] theorem deliveries_append : deliveries (tr ++ [e]) = deliveries tr ++ e.delivered? := by
  simp [deliveries]

/-- The ledger counts the writes committed. -/
theorem ledger_commits : (ledger tr).commits = (committed (slots tr)).length := by
  induction tr using List.reverseRecOn with
  | nil => rfl
  | append_singleton tr e ih =>
    rw [ledger_append, slots_append]
    cases e with
    | slot e =>
      change _ = (committed (slots tr ++ [e])).length
      rw [committed_append, List.length_append, ← ih]
      cases e with
      | writer i we => cases we <;> rfl
      | reader i re =>
        cases re with
        | returned res out => cases res <;> rfl
        | _ => rfl
      | tick => rfl
    | _ => simpa [Event.slot?, Ledger.next] using ih

/-- What was read last is a write committed. -/
theorem reading_le : (ledger tr).reading ≤ (ledger tr).commits := by
  induction tr using List.reverseRecOn with
  | nil => exact le_rfl
  | append_singleton tr e ih =>
    rw [ledger_append]
    unfold Ledger.next
    split
    · exact Nat.le_succ_of_le ih
    · exact le_rfl
    · exact ih
    · exact ih

end Histories

/-- The numbers delivered are those of writes that have the values delivered. -/
def Delivered (tr : List (Event size)) : Prop :=
  List.Forall₂ (fun k v => 0 < k ∧ valueOf (slots tr) k = some v) (ledger tr).numbers
    (deliveries tr)

/-- What was delivered keeps its number as long as nothing else is delivered. -/
theorem Delivered.later {tr : List (Event size)} (h : Delivered tr) {e : Event size}
    (hnumbers : (ledger (tr ++ [e])).numbers = (ledger tr).numbers) (he : e.delivered? = []) :
    Delivered (tr ++ [e]) := by
  have hvalues : ∀ k v, valueOf (slots tr) k = some v → valueOf (slots (tr ++ [e])) k = some v := by
    intro k v hv
    rw [slots_append]
    cases e with
    | slot e => exact valueOf_append e hv
    | _ => simpa [Event.slot?] using hv
  unfold Delivered
  rw [hnumbers, deliveries_append, he, List.append_nil]
  exact h.imp fun k v hk => ⟨hk.1, hvalues k v hk.2⟩

/-- One more delivery, of a value that has its number. -/
theorem Delivered.deliver {tr : List (Event size)} (h : Delivered tr) {v : List UInt8}
    (hpos : 0 < (ledger tr).reading) (hv : valueOf (slots tr) (ledger tr).reading = some v) :
    Delivered (tr ++ [.delivered v]) := by
  have hslots : slots (tr ++ [.delivered v]) = slots tr := by simp [Event.slot?]
  have hnumbers : (ledger (tr ++ [.delivered v])).numbers =
      (ledger tr).numbers ++ [(ledger tr).reading] := by
    rw [ledger_append]
    rfl
  have hvalues : deliveries (tr ++ [.delivered v]) = deliveries tr ++ [v] := deliveries_append _ _
  unfold Delivered
  rw [hslots, hnumbers, hvalues]
  exact List.rel_append h (.cons ⟨hpos, hv⟩ .nil)

/-! ## One writer that does not die -/

/-- The slot's part of a run is one with one writer and no recovery. -/
theorem slot_run {mapping : Mapping} {start threshold : ℕ}
    {ok : State size → List (Event size) → Label size → Prop} {s : State size}
    {tr : List (Event size)} (h : (machine size mapping start threshold).Run ok s tr) :
    (Latest.machine size mapping start).Run oneWriter s.slot (slots tr) ∧
      (s.slot.writers 0).owns = true := by
  refine h.invariant (fun s tr => (Latest.machine size mapping start).Run oneWriter s.slot
    (slots tr) ∧ (s.slot.writers 0).owns = true) ⟨.init, rfl⟩ ?_
  rintro s tr l s' e - ⟨hrun, hw⟩ hs
  -- A step of the slot's machine by process 0 as the writer, by reader 0 or by the clock.
  have hslot : ∀ l slot' e, (∀ i l', l = .writer i l' → i = 0) →
      Latest.step mapping.capacity s.slot l = some (slot', e) →
      (Latest.machine size mapping start).Run oneWriter slot' (slots (tr ++ [.slot e])) := by
    intro l slot' e hl hstep
    rw [slots_append]
    exact .step l hrun (oneWriter_of_owns hw _ hl) hstep
  have hwriter : ∀ l slot' e, l ≠ .crash →
      Latest.step mapping.capacity s.slot (.writer 0 l) = some (slot', e) →
      (Latest.machine size mapping start).Run oneWriter slot' (slots (tr ++ [.slot e])) ∧
        (slot'.writers 0).owns = true := by
    intro l slot' e hl hstep
    refine ⟨hslot _ slot' e (by rintro i l' ⟨⟩; rfl) hstep, ?_⟩
    obtain ⟨eff, pc, we, hpc, rfl, -⟩ := step_writer hstep
    change (Function.update s.slot.writers 0 pc 0).owns = true
    rw [Function.update_self]
    exact WriterPc.owns_step hpc hl hw
  have hreader : ∀ l slot' e, Latest.step mapping.capacity s.slot (.reader 0 l) = some (slot', e) →
      (Latest.machine size mapping start).Run oneWriter slot' (slots (tr ++ [.slot e])) ∧
        (slot'.writers 0).owns = true := by
    intro l slot' e hstep
    refine ⟨hslot _ slot' e (by rintro i l' ⟨⟩) hstep, ?_⟩
    obtain ⟨pc, re, -, rfl, -⟩ := step_reader hstep
    exact hw
  have hlocal : ∀ e : Event size, e.slot? = [] →
      (Latest.machine size mapping start).Run oneWriter s.slot (slots (tr ++ [e])) := by
    intro e he
    rw [slots_append, he, List.append_nil]
    exact hrun
  cases l with
  | write v notify =>
    obtain ⟨⟨slot', se⟩, hstep, heq⟩ := Option.map_eq_some_iff.mp hs
    cases heq
    exact hwriter _ slot' se (by rintro ⟨⟩) hstep
  | writer =>
    obtain ⟨⟨slot', se⟩, hstep, heq⟩ := Option.map_eq_some_iff.mp hs
    cases heq
    exact hwriter _ slot' se (by rintro ⟨⟩) hstep
  | tick d =>
    cases hs
    exact ⟨hslot (.tick d) _ _ (by rintro i l' ⟨⟩) rfl, hw⟩
  | stop =>
    cases hs
    exact ⟨hlocal _ rfl, hw⟩
  | poll =>
    cases pollStep_cases hs with
    | call slot' e hpc hstep => exact hreader _ slot' e hstep
    | read slot' e hpc hstep => exact hreader _ slot' e hstep
    | exit hpc => exact ⟨hlocal _ rfl, hw⟩
    | deliver hpc hnew => exact ⟨hlocal _ rfl, hw⟩
    | unchanged hpc hold => exact ⟨hlocal _ rfl, hw⟩
    | sleep hpc => exact ⟨hlocal _ rfl, hw⟩

/-- When the subscriber loads the sequence behind a read whose value has the sequence noted last, no
write has begun since that read. -/
def loadsOwn (s : State size) (tr : List (Event size)) (l : Label size) : Prop :=
  l = .poll → s.poll = .loadSequence → s.lastSeq = 2 * (ledger tr).reading →
    s.slot.mem.control.sequence = s.lastSeq

/-- What the subscriber keeps about the numbers. -/
structure Ordered (s : State size) (tr : List (Event size)) : Prop where
  /-- They are those of the values delivered. -/
  delivered : Delivered tr
  /-- They go up. -/
  increasing : (ledger tr).numbers.Pairwise (· < ·)
  /-- The sequence noted last is not less than that of any value delivered. -/
  le_last : ∀ k ∈ (ledger tr).numbers, 2 * k ≤ s.lastSeq
  /-- It is not more than the sequence now. -/
  last_le : s.lastSeq ≤ s.slot.mem.control.sequence
  /-- A read in progress has found something written. -/
  reading : s.poll = .reading → Begun s.slot.mem (s.slot.readers 0)
  /-- Behind a read: its value has its number, and was read after the last sequence was noted. -/
  read : s.poll = .loadSequence → 0 < (ledger tr).reading ∧ s.lastSeq ≤ 2 * (ledger tr).reading ∧
    valueOf (slots tr) (ledger tr).reading = some s.value.1

namespace Ordered

variable {cap threshold : ℕ} {s s' : State size} {tr : List (Event size)} {e : Event size}

/-- A step that delivers nothing. -/
theorem of_quiet (h : Ordered s tr) (hlast : s'.lastSeq = s.lastSeq)
    (hseq : s.slot.mem.control.sequence ≤ s'.slot.mem.control.sequence)
    (hnumbers : (ledger (tr ++ [e])).numbers = (ledger tr).numbers) (he : e.delivered? = [])
    (hreading : s'.poll = .reading → Begun s'.slot.mem (s'.slot.readers 0))
    (hread : s'.poll = .loadSequence → 0 < (ledger (tr ++ [e])).reading ∧
      s'.lastSeq ≤ 2 * (ledger (tr ++ [e])).reading ∧
      valueOf (slots (tr ++ [e])) (ledger (tr ++ [e])).reading = some s'.value.1) :
    Ordered s' (tr ++ [e]) where
  delivered := h.delivered.later hnumbers he
  increasing := by
    rw [hnumbers]
    exact h.increasing
  le_last := by
    rw [hnumbers, hlast]
    exact h.le_last
  last_le := by
    rw [hlast]
    exact le_trans h.last_le hseq
  reading := hreading
  read := hread

/-- A step of the writer or of the clock. -/
theorem of_writer (h : Ordered s tr) {slot' : Latest.State size} {e : Latest.Event size}
    (hseq : s.slot.mem.control.sequence ≤ slot'.mem.control.sequence)
    (hreaders : slot'.readers = s.slot.readers) (he : ∀ i re, e ≠ .reader i re) :
    Ordered { s with slot := slot' } (tr ++ [.slot e]) := by
  have hledger : (ledger (tr ++ [.slot e])).numbers = (ledger tr).numbers ∧
      (ledger (tr ++ [.slot e])).reading = (ledger tr).reading := by
    rw [ledger_append]
    cases e with
    | writer i we => cases we <;> exact ⟨rfl, rfl⟩
    | reader i re => exact absurd rfl (he i re)
    | tick => exact ⟨rfl, rfl⟩
  refine h.of_quiet rfl hseq hledger.1 rfl (fun hpc => ?_) fun hpc => ?_
  · change Begun slot'.mem (slot'.readers 0)
    rw [hreaders]
    exact (h.reading hpc).mono hseq
  · obtain ⟨hpos, hle, hv⟩ := h.read hpc
    rw [hledger.2, slots_append]
    exact ⟨hpos, hle, valueOf_append e hv⟩

/-- A step of `try_read`. One that succeeds has read the value of the write committed last. -/
theorem of_read (h : Ordered s tr) (hinv : Latest.Inv cap s.slot (slots tr))
    (hplain : Plain s.slot (slots tr)) (hpc : s.poll = .reading) {slot' : Latest.State size}
    {e : Latest.Event size} (hs : Latest.step cap s.slot (.reader 0 .run) = some (slot', e)) :
    Ordered { s with slot := slot', poll := .after e, value := valueAfter s.value e }
      (tr ++ [.slot e]) := by
  have hbegun := h.reading hpc
  obtain ⟨pc, re, hstep, rfl, rfl⟩ := step_reader hs
  have hnumbers : (ledger (tr ++ [.slot (.reader 0 re)])).numbers = (ledger tr).numbers := by
    rw [ledger_append]
    cases re with
    | returned res out => cases res <;> rfl
    | _ => rfl
  refine h.of_quiet rfl le_rfl hnumbers rfl (fun hafter => ?_) fun hafter => ?_
  · -- The read goes on.
    change Begun s.slot.mem (Function.update s.slot.readers 0 pc 0)
    rw [Function.update_self]
    refine hbegun.step hstep ?_
    rintro res out rfl
    cases res <;> cases hafter
  · obtain ⟨out, rfl⟩ : ∃ out, re = .returned .success out := by
      cases re with
      | returned res out =>
        cases res with
        | success => exact ⟨out, rfl⟩
        | _ => cases hafter
      | _ => cases hafter
    generalize hr : s.slot.readers 0 = pc₀ at hstep hbegun
    cases ReadPc.step_cases hstep with
    | success c i s1 out hs1 =>
      obtain ⟨hout, hcount⟩ := hinv.validated hr hs1.symm (hplain.unreset 0)
      have hreading : (ledger (tr ++ [.slot (.reader 0 (.returned .success out))])).reading =
          (committed (slots tr)).length := by
        rw [ledger_append]
        exact ledger_commits tr
      have hpos : 0 < s.slot.mem.control.sequence := hbegun
      have hlast := h.last_le
      rw [hplain.commits] at hcount
      rw [hreading, slots_append]
      refine ⟨by omega, ?_, valueOf_append _ ?_⟩
      · change s.lastSeq ≤ _
        omega
      · rw [hplain.content]
        refine congrArg some (hout.symm.trans (toPayload_val ?_).symm)
        rw [hout]
        exact hinv.length

/-- A delivery. The value has not been delivered before: then the sequence noted last would be its
own, and the sequence now as well. -/
theorem deliver (h : Ordered s tr) (hpc : s.poll = .loadSequence)
    (hnew : s.slot.mem.control.sequence ≠ s.lastSeq)
    (hown : s.lastSeq = 2 * (ledger tr).reading → s.slot.mem.control.sequence = s.lastSeq)
    (hle : 2 * (ledger tr).reading ≤ s.slot.mem.control.sequence) :
    Ordered { s with poll := .sleeping, lastSeq := s.slot.mem.control.sequence }
      (tr ++ [.delivered s.value.1]) := by
  obtain ⟨hpos, hlast, hv⟩ := h.read hpc
  have hnumbers : (ledger (tr ++ [.delivered s.value.1])).numbers =
      (ledger tr).numbers ++ [(ledger tr).reading] := by
    rw [ledger_append]
    rfl
  have hless : ∀ k ∈ (ledger tr).numbers, k < (ledger tr).reading := by
    intro k hk
    have hk' := h.le_last k hk
    by_contra hge
    exact hnew (hown (by omega))
  refine ⟨h.delivered.deliver hpos hv, ?_, ?_, le_rfl, by rintro ⟨⟩, by rintro ⟨⟩⟩
  · rw [hnumbers, List.pairwise_append]
    refine ⟨h.increasing, List.pairwise_singleton _ _, ?_⟩
    intro k hk k' hk'
    rw [List.mem_singleton.mp hk']
    exact hless k hk
  · intro k hk
    change 2 * k ≤ s.slot.mem.control.sequence
    rw [hnumbers] at hk
    rcases List.mem_append.mp hk with hk | hk
    · have := hless k hk
      omega
    · rw [List.mem_singleton.mp hk]
      exact hle

/-- Every step keeps it, in a run that meets the condition. -/
theorem step {mapping : Mapping} {start : ℕ} {l : Label size} (h : Ordered s tr)
    (hcreate : createMapping size kFlagLatest = .ok mapping)
    (hrun : (machine size mapping start threshold).Run loadsOwn s tr) (hguard : loadsOwn s tr l)
    (hs : (machine size mapping start threshold).step s l = some (s', e))
    (hlt : begun (slots (tr ++ [e])) < 2^63) : Ordered s' (tr ++ [e]) := by
  obtain ⟨hslot, hw⟩ := slot_run hrun
  obtain ⟨hinv, hplain, -⟩ := regular_of_run hcreate hslot (begun_slots_lt hlt) 0
  have hwriter : ∀ l slot' e', Latest.step mapping.capacity s.slot (.writer 0 l) =
      some (slot', e') → begun (slots tr ++ [e']) < 2^63 →
      Ordered { s with slot := slot' } (tr ++ [.slot e']) := by
    intro l slot' e' hstep hb
    obtain ⟨eff, pc, we, hpc, rfl, rfl⟩ := step_writer hstep
    obtain ⟨-, hno⟩ := oneWriter_of_owns hw (slots tr)
      (l := .writer 0 l) (by rintro i l' ⟨⟩; rfl)
    obtain ⟨-, hreset⟩ := WriterPc.recovering_step hpc (hplain.calm 0)
      fun hb t hl hpc => hno 0 hb t (by rw [hl]) hpc
    exact h.of_writer (hinv.sequence_le hpc hreset hb).1 rfl (by rintro i re ⟨⟩)
  cases l with
  | write v notify =>
    obtain ⟨⟨slot', se⟩, hstep, heq⟩ := Option.map_eq_some_iff.mp hs
    cases heq
    exact hwriter _ slot' se hstep (by rw [slots_append] at hlt; exact hlt)
  | writer =>
    obtain ⟨⟨slot', se⟩, hstep, heq⟩ := Option.map_eq_some_iff.mp hs
    cases heq
    exact hwriter _ slot' se hstep (by rw [slots_append] at hlt; exact hlt)
  | tick d =>
    cases hs
    exact h.of_writer le_rfl rfl (by rintro i re ⟨⟩)
  | stop =>
    cases hs
    refine h.of_quiet rfl le_rfl (by rw [ledger_append]; rfl) rfl h.reading fun hpc => ?_
    have hslots : slots (tr ++ [.stopped]) = slots tr := by simp [Event.slot?]
    rw [ledger_append, hslots]
    exact h.read hpc
  | poll =>
    cases pollStep_cases hs with
    | call slot' e hpc hstep =>
      obtain ⟨pc, re, hread, rfl, rfl⟩ := step_reader hstep
      generalize s.slot.readers 0 = pc₀ at hread
      cases pc₀ <;> cases hread
      refine h.of_quiet rfl le_rfl (by rw [ledger_append]; rfl) rfl (fun _ => ?_) (by rintro ⟨⟩)
      change Begun s.slot.mem (Function.update s.slot.readers 0 _ 0)
      rw [Function.update_self]
      trivial
    | read slot' e hpc hstep => exact h.of_read hinv hplain hpc hstep
    | deliver hpc hnew =>
      have hle := reading_le tr
      have hseq := hinv.sequence
      rw [ledger_commits, ← hplain.commits] at hle
      exact h.deliver hpc hnew (hguard rfl hpc) (by omega)
    | exit hpc =>
      exact h.of_quiet rfl le_rfl (by rw [ledger_append]; rfl) rfl (by rintro ⟨⟩) (by rintro ⟨⟩)
    | unchanged hpc hold =>
      exact h.of_quiet rfl le_rfl (by rw [ledger_append]; rfl) rfl (by rintro ⟨⟩) (by rintro ⟨⟩)
    | sleep hpc =>
      exact h.of_quiet rfl le_rfl (by rw [ledger_append]; rfl) rfl (by rintro ⟨⟩) (by rintro ⟨⟩)

end Ordered

/-- A subscriber delivers each write at most once and in order. In every run in which, whenever the
subscriber loads the sequence behind a read whose value has the sequence noted last, no write has
begun since that read, and in which fewer than `2^63` writes have begun: the values passed to
`on_message` are the values of the writes whose numbers the ledger has, and these numbers go up. -/
theorem in_order {mapping : Mapping} {start threshold : ℕ} {s : State size} {tr : List (Event size)}
    (hcreate : createMapping size kFlagLatest = .ok mapping)
    (hrun : (machine size mapping start threshold).Run loadsOwn s tr)
    (hlt : begun (slots tr) < 2^63) :
    List.Forall₂ (fun k v => 0 < k ∧ valueOf (slots tr) k = some v) (ledger tr).numbers
        (deliveries tr) ∧
      (ledger tr).numbers.Pairwise (· < ·) := by
  suffices h : Ordered s tr from ⟨h.delivered, h.increasing⟩
  induction hrun with
  | init =>
    exact ⟨.nil, .nil, by simp [ledger], Nat.zero_le _, by rintro ⟨⟩, by rintro ⟨⟩⟩
  | step l hrun hguard hs ih =>
    exact (ih (begun_slots_lt hlt)).step hcreate hrun hguard hs hlt

/-- `loadsOwn`, as a test. -/
def loadsOwnTest (s : State size) (tr : List (Event size)) : Label size → Bool
  | .poll => s.poll != .loadSequence || s.lastSeq != 2 * (ledger tr).reading ||
      s.slot.mem.control.sequence == s.lastSeq
  | _ => true

/-- The test is sound. -/
theorem loadsOwn_of_test (s : State size) (tr : List (Event size)) (l : Label size)
    (h : loadsOwnTest s tr l = true) : loadsOwn s tr l := by
  rintro rfl hpc hlast
  simpa [loadsOwnTest, hpc, hlast] using h

/-- Two values are written, and each is delivered by the iteration behind it, the second one while
the next write is under way. -/
theorem in_order_twoValues : ∃ mapping s tr, createMapping 1 kFlagLatest = .ok mapping ∧
    (machine 1 mapping 0 5).Run loadsOwn s tr ∧ begun (slots tr) < 2^63 ∧
    deliveries tr = [[1], [2]] ∧ (ledger tr).numbers = [1, 2] ∧
    (ledger tr).numbers.Pairwise (· < ·) := by
  obtain ⟨mapping, hmap⟩ : ∃ mapping, createMapping 1 kFlagLatest = .ok mapping := ⟨_, rfl⟩
  obtain ⟨s, tr, hrun, htest⟩ :=
    (machine 1 mapping 0 5).exists_run loadsOwnTest loadsOwn_of_test
      (writeByte 1 ++ readByte ++ [.poll, .poll] ++ writeByte 2 ++ readByte ++
        [.write (oneByte 3) false, .writer, .writer, .poll])
      (fun _ tr => decide (begun (slots tr) < 2^63 ∧ deliveries tr = [[1], [2]] ∧
        (ledger tr).numbers = [1, 2]))
      (by cases hmap; decide +kernel)
  obtain ⟨hlt, hvalues, hnumbers⟩ := of_decide_eq_true htest
  exact ⟨mapping, s, tr, hmap, hrun, hlt, hvalues, hnumbers, (in_order hmap hrun hlt).2⟩

/-- The value 1 is delivered, and the next iteration reads it again. A write of the value 2 begins
before that iteration loads the sequence, and the value 1, the only one committed, is delivered
twice. -/
theorem delivered_twice : ∃ mapping s tr, createMapping 1 kFlagLatest = .ok mapping ∧
    (machine 1 mapping 0 5).Reaches s tr ∧ begun (slots tr) < 2^63 ∧ committed (slots tr) = [[1]] ∧
    deliveries tr = [[1], [1]] := by
  obtain ⟨mapping, hmap⟩ : ∃ mapping, createMapping 1 kFlagLatest = .ok mapping := ⟨_, rfl⟩
  obtain ⟨s, tr, hrun, htest⟩ :=
    (machine 1 mapping 0 5).exists_reaches
      (writeByte 1 ++ readByte ++ [.poll, .poll] ++ readByte ++
        [.write (oneByte 2) false, .writer, .writer, .poll])
      (fun _ tr => decide (begun (slots tr) < 2^63 ∧ committed (slots tr) = [[1]] ∧
        deliveries tr = [[1], [1]]))
      (by cases hmap; decide +kernel)
  exact ⟨mapping, s, tr, hmap, hrun, of_decide_eq_true htest⟩

end LfRing.Latest.Subscriber

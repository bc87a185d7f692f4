import LfRing.Latest.Deliveries
import LfRing.Latest.Recovery

/-!
# A subscriber across recoveries

Any number of processes that claim a `SharedLatest`, write and die, and one subscriber, with calls
that do not overlap: a process moves only where no other process is inside a call and the subscriber
is between two iterations, and the subscriber only where no process is inside a call (`apart`).

A recovery starts the sequence again from zero, but the subscriber's `last_seq` stays. If the new
writer has committed as many writes as made up `last_seq`, the subscriber takes the newest value for
one it has seen, and does not deliver it (`missed_write`). `loadsUnreset` excludes this, and
`follows` is what every run keeps that meets it, as long as nobody writes over a write that a dead
process has left unfinished (`writesEven`): the newest write is delivered by every iteration that
reads a value.

The invariant rests on the one of `Slot.lean`, which allows one writer at a time. A process between
two calls does nothing, so it is left out of the state that the invariant is about (`masked`).
-/

namespace LfRing.Latest.Following

open Subscriber (slots ledger deliveries Delivered Begun PollStep)

variable {size : ℕ}

/-- Who moves next. -/
inductive Label (size : ℕ)
  /-- A process as a writer. -/
  | writer (i : ℕ) (l : WriterLabel size)
  /-- The clock moves. -/
  | tick (d : ℕ)
  /-- The subscriber's thread takes the next step. -/
  | poll
  /-- `stop` is called. -/
  | stop

/-- One step of a process, of the clock or of the subscriber. -/
def step (cap threshold : ℕ) (s : Subscriber.State size) :
    Label size → Option (Subscriber.State size × Subscriber.Event size)
  | .writer i l => (Latest.step cap s.slot (.writer i l)).map fun x =>
      ({ s with slot := x.1 }, .slot x.2)
  | .tick d => (Latest.step cap s.slot (.tick d)).map fun x => ({ s with slot := x.1 }, .slot x.2)
  | .poll => Subscriber.pollStep cap threshold s
  | .stop => some ({ s with running := false }, .stopped)

/-- Processes and a subscriber on a slot that process 0 has created, from the time `start` on. -/
def machine (size : ℕ) (mapping : Mapping) (start threshold : ℕ) :
    Machine (Subscriber.State size) (Label size) (Subscriber.Event size) where
  init := (Subscriber.machine size mapping start threshold).init
  step := step mapping.capacity threshold

/-- The process is inside `claim` or `write`. -/
def inCall : WriterPc size → Bool
  | .gone => false
  | .idle => false
  | _ => true

/-- The subscriber is inside an iteration. -/
def inIteration : Subscriber.PollPc → Bool
  | .reading => true
  | .loadSequence => true
  | _ => false

/-- Calls do not overlap. -/
def apart (s : Subscriber.State size) : Label size → Prop
  | .writer i _ => (∀ j, j ≠ i → inCall (s.slot.writers j) = false) ∧ inIteration s.poll = false
  | .poll => ∀ j, inCall (s.slot.writers j) = false
  | _ => True

/-- `write` is called where the last write is finished. -/
def writesEven (s : Subscriber.State size) : Label size → Prop
  | .writer _ (.write _ _) => s.slot.mem.control.sequence % 2 = 0
  | _ => True

/-- Whether the sequence has been reset since the last delivery. -/
def resetSinceDelivery (tr : List (Subscriber.Event size)) : Bool :=
  tr.foldl (fun since e => match e with
    | .slot (.writer _ .reset) => true
    | .delivered _ => false
    | _ => since) false

/-- When the subscriber loads the sequence behind a read and finds the one noted last, the sequence
has not been reset since it was noted. -/
def loadsUnreset (s : Subscriber.State size) (tr : List (Subscriber.Event size)) (l : Label size) :
    Prop :=
  l = .poll → s.poll = .loadSequence → s.slot.mem.control.sequence = s.lastSeq →
    resetSinceDelivery tr = false

/-- What a run across recoveries is to keep to. -/
def sequential (s : Subscriber.State size) (tr : List (Subscriber.Event size)) (l : Label size) :
    Prop :=
  apart s l ∧ writesEven s l ∧ loadsUnreset s tr l

/-- A reset sets the flag, a delivery clears it, and every other event leaves it as it was. -/
theorem resetSinceDelivery_append (tr : List (Subscriber.Event size)) (e : Subscriber.Event size) :
    resetSinceDelivery (tr ++ [e]) = match e with
      | .slot (.writer _ .reset) => true
      | .delivered _ => false
      | _ => resetSinceDelivery tr := by
  simp only [resetSinceDelivery, List.foldl_append, List.foldl_cons, List.foldl_nil]

/-! ## The slot, without the processes between two calls -/

/-- A process between two calls is left out. -/
def visible : WriterPc size → WriterPc size
  | .idle => .gone
  | pc => pc

/-- The slot with the processes that are inside a call. -/
def masked (s : State size) : State size := { s with writers := fun i => visible (s.writers i) }

/-- A process inside a call is seen where it is. -/
theorem visible_of_inCall {pc : WriterPc size} (h : inCall pc = true) : visible pc = pc := by
  cases pc <;> first | rfl | cases h

/-- A process between two calls is seen as one that is gone. -/
theorem visible_of_not_inCall {pc : WriterPc size} (h : inCall pc = false) :
    visible pc = .gone := by
  cases pc <;> first | rfl | cases h

/-- The process has found the sequence odd, and has not yet won the exchange of the heartbeat. -/
def judges : WriterPc size → Bool
  | .claimHeartbeat _ => true
  | .claimClock _ _ => true
  | .claimExchange _ _ => true
  | _ => false

/-- A process that judges is inside `claim`. -/
theorem inCall_of_judges {pc : WriterPc size} (h : judges pc = true) : inCall pc = true := by
  cases pc <;> first | rfl | cases h

/-- The sequence stays odd while a claim judges, as nobody else moves. -/
theorem judges_step {cap : ℕ} {m : Shared} {now : ℕ} {pc pc' : WriterPc size} {l : WriterLabel size}
    {eff : Effect} {e : WriterEvent size} (hs : pc.step cap m now l = some (eff, pc', e))
    (hodd : judges pc = true → m.control.sequence % 2 = 1) (hpc : judges pc' = true) :
    (eff.apply m).control.sequence % 2 = 1 := by
  cases WriterPc.step_cases hs with
  | odd threshold h =>
    change m.control.sequence % 2 = 1
    omega
  | claimHeartbeat threshold => exact hodd rfl
  | stale threshold old h => exact hodd rfl
  | won old t h =>
    unfold WriterPc.clearing at hpc
    split at hpc <;> cases hpc
  | clear addr =>
    unfold WriterPc.clearing at hpc
    split at hpc <;> cases hpc
  | begin v s notify =>
    unfold WriterPc.copying at hpc
    split at hpc <;> cases hpc
  | copy v s i notify =>
    unfold WriterPc.copying at hpc
    split at hpc <;> cases hpc
  | heartbeat t notify => cases notify <;> cases hpc
  | _ => cases hpc

/-- The invariant does not need a process. -/
theorem inv_without {cap : ℕ} {s : State size} {tr : List (Event size)} (h : Inv cap s tr) (i : ℕ) :
    Inv cap { s with writers := Function.update s.writers i .gone } tr := by
  refine ⟨h.turns.of_idle rfl, ?_, h.sequence, h.bound, h.content, h.length, h.reader⟩
  exact (Function.forall_update_iff s.writers fun _ pc => pc.clears = true →
    size ≤ cap ∧ s.mem.control.sequence % 2 = 1).mpr ⟨by rintro ⟨⟩, fun j _ => h.clears j⟩

/-- Where nobody is inside a call and the last write is finished, a process between two calls may be
the writer. -/
theorem inv_with {cap : ℕ} {s : State size} {tr : List (Event size)} (h : Inv cap s tr) (i : ℕ)
    (hothers : ∀ j, j ≠ i → (s.writers j).owns = false) (heven : s.mem.control.sequence % 2 = 0) :
    Inv cap { s with writers := Function.update s.writers i .idle } tr := by
  refine ⟨Turns.of_alone hothers heven, ?_, h.sequence, h.bound, h.content, h.length, h.reader⟩
  exact (Function.forall_update_iff s.writers fun _ pc => pc.clears = true →
    size ≤ cap ∧ s.mem.control.sequence % 2 = 1).mpr ⟨by rintro ⟨⟩, fun j _ => h.clears j⟩

/-- A step of a process, where no other is inside a call. -/
theorem masked_writer {cap i : ℕ} {s s' : State size} {tr : List (Event size)} {e : Event size}
    {l : WriterLabel size} (h : Inv cap (masked s) tr) (hcap : size ≤ cap)
    (hothers : ∀ j, j ≠ i → inCall (s.writers j) = false)
    (heven : ∀ v notify, l = .write v notify → s.mem.control.sequence % 2 = 0)
    (hodd : judges (s.writers i) = true → s.mem.control.sequence % 2 = 1)
    (hs : Latest.step cap s (.writer i l) = some (s', e)) (hlt : begun (tr ++ [e]) < 2^63) :
    Inv cap (masked s') (tr ++ [e]) := by
  obtain ⟨eff, pc, we, hstep, rfl, rfl⟩ := step_writer hs
  have hgone : ∀ j, j ≠ i → (masked s).writers j = .gone := fun j hj =>
    visible_of_not_inCall (hothers j hj)
  -- Process `i` alone, at its place.
  let own (pc : WriterPc size) : State size :=
    { masked s with writers := Function.update (masked s).writers i pc }
  have hown : Inv cap (own (s.writers i)) tr ∨ s.writers i = .idle ∧ l = .crash := by
    by_cases hin : inCall (s.writers i) = true
    · have hsame : (masked s).writers i = s.writers i := visible_of_inCall hin
      refine Or.inl ?_
      rw [← hsame]
      change Inv cap { masked s with writers := Function.update (masked s).writers i _ } tr
      rw [Function.update_eq_self]
      exact h
    · cases hpc : s.writers i with
      | gone => exact Or.inl (inv_without h i)
      | idle =>
        rw [hpc] at hstep
        cases l with
        | crash => exact Or.inr ⟨rfl, rfl⟩
        | write v notify =>
          exact Or.inl (inv_with h i (fun j hj => by rw [hgone j hj]; rfl) (heven v notify rfl))
        | claim t => cases hstep
        | run => cases hstep
      | _ =>
        rw [hpc] at hin
        exact absurd rfl hin
  -- The state after the step, masked.
  have hafter :
      masked { s with mem := eff.apply s.mem, writers := Function.update s.writers i pc } =
        { masked s with
          mem := eff.apply s.mem
          writers := Function.update (masked s).writers i (visible pc) } := by
    unfold masked
    congr 1
    funext j
    dsimp only
    by_cases hj : j = i
    · subst hj
      rw [Function.update_self, Function.update_self]
    · rw [Function.update_of_ne hj, Function.update_of_ne hj]
  rw [hafter]
  rcases hown with hown | ⟨hidle, rfl⟩
  · have hnext : Inv cap { masked s with
        mem := eff.apply s.mem, writers := Function.update (masked s).writers i pc }
        (tr ++ [.writer i we]) := by
      have hstep' : Latest.step cap (own (s.writers i)) (.writer i l) = some ({ masked s with
          mem := eff.apply s.mem, writers := Function.update (masked s).writers i pc },
          .writer i we) := by
        have hpc : (own (s.writers i)).writers i = s.writers i := Function.update_self _ _ _
        simp only [Latest.step, hpc]
        rw [show (own (s.writers i)).mem = s.mem from rfl,
          show (own (s.writers i)).clock = s.clock from rfl, hstep]
        simp only [own, Function.update_idem]
      refine hown.step hstep' ?_ ?_ (Or.inl hcap) hlt
      · rintro k hk htake j
        obtain ⟨rfl, rfl⟩ := Latest.Label.writer.inj hk
        by_cases hj : j = i
        · subst hj
          rcases htake with ⟨⟨t, hpc⟩, -⟩ | ⟨hb, now, hpc, -⟩ <;> rw [hpc] <;> rfl
        · have hother : (own (s.writers i)).writers j = .gone :=
            (Function.update_of_ne hj _ _).trans (hgone j hj)
          rw [hother]
          rfl
      · rintro k hb now hk hpc -
        obtain ⟨rfl, rfl⟩ := Latest.Label.writer.inj hk
        have hself : (own (s.writers i)).writers i = s.writers i := Function.update_self _ _ _
        rw [hself] at hpc
        exact hodd (by rw [hpc]; rfl)
    by_cases hin : inCall pc = true
    · rw [visible_of_inCall hin]
      exact hnext
    · have hleave := inv_without hnext i
      dsimp only at hleave
      rw [Function.update_idem] at hleave
      rw [visible_of_not_inCall (Bool.eq_false_iff.mpr hin)]
      exact hleave
  · -- A process that dies between two calls was left out before.
    rw [hidle] at hstep
    cases hstep
    have hcrash : Latest.step cap (masked s) (.writer i .crash) = some ({ masked s with
        mem := Effect.none.apply s.mem, writers := Function.update (masked s).writers i .gone },
        .writer i .crashed) := by
      simp only [Latest.step, WriterPc.step]
      rfl
    refine h.step hcrash ?_ ?_ (Or.inl hcap) hlt
    · rintro k hk
      cases hk
    · rintro k hb now hk
      cases hk

/-- A step of a reader or of the clock. -/
theorem masked_other {cap : ℕ} {s s' : State size} {tr : List (Event size)} {e : Event size}
    {l : Latest.Label size} (h : Inv cap (masked s) tr) (hl : ∀ i l', l ≠ .writer i l')
    (hs : Latest.step cap s l = some (s', e)) :
    Inv cap (masked s') (tr ++ [e]) ∧ s'.writers = s.writers ∧ s'.mem = s.mem := by
  cases l with
  | writer i l' => exact absurd rfl (hl i l')
  | tick d =>
    cases hs
    exact ⟨h.tick d, rfl, rfl⟩
  | reader i l' =>
    obtain ⟨pc, re, hstep, rfl, rfl⟩ := step_reader hs
    exact ⟨h.reader_step hstep, rfl, rfl⟩

/-! ## What the subscriber keeps -/

/-- The reader has loaded an even `s1`. -/
def copies : ReadPc size → Bool
  | .copy _ _ _ _ _ => true
  | .loadS2 _ _ _ _ => true
  | _ => false

/-- A reader copies only behind its load of `s1`. -/
theorem copies_step {m : Shared} {now : ℕ} {pc pc' : ReadPc size} {e : ReadEvent}
    (hs : pc.step m now .run = some (pc', e)) (hpc : copies pc' = true) :
    e = .loadedS1 ∨ copies pc = true := by
  cases ReadPc.step_cases hs with
  | call c => cases hs
  | loadS1 c i out => exact Or.inl rfl
  | copy c i s1 j out => exact Or.inr rfl
  | _ => cases hpc

/-- What holds of the slot, the subscriber's locals and the history at each place of `poll_loop`. -/
def PollOk (s : Subscriber.State size) (tr : List (Subscriber.Event size)) : Prop :=
  match s.poll with
  | .top => s.slot.readers 0 = .idle
  | .reading => (Subscriber.log tr).success = false ∧ Begun s.slot.mem (s.slot.readers 0) ∧
      (copies (s.slot.readers 0) = true → resetSince 0 (slots tr) = false)
  | .loadSequence => s.slot.readers 0 = .idle ∧ 0 < (past (slots tr)).commits ∧
      s.slot.mem.control.sequence = 2 * (past (slots tr)).commits ∧
      s.value.1 = (past (slots tr)).content ∧
      (ledger tr).reading = (committed (slots tr)).length
  | .sleeping => s.slot.readers 0 = .idle ∧
      ((Subscriber.log tr).quiet = true → (Subscriber.log tr).success = true →
        0 < (committed (slots tr)).length ∧ (committed (slots tr)).length ∈ (ledger tr).numbers)
  | .exited => True

/-- The invariant. -/
structure Inv (cap : ℕ) (s : Subscriber.State size) (tr : List (Subscriber.Event size)) : Prop where
  /-- The slot's invariant. -/
  slot : Latest.Inv cap (masked s.slot) (slots tr)
  /-- While a claim judges, the sequence is odd. -/
  odd : ∀ i, judges (s.slot.writers i) = true → s.slot.mem.control.sequence % 2 = 1
  /-- Something written since the last reset is the content, and the newest write. -/
  newest : 0 < (past (slots tr)).commits →
    valueOf (slots tr) (committed (slots tr)).length = some (past (slots tr)).content
  /-- The writes since the last reset are among all. -/
  commits_le : (past (slots tr)).commits ≤ (committed (slots tr)).length
  /-- The numbers delivered are those of the values delivered. -/
  delivered : Delivered tr
  /-- As long as the sequence has not been reset, the one noted last is that of a write
  delivered. -/
  last : resetSinceDelivery tr = false → 0 < s.lastSeq → ∃ k ∈ (ledger tr).numbers,
    2 * k + 2 * (past (slots tr)).commits = 2 * (committed (slots tr)).length + s.lastSeq
  /-- What holds where the subscriber is. -/
  poll : PollOk s tr

namespace Inv

variable {cap threshold : ℕ} {s s' : Subscriber.State size} {tr : List (Subscriber.Event size)}

/-- What an event of a writer does to the history: it commits a value, resets the sequence, or
neither. -/
theorem past_writer (tr : List (Latest.Event size)) (i : ℕ) (e : WriterEvent size) :
    (∃ v : Payload size, past (tr ++ [.writer i e]) = ⟨v.1, (past tr).commits + 1⟩ ∧
        committed (tr ++ [.writer i e]) = committed tr ++ [v.1] ∧ e ≠ .reset) ∨
      (past (tr ++ [.writer i e])).commits = 0 ∧ committed (tr ++ [.writer i e]) = committed tr ∧
        e = .reset ∨
      past (tr ++ [.writer i e]) = past tr ∧ committed (tr ++ [.writer i e]) = committed tr ∧
        e ≠ .reset := by
  rw [past_append, committed_append]
  cases e with
  | committed v => exact Or.inl ⟨v, rfl, rfl, by rintro ⟨⟩⟩
  | reset => exact Or.inr (Or.inl ⟨rfl, List.append_nil _, rfl⟩)
  | _ => exact Or.inr (Or.inr ⟨rfl, List.append_nil _, by rintro ⟨⟩⟩)

/-- A step of a process. -/
theorem writer_step (h : Inv cap s tr) (hcap : size ≤ cap) {i : ℕ} {l : WriterLabel size}
    {slot' : State size} {e : Event size} (hapart : apart s (.writer i l))
    (heven : writesEven s (.writer i l))
    (hs : Latest.step cap s.slot (.writer i l) = some (slot', e))
    (hlt : begun (slots tr ++ [e]) < 2^63) :
    Inv cap { s with slot := slot' } (tr ++ [.slot e]) := by
  obtain ⟨hothers, hout⟩ := hapart
  have hslots : slots (tr ++ [.slot e]) = slots tr ++ [e] := Subscriber.slots_append _ _
  have hslot : Latest.Inv cap (masked slot') (slots tr ++ [e]) :=
    masked_writer h.slot hcap hothers (by rintro v notify rfl; exact heven) (h.odd i) hs hlt
  obtain ⟨eff, pc, we, hstep, rfl, rfl⟩ := step_writer hs
  have hledger : (ledger (tr ++ [.slot (.writer i we)])).numbers = (ledger tr).numbers := by
    rw [Subscriber.ledger_append]
    cases we <;> rfl
  have hquiet : (Subscriber.log (tr ++ [.slot (.writer i we)])).quiet = false := by
    rw [Subscriber.log_append]
    cases we <;> rfl
  have hreset : resetSinceDelivery (tr ++ [.slot (.writer i we)]) = false →
      we ≠ .reset ∧ resetSinceDelivery tr = false := by
    rw [resetSinceDelivery_append]
    cases we <;> first | exact fun h => ⟨by rintro ⟨⟩, h⟩ | (intro h; cases h)
  have hle := h.commits_le
  refine ⟨by rw [hslots]; exact hslot, ?_, ?_, ?_, h.delivered.later hledger rfl, ?_, ?_⟩
  · intro j hj
    change judges (Function.update s.slot.writers i pc j) = true at hj
    by_cases heq : j = i
    · subst heq
      rw [Function.update_self] at hj
      exact judges_step hstep (h.odd j) hj
    · -- No other process is inside a call.
      rw [Function.update_of_ne heq] at hj
      exact absurd (inCall_of_judges hj) (Bool.eq_false_iff.mp (hothers j heq))
  · rw [hslots]
    intro hpos
    rcases past_writer (slots tr) i we with ⟨v, hp, hc, -⟩ | ⟨hp, -, -⟩ | ⟨hp, hc, -⟩
    · rw [hp, hc, valueOf, hc, List.length_append, List.length_singleton,
        List.getElem?_cons_succ, List.getElem?_concat_length]
    · omega
    · rw [hp] at hpos ⊢
      rw [hc]
      exact valueOf_append _ (h.newest hpos)
  · rw [hslots]
    rcases past_writer (slots tr) i we with ⟨v, hp, hc, -⟩ | ⟨hp, -, -⟩ | ⟨hp, hc, -⟩
    · rw [hp, hc, List.length_append, List.length_singleton]
      dsimp only
      omega
    · omega
    · rw [hp, hc]
      exact hle
  · intro hunreset hpos
    obtain ⟨hwe, hold⟩ := hreset hunreset
    obtain ⟨k, hk, heq⟩ := h.last hold hpos
    rw [hledger, hslots]
    refine ⟨k, hk, ?_⟩
    -- A commit adds one to all writes and to those since the reset.
    rcases past_writer (slots tr) i we with ⟨v, hp, hc, -⟩ | ⟨-, -, hr⟩ | ⟨hp, hc, -⟩
    · rw [hp, hc, List.length_append, List.length_singleton]
      dsimp only
      omega
    · exact absurd hr hwe
    · rw [hp, hc]
      exact heq
  · have hpoll := h.poll
    unfold PollOk at hpoll ⊢
    dsimp only
    cases hp : s.poll with
    | top =>
      rw [hp] at hpoll
      exact hpoll
    | sleeping =>
      rw [hp] at hpoll
      refine ⟨hpoll.1, fun hq => ?_⟩
      rw [hquiet] at hq
      cases hq
    | exited => trivial
    | reading =>
      rw [hp] at hout
      cases hout
    | loadSequence =>
      rw [hp] at hout
      cases hout

/-- A step of the clock or of the subscriber that delivers nothing. -/
theorem of_quiet (h : Inv cap s tr) {e : Subscriber.Event size}
    (hslot : Latest.Inv cap (masked s'.slot) (slots (tr ++ [e])))
    (hwriters : s'.slot.writers = s.slot.writers) (hmem : s'.slot.mem = s.slot.mem)
    (hpast : past (slots (tr ++ [e])) = past (slots tr))
    (hcommitted : committed (slots (tr ++ [e])) = committed (slots tr))
    (hnumbers : (ledger (tr ++ [e])).numbers = (ledger tr).numbers) (he : e.delivered? = [])
    (hreset : resetSinceDelivery (tr ++ [e]) = resetSinceDelivery tr)
    (hlast : s'.lastSeq = s.lastSeq) (hpoll : PollOk s' (tr ++ [e])) : Inv cap s' (tr ++ [e]) where
  slot := hslot
  odd := by
    rw [hwriters, hmem]
    exact h.odd
  newest := by
    rw [hpast, valueOf, hcommitted]
    exact h.newest
  commits_le := by
    rw [hpast, hcommitted]
    exact h.commits_le
  delivered := h.delivered.later hnumbers he
  last := by
    rw [hreset, hlast, hnumbers, hpast, hcommitted]
    exact h.last
  poll := hpoll

/-- The clock moves. -/
theorem tick (h : Inv cap s tr) (d : ℕ) :
    Inv cap { s with slot := { s.slot with clock := s.slot.clock + d } } (tr ++ [.slot .tick]) := by
  have hslots : slots (tr ++ [.slot .tick]) = slots tr ++ [.tick] := Subscriber.slots_append _ _
  have hpast : past (slots (tr ++ [.slot .tick])) = past (slots tr) := by
    rw [hslots, past_append]
    rfl
  have hcommitted : committed (slots (tr ++ [.slot .tick])) = committed (slots tr) := by
    rw [hslots, committed_append]
    exact List.append_nil _
  refine h.of_quiet ?_ rfl rfl hpast hcommitted (by rw [Subscriber.ledger_append]; rfl) rfl
    (by rw [resetSinceDelivery_append]) rfl ?_
  · rw [hslots]
    exact h.slot.tick d
  · have hpoll := h.poll
    unfold PollOk at hpoll ⊢
    rw [hpast, hcommitted, hslots, resetSince_append, Subscriber.log_append,
      Subscriber.ledger_append]
    exact hpoll

/-- `stop` is called. -/
theorem stop (h : Inv cap s tr) : Inv cap { s with running := false } (tr ++ [.stopped]) := by
  have hslots : slots (tr ++ [.stopped]) = slots tr := by simp [Subscriber.Event.slot?]
  refine h.of_quiet ?_ rfl rfl (by rw [hslots]) (by rw [hslots])
    (by rw [Subscriber.ledger_append]; rfl) rfl (by rw [resetSinceDelivery_append]) rfl ?_
  · rw [hslots]
    exact h.slot
  · have hpoll := h.poll
    unfold PollOk at hpoll ⊢
    rw [hslots, Subscriber.log_append, Subscriber.ledger_append]
    exact hpoll

/-- A step of the subscriber that is not one of the slot's machine and delivers nothing. -/
theorem of_local (h : Inv cap s tr) {pc : Subscriber.PollPc} {e : Subscriber.Event size}
    (hslots : slots (tr ++ [e]) = slots tr) (he : e.delivered? = [])
    (hnumbers : (ledger (tr ++ [e])).numbers = (ledger tr).numbers)
    (hreset : resetSinceDelivery (tr ++ [e]) = resetSinceDelivery tr)
    (hpoll : PollOk { s with poll := pc } (tr ++ [e])) :
    Inv cap { s with poll := pc } (tr ++ [e]) :=
  h.of_quiet (by rw [hslots]; exact h.slot) rfl rfl (by rw [hslots])
    (by rw [hslots]) hnumbers he hreset rfl hpoll

/-- A step of `try_read`, its call included, with where the subscriber is then. -/
theorem of_read (h : Inv cap s tr) {l : ReadLabel size} {slot' : State size} {e : Event size}
    {pc : Subscriber.PollPc} {value : Payload size}
    (hs : Latest.step cap s.slot (.reader 0 l) = some (slot', e))
    (hpoll : PollOk { s with slot := slot', poll := pc, value := value } (tr ++ [.slot e])) :
    Inv cap { s with slot := slot', poll := pc, value := value } (tr ++ [.slot e]) := by
  have hslots : slots (tr ++ [.slot e]) = slots tr ++ [e] := Subscriber.slots_append _ _
  obtain ⟨hslot, hwriters, hmem⟩ := masked_other h.slot (by rintro i l' ⟨⟩) hs
  obtain ⟨pc', re, -, rfl, rfl⟩ := step_reader hs
  refine h.of_quiet (by rw [hslots]; exact hslot) hwriters hmem ?_ ?_ ?_ rfl
    (by rw [resetSinceDelivery_append]) rfl hpoll
  · rw [hslots, past_append]
    rfl
  · rw [hslots, committed_append]
    exact List.append_nil _
  · rw [Subscriber.ledger_append]
    cases re with
    | returned res out => cases res <;> rfl
    | _ => rfl

/-- The start of an iteration. -/
theorem call (h : Inv cap s tr) {slot' : State size} {e : Event size}
    (hs : Latest.step cap s.slot (.reader 0 (.call (Subscriber.readCall threshold s.value))) =
      some (slot', e)) :
    Inv cap { s with slot := slot', poll := .reading } (tr ++ [.slot e]) := by
  refine h.of_read hs ?_
  obtain ⟨pc, re, hstep, rfl, rfl⟩ := step_reader hs
  generalize s.slot.readers 0 = pc₀ at hstep
  cases pc₀ with
  | idle =>
    cases hstep
    have hreader : Function.update s.slot.readers 0
        (.enter (Subscriber.readCall threshold s.value)) 0 =
          .initial (Subscriber.readCall threshold s.value) := Function.update_self _ _ _
    refine ⟨by rw [Subscriber.log_append]; rfl, ?_, fun hc => ?_⟩
    · dsimp only
      rw [hreader]
      trivial
    · dsimp only at hc
      rw [hreader] at hc
      cases hc
  | _ => cases hstep

/-- A step inside `try_read`. Nobody moves between the loads of `s1` and `s2`, so one that succeeds
has read the newest write. -/
theorem read_step (h : Inv cap s tr) (hreading : s.poll = .reading) {slot' : State size}
    {e : Event size} (hs : Latest.step cap s.slot (.reader 0 .run) = some (slot', e)) :
    Inv cap { s with slot := slot', poll := .after e, value := Subscriber.valueAfter s.value e }
      (tr ++ [.slot e]) := by
  refine h.of_read hs ?_
  have hpoll := h.poll
  rw [PollOk, hreading] at hpoll
  obtain ⟨hfail, hbegun, hunreset⟩ := hpoll
  have hslots : slots (tr ++ [.slot e]) = slots tr ++ [e] := Subscriber.slots_append _ _
  obtain ⟨pc, re, hstep, rfl, rfl⟩ := step_reader hs
  have hreader : Function.update s.slot.readers 0 pc 0 = pc := Function.update_self _ _ _
  generalize hpc : s.slot.readers 0 = pc₀ at hstep hbegun hunreset
  have hfail' : (∀ out, re ≠ .returned .success out) → re ≠ .called →
      (Subscriber.log (tr ++ [.slot (.reader 0 re)])).success = false := by
    intro hre hcall
    rw [Subscriber.log_append]
    cases re with
    | returned res out =>
      cases res with
      | success => exact absurd rfl (hre out)
      | _ => exact hfail
    | called => exact absurd rfl hcall
    | _ => exact hfail
  have hon : (∀ res out, re ≠ .returned res out) → re ≠ .called →
      PollOk { s with
        slot := { s.slot with readers := Function.update s.slot.readers 0 pc }
        poll := .reading
        value := Subscriber.valueAfter s.value (.reader 0 re) } (tr ++ [.slot (.reader 0 re)]) := by
    intro hre hcall
    refine ⟨hfail' (hre _) hcall, ?_, fun hc => ?_⟩
    · change Begun s.slot.mem (Function.update s.slot.readers 0 pc 0)
      rw [hreader]
      exact hbegun.step hstep hre
    · change copies (Function.update s.slot.readers 0 pc 0) = true at hc
      rw [hreader] at hc
      rw [hslots, resetSince_append]
      rcases copies_step hstep hc with rfl | hold
      · exact if_pos rfl
      · cases re with
        | loadedS1 => exact if_pos rfl
        | _ => exact hunreset hold
  have hend : pc = .idle → (∀ out, re ≠ .returned .success out) → re ≠ .called →
      PollOk { s with
        slot := { s.slot with readers := Function.update s.slot.readers 0 pc }
        poll := .sleeping
        value := Subscriber.valueAfter s.value (.reader 0 re) } (tr ++ [.slot (.reader 0 re)]) := by
    intro hidle hre hcall
    refine ⟨hreader.trans hidle, fun _ hsucc => ?_⟩
    rw [hfail' hre hcall] at hsucc
    cases hsucc
  cases ReadPc.step_cases hstep with
  | call c => cases hstep
  | empty c hzero => exact hend rfl (by rintro _ ⟨⟩) (by rintro ⟨⟩)
  | contended c i out hi => exact hend rfl (by rintro _ ⟨⟩) (by rintro ⟨⟩)
  | dead c t i hb out hdead => exact hend rfl (by rintro _ ⟨⟩) (by rintro ⟨⟩)
  | success c i s1 out hs1 =>
    obtain ⟨hout, hcount⟩ := h.slot.validated hpc hs1.symm (hunreset rfl)
    have hlen : out.length = size := by
      rw [hout]
      exact h.slot.length
    have hpos : 0 < s.slot.mem.control.sequence := hbegun
    have hcommitted : committed (slots tr ++ [.reader 0 (.returned .success out)]) =
        committed (slots tr) := (committed_append _ _).trans (List.append_nil _)
    refine ⟨hreader, ?_, ?_, ?_, ?_⟩
    · rw [hslots, past_append]
      change 0 < (past (slots tr)).commits
      omega
    · rw [hslots, past_append]
      change s.slot.mem.control.sequence = 2 * (past (slots tr)).commits
      omega
    · rw [hslots, past_append]
      exact (Subscriber.toPayload_val hlen).trans hout
    · rw [hslots, hcommitted, Subscriber.ledger_append, ← Subscriber.ledger_commits]
      rfl
  | _ => exact hon (by rintro _ _ ⟨⟩) (by rintro ⟨⟩)

/-- A delivery, of the newest write. -/
theorem deliver (h : Inv cap s tr) (hpc : s.poll = .loadSequence) :
    Inv cap { s with poll := .sleeping, lastSeq := s.slot.mem.control.sequence }
      (tr ++ [.delivered s.value.1]) := by
  have hpoll := h.poll
  rw [PollOk, hpc] at hpoll
  obtain ⟨hidle, hpos, hseq, hvalue, hreading⟩ := hpoll
  have hle := h.commits_le
  have hslots : slots (tr ++ [.delivered s.value.1]) = slots tr := by
    simp [Subscriber.Event.slot?]
  have hnumbers : (ledger (tr ++ [.delivered s.value.1])).numbers =
      (ledger tr).numbers ++ [(committed (slots tr)).length] := by
    rw [Subscriber.ledger_append, ← hreading]
    rfl
  have hmem : (committed (slots tr)).length ∈ (ledger (tr ++ [.delivered s.value.1])).numbers := by
    rw [hnumbers]
    exact List.mem_append_right _ (List.mem_singleton_self _)
  refine ⟨by rw [hslots]; exact h.slot, h.odd, by rw [hslots]; exact h.newest,
    by rw [hslots]; exact hle, h.delivered.deliver ?_ ?_, fun _ _ => ⟨_, hmem, ?_⟩,
    hidle, fun _ _ => ?_⟩
  · omega
  · rw [hreading, hvalue]
    exact h.newest hpos
  · rw [hslots]
    change _ = _ + s.slot.mem.control.sequence
    omega
  · rw [hslots]
    exact ⟨by omega, hmem⟩

/-- Nothing is delivered: the sequence is the one noted last and has not been reset since, so the
newest write has been delivered. -/
theorem unchanged (h : Inv cap s tr) (hpc : s.poll = .loadSequence)
    (hold : s.slot.mem.control.sequence = s.lastSeq) (hunreset : resetSinceDelivery tr = false) :
    Inv cap { s with poll := .sleeping } (tr ++ [.unchanged]) := by
  have hpoll := h.poll
  rw [PollOk, hpc] at hpoll
  obtain ⟨hidle, hpos, hseq, -, -⟩ := hpoll
  have hle := h.commits_le
  have hslots : slots (tr ++ [.unchanged]) = slots tr := by simp [Subscriber.Event.slot?]
  have hnumbers : (ledger (tr ++ [.unchanged])).numbers = (ledger tr).numbers := by
    rw [Subscriber.ledger_append]
    rfl
  obtain ⟨k, hk, heq⟩ := h.last hunreset (by omega)
  refine h.of_local hslots rfl hnumbers (by rw [resetSinceDelivery_append]) ⟨hidle, fun _ _ => ?_⟩
  obtain rfl : k = (committed (slots tr)).length := by omega
  rw [hslots, hnumbers]
  exact ⟨by omega, hk⟩

/-- Every step of the subscriber keeps the invariant. -/
theorem poll_step (h : Inv cap s tr) {e : Subscriber.Event size}
    (hguard : loadsUnreset s tr .poll) (hs : PollStep cap threshold s s' e) :
    Inv cap s' (tr ++ [e]) := by
  cases hs with
  | call slot' e hpc hstep => exact h.call hstep
  | read slot' e hpc hstep => exact h.read_step hpc hstep
  | deliver hpc hnew => exact h.deliver hpc
  | unchanged hpc hold => exact h.unchanged hpc hold (hguard rfl hpc hold)
  | exit hpc =>
    exact h.of_local (by simp [Subscriber.Event.slot?]) rfl (by rw [Subscriber.ledger_append]; rfl)
      (by rw [resetSinceDelivery_append]) trivial
  | sleep hpc =>
    have hpoll := h.poll
    rw [PollOk, hpc] at hpoll
    exact h.of_local (by simp [Subscriber.Event.slot?]) rfl (by rw [Subscriber.ledger_append]; rfl)
      (by rw [resetSinceDelivery_append]) hpoll.1

/-- Every step of a run that keeps to the conditions keeps the invariant. -/
theorem step (h : Inv cap s tr) (hcap : size ≤ cap) {l : Label size} {e : Subscriber.Event size}
    (hguard : sequential s tr l) (hs : Following.step cap threshold s l = some (s', e))
    (hlt : begun (slots (tr ++ [e])) < 2^63) : Inv cap s' (tr ++ [e]) := by
  obtain ⟨hapart, heven, hloads⟩ := hguard
  cases l with
  | writer i l =>
    obtain ⟨⟨slot', se⟩, hstep, heq⟩ := Option.map_eq_some_iff.mp hs
    cases heq
    exact h.writer_step hcap hapart heven hstep (by rw [Subscriber.slots_append] at hlt; exact hlt)
  | tick d =>
    cases hs
    exact h.tick d
  | poll => exact h.poll_step hloads (Subscriber.pollStep_cases hs)
  | stop =>
    cases hs
    exact h.stop

/-- The initial state. -/
theorem fresh (cap start : ℕ) (value : Payload size) :
    Inv cap ⟨⟨Shared.fresh, start, creator, fun _ => .idle⟩, .top, 0, value, true⟩ [] := by
  have hmasked : masked (⟨Shared.fresh, start, creator, fun _ => .idle⟩ : State size) =
      { (⟨Shared.fresh, start, creator, fun _ => .idle⟩ : State size) with
        writers := Function.update creator 0 .gone } := by
    unfold masked
    congr 1
    funext i
    by_cases hi : i = 0
    · subst hi
      rfl
    · dsimp only
      rw [Function.update_of_ne hi, creator, Function.update_of_ne hi]
      rfl
  refine ⟨?_, fun i hi => ?_, fun hpos => ?_, le_rfl, .nil, fun _ hpos => ?_, rfl⟩
  · rw [hmasked]
    exact inv_without (Latest.Inv.fresh cap start) 0
  · have hin := inCall_of_judges hi
    by_cases hzero : i = 0
    · subst hzero
      cases hin
    · dsimp only at hin
      rw [creator, Function.update_of_ne hzero] at hin
      cases hin
  · exact absurd hpos (lt_irrefl 0)
  · exact absurd hpos (lt_irrefl 0)

end Inv

/-- A subscriber follows the topic across recoveries. In every run whose calls do not overlap, in
which nobody writes over an unfinished write, and in which the subscriber finds the sequence noted
last only where it has not been reset since, with fewer than `2^63` writes begun: at the end of an
iteration whose `try_read` has succeeded, the newest write is among those delivered. What is
delivered under a number is the value of the write that has it. -/
theorem follows {mapping : Mapping} {start threshold : ℕ} {s : Subscriber.State size}
    {tr : List (Subscriber.Event size)} (hcreate : createMapping size kFlagLatest = .ok mapping)
    (hsize : size + 7 < 2^64) (hrun : (machine size mapping start threshold).Run sequential s tr)
    (hlt : begun (slots tr) < 2^63) (hend : s.poll = .sleeping)
    (hquiet : (Subscriber.log tr).quiet = true) (hsuccess : (Subscriber.log tr).success = true) :
    0 < (committed (slots tr)).length ∧
      (committed (slots tr)).length ∈ (ledger tr).numbers ∧
      List.Forall₂ (fun k v => 0 < k ∧ valueOf (slots tr) k = some v) (ledger tr).numbers
        (deliveries tr) := by
  have hinv : Inv mapping.capacity s tr := by
    refine hrun.invariant_of (fun tr => begun (slots tr) < 2^63) ?_ (Inv mapping.capacity) ?_ ?_ hlt
    · exact fun tr e hb => Subscriber.begun_slots_lt hb
    · simp only [machine, Subscriber.machine, Latest.machine, createMapping_shared hcreate]
      exact Inv.fresh _ _ _
    · exact fun s tr l s' e hguard hb hinv hs =>
        hinv.step (size_le_capacity hcreate hsize) hguard hs hb
  have hpoll := hinv.poll
  rw [PollOk, hend] at hpoll
  obtain ⟨hpos, hmem⟩ := hpoll.2 hquiet hsuccess
  exact ⟨hpos, hmem, hinv.delivered⟩

/-! ## Schedules with recovery -/

/-- `apart` and `writesEven`, as a test for runs in which only processes 0 and 1 ever move. -/
def apartTest (s : Subscriber.State size) : Label size → Bool
  | .writer i l => decide (i < 2) && !inCall (s.slot.writers (1 - i)) && !inIteration s.poll &&
    match l with
    | .write _ _ => s.slot.mem.control.sequence % 2 == 0
    | _ => true
  | .poll => !inCall (s.slot.writers 0) && !inCall (s.slot.writers 1)
  | _ => true

/-- Where the other processes are outside of every call, the test is sound. -/
theorem apart_of_test {s : Subscriber.State size} {l : Label size}
    (hout : ∀ j, 2 ≤ j → inCall (s.slot.writers j) = false) (h : apartTest s l = true) :
    apart s l ∧ writesEven s l := by
  cases l with
  | writer i l =>
    simp only [apartTest, Bool.and_eq_true, decide_eq_true_eq, Bool.not_eq_true'] at h
    obtain ⟨⟨⟨hi, hother⟩, hpoll⟩, hwrite⟩ := h
    refine ⟨⟨fun j hj => ?_, hpoll⟩, ?_⟩
    · by_cases hlt : j < 2
      · obtain rfl : j = 1 - i := by omega
        exact hother
      · exact hout j (by omega)
    · cases l with
      | write v notify => exact beq_iff_eq.mp hwrite
      | _ => trivial
  | poll =>
    simp only [apartTest, Bool.and_eq_true, Bool.not_eq_true'] at h
    refine ⟨fun j => ?_, trivial⟩
    match j with
    | 0 => exact h.1
    | 1 => exact h.2
    | j + 2 => exact hout _ (Nat.le_add_left 2 j)
  | _ => exact ⟨trivial, trivial⟩

/-- A schedule that passes the tests is a run whose calls do not overlap. -/
theorem exists_apart_run (mapping : Mapping) (start threshold : ℕ)
    {R : Subscriber.State size → List (Subscriber.Event size) → Label size → Prop}
    (g : Subscriber.State size → List (Subscriber.Event size) → Label size → Bool)
    (hg : ∀ s tr l, g s tr l = true → R s tr l) (ls : List (Label size))
    (p : Subscriber.State size → List (Subscriber.Event size) → Bool)
    (h : (((machine size mapping start threshold).exec (fun s tr l => apartTest s l && g s tr l)
      (machine size mapping start threshold).init [] ls).any fun x => p x.1 x.2) = true) :
    ∃ s tr, (machine size mapping start threshold).Run
      (fun s tr l => apart s l ∧ writesEven s l ∧ R s tr l) s tr ∧ p s tr = true := by
  obtain ⟨s, tr, hrun, hp⟩ :=
    (machine size mapping start threshold).exists_run _ (fun _ _ _ h => h) ls p h
  -- Along with the run: the other processes never move.
  refine ⟨s, tr, hrun.mono_of (fun s => ∀ j, 2 ≤ j → inCall (s.slot.writers j) = false) ?_ ?_ ?_,
    hp⟩
  · intro j hj
    change inCall (creator j : WriterPc size) = false
    rw [creator, Function.update_of_ne (by omega)]
    rfl
  · rintro s tr l s' e htest hout hs
    obtain ⟨hapart, -⟩ := Bool.and_eq_true_iff.mp htest
    change step mapping.capacity threshold s l = _ at hs
    cases l with
    | writer i l =>
      obtain ⟨⟨slot', se⟩, hstep, heq⟩ := Option.map_eq_some_iff.mp hs
      cases heq
      obtain ⟨eff, pc, we, -, rfl, -⟩ := step_writer hstep
      simp only [apartTest, Bool.and_eq_true, decide_eq_true_eq] at hapart
      intro j hj
      change inCall (Function.update s.slot.writers i pc j) = false
      rw [Function.update_of_ne (by omega)]
      exact hout j hj
    | tick d =>
      cases hs
      exact hout
    | stop =>
      cases hs
      exact hout
    | poll =>
      cases Subscriber.pollStep_cases hs with
      | call slot' e hpc hstep =>
        obtain ⟨pc, re, -, rfl, -⟩ := step_reader hstep
        exact hout
      | read slot' e hpc hstep =>
        obtain ⟨pc, re, -, rfl, -⟩ := step_reader hstep
        exact hout
      | _ => exact hout
  · intro s tr l hout htest
    obtain ⟨hapart, hr⟩ := Bool.and_eq_true_iff.mp htest
    obtain ⟨h1, h2⟩ := apart_of_test hout hapart
    exact ⟨h1, h2, hg _ _ _ hr⟩

/-- `loadsUnreset`, as a test. -/
def unresetTest (s : Subscriber.State size) (tr : List (Subscriber.Event size)) : Label size → Bool
  | .poll => s.poll != .loadSequence || s.slot.mem.control.sequence != s.lastSeq ||
      !resetSinceDelivery tr
  | _ => true

/-- The test is sound. -/
theorem loadsUnreset_of_test (s : Subscriber.State size) (tr : List (Subscriber.Event size))
    (l : Label size) (h : unresetTest s tr l = true) : loadsUnreset s tr l := by
  rintro rfl hpc hseq
  simpa [unresetTest, hpc, hseq] using h

/-- Process `i` completes a write of one byte. -/
def writeBy (i : ℕ) (x : UInt8) : List (Label 1) := (completeWrite (oneByte x)).map (.writer i)

/-- An iteration up to its end, that finds one byte, and the sleep behind it. -/
def iterate : List (Label 1) := List.replicate 7 .poll

/-- The creator dies in a write, and some time later process 1 recovers the slot. -/
def succession : List (Label 1) :=
  (dieWriting (oneByte 2)).map (.writer 0) ++ [.tick 10] ++ (recover 5).map (.writer 1)

/-- The creator's value is delivered, and then the second one of the process that has recovered the
slot. -/
theorem follows_secondWrite : ∃ mapping s tr, createMapping 1 kFlagLatest = .ok mapping ∧
    (machine 1 mapping 1 5).Run sequential s tr ∧ begun (slots tr) < 2^63 ∧ s.poll = .sleeping ∧
    (Subscriber.log tr).quiet = true ∧ (Subscriber.log tr).success = true ∧
    committed (slots tr) = [[1], [3], [4]] ∧ deliveries tr = [[1], [4]] ∧
    (committed (slots tr)).length ∈ (ledger tr).numbers := by
  obtain ⟨mapping, hmap⟩ : ∃ mapping, createMapping 1 kFlagLatest = .ok mapping := ⟨_, rfl⟩
  obtain ⟨s, tr, hrun, htest⟩ := exists_apart_run mapping 1 5 unresetTest loadsUnreset_of_test
    (writeBy 0 1 ++ iterate ++ [.poll] ++ succession ++ writeBy 1 3 ++ writeBy 1 4 ++
      iterate)
    (fun s tr => decide (begun (slots tr) < 2^63 ∧ s.poll = .sleeping ∧
      (Subscriber.log tr).quiet = true ∧ (Subscriber.log tr).success = true ∧
      committed (slots tr) = [[1], [3], [4]] ∧ deliveries tr = [[1], [4]]))
    (by cases hmap; decide +kernel)
  obtain ⟨hlt, hend, hquiet, hsuccess, hcommitted, hdeliveries⟩ := of_decide_eq_true htest
  exact ⟨mapping, s, tr, hmap, hrun, hlt, hend, hquiet, hsuccess, hcommitted, hdeliveries,
    (follows hmap (by decide) hrun hlt hend hquiet hsuccess).2.1⟩

/-- The creator's value is delivered. Then the creator dies in its second write, and process 1
recovers the slot and completes one write, with which the sequence is again the one that the
subscriber has noted. The next iteration reads the new value and does not deliver it. -/
theorem missed_write : ∃ mapping s tr, createMapping 1 kFlagLatest = .ok mapping ∧
    (machine 1 mapping 1 5).Run (fun s _ l => apart s l ∧ writesEven s l) s tr ∧
    begun (slots tr) < 2^63 ∧ s.poll = .sleeping ∧ (Subscriber.log tr).quiet = true ∧
    (Subscriber.log tr).success = true ∧ committed (slots tr) = [[1], [3]] ∧
    deliveries tr = [[1]] := by
  obtain ⟨mapping, hmap⟩ : ∃ mapping, createMapping 1 kFlagLatest = .ok mapping := ⟨_, rfl⟩
  obtain ⟨s, tr, hrun, htest⟩ := exists_apart_run mapping 1 5 (fun _ _ _ => true)
    (fun _ _ _ _ => trivial)
    (writeBy 0 1 ++ iterate ++ [.poll] ++ succession ++ writeBy 1 3 ++ iterate)
    (fun s tr => decide (begun (slots tr) < 2^63 ∧ s.poll = .sleeping ∧
      (Subscriber.log tr).quiet = true ∧ (Subscriber.log tr).success = true ∧
      committed (slots tr) = [[1], [3]] ∧ deliveries tr = [[1]]))
    (by cases hmap; decide +kernel)
  have hapart := hrun.mono_of (fun _ => True) trivial (fun _ _ _ _ _ _ _ _ => trivial)
    (fun _ _ _ _ h => And.intro h.1 h.2.1)
  exact ⟨mapping, s, tr, hmap, hapart, of_decide_eq_true htest⟩

end LfRing.Latest.Following

import Mathlib.Data.List.Induction
import LfRing.Latest.Slot

/-!
# Reads across recovery

A claim that recovers the slot from a dead writer clears the ring and resets the sequence to zero
while readers may be anywhere in `try_read`. Two things follow that the seqlock does not expect.

- Zero is even, and in the retry loop nobody asks again whether anything was written. A reader that
  has found the dead writer's odd sequence and tries again after the reset copies the zero fill
  between two loads of zero and returns `kSuccess` (`zeroFill_success`).
- The sequence counts from zero again, and comes to a value it has had before. A reader that loads
  `s1` before the crash and `s2` after the new writer's first writes may find the same number, with
  bytes of both writers in its copy (`torn`).

Where no reset falls between a reader's two loads, a read returns one content of the ring
(`untorn`). A call with a threshold asks at its start whether anything was written, and what it has
found stays true until a reset. So it returns a committed value if, besides, it loads no `s1` behind
a reset that came after its start and that no write has followed (`success_committed`). What is
proved by induction is that such a reader finds the sequence not zero at each of its loads
(`ReadPc.Nonempty`).

The premises on processes are those of the slot's invariant (`orderly`): one live writer at a time,
and a recovering claim finds the sequence still odd when it wins its exchange of the heartbeat.
`claim` does not look at the sequence again then.
-/

namespace LfRing.Latest

variable {size : ℕ}

/-- Processes take the slot over as they should. -/
def orderly (s : State size) (tr : List (Event size)) (l : Label size) : Prop :=
  soleWriter s tr l ∧ recoversOdd s tr l

/-- A reader whose `s2` is its `s1` has seen no reset between the two loads. -/
def unresetReads (s : State size) (tr : List (Event size)) (l : Label size) : Prop :=
  ∀ i c k s1 out, l = .reader i .run → s.readers i = .loadS2 c k s1 out →
    s.mem.control.sequence = s1 → resetSince i tr = false

/-- Whether the sequence has been reset since reader `i` last called `try_read`, with no write begun
since the reset. -/
def emptied (i : ℕ) (tr : List (Event size)) : Bool :=
  tr.foldl (fun since e => match e with
    | .writer _ .reset => true
    | .writer _ (.begun _) => false
    | .reader j .called => if j = i then false else since
    | _ => since) false

/-- No reader loads `s1` behind a reset that came after the start of its call, unless a write has
begun since. -/
def writtenSince (s : State size) (tr : List (Event size)) (l : Label size) : Prop :=
  ∀ i c k out, l = .reader i .run → s.readers i = .loadS1 c k out → emptied i tr = false

/-- Every call is one of the overload with a threshold. -/
def timedReads (_ : State size) (_ : List (Event size)) (l : Label size) : Prop :=
  ∀ i c, l = .reader i (.call c) → c.threshold ≠ none

/-- What a read that succeeds has returned. -/
def Event.success? : Event size → List (List UInt8)
  | .reader _ (.returned .success out) => [out]
  | _ => []

/-- What the reads that have succeeded have returned, in order. -/
def successes (tr : List (Event size)) : List (List UInt8) := tr.flatMap Event.success?

/-- The last stable content is the zero fill until a write is committed, and a committed value
then. -/
theorem content_cases (tr : List (Event size)) :
    ((past tr).commits = 0 ∧ (past tr).content = zeroFill size) ∨
      0 < (past tr).commits ∧ (past tr).content ∈ committed tr := by
  induction tr using List.reverseRecOn with
  | nil => exact Or.inl ⟨rfl, rfl⟩
  | append_singleton tr e ih =>
    -- Only commits and resets change the content, and what is committed stays committed.
    have hsame : (past tr).next size e = past tr →
        ((past (tr ++ [e])).commits = 0 ∧ (past (tr ++ [e])).content = zeroFill size) ∨
          0 < (past (tr ++ [e])).commits ∧ (past (tr ++ [e])).content ∈ committed (tr ++ [e]) := by
      intro heq
      rw [past_append, heq, committed_append]
      exact ih.imp_right fun h => ⟨h.1, List.mem_append_left _ h.2⟩
    cases e with
    | tick => exact hsame rfl
    | reader i re => exact hsame rfl
    | writer i we =>
      cases we with
      | committed v =>
        rw [past_append, committed_append]
        exact Or.inr ⟨Nat.succ_pos _, List.mem_append_right _ (List.mem_singleton.mpr rfl)⟩
      | reset =>
        rw [past_append]
        exact Or.inl ⟨rfl, rfl⟩
      | _ => exact hsame rfl

/-- The ring of a created slot has room for the value. -/
theorem size_le_capacity {mapping : Mapping} (h : createMapping size kFlagLatest = .ok mapping)
    (hsize : size + 7 < 2^64) : size ≤ mapping.capacity := by
  unfold createMapping at h
  split at h
  · cases h
  · cases h
    change size ≤ alignUp size kAlignment
    rw [alignUp_kAlignment hsize]
    omega

section Reads

variable {mapping : Mapping} {start : ℕ} {s s' : State size} {tr pre post : List (Event size)}
  {ok : State size → List (Event size) → Label size → Prop}

/-- What a read that succeeds has found, if no reset came between its loads: the last stable
content, and in `s1` twice the writes committed since the sequence started from zero. -/
theorem success_spec (hcreate : createMapping size kFlagLatest = .ok mapping)
    (hsize : size + 7 < 2^64) (hok : ∀ s tr l, ok s tr l → orderly s tr l)
    (hrun : (machine size mapping start).Run ok s tr) (hlt : begun tr < 2^63) {l : Label size}
    {i : ℕ} {out : List UInt8} (hread : unresetReads s tr l)
    (hs : (machine size mapping start).step s l = some (s', .reader i (.returned .success out))) :
    ∃ c k s1, l = .reader i .run ∧ s.readers i = .loadS2 c k s1 out ∧
      s.mem.control.sequence = s1 ∧ out = (past tr).content ∧ s1 = 2 * (past tr).commits := by
  have hinv := inv_of_run (createMapping_shared hcreate) (fun s tr l h =>
    ⟨(hok s tr l h).1, (hok s tr l h).2, Or.inl (size_le_capacity hcreate hsize)⟩) hrun hlt
  change step mapping.capacity s l = _ at hs
  cases l with
  | tick d => cases hs
  | writer j l =>
    obtain ⟨eff, pc, we, -, -, heq⟩ := step_writer hs
    cases heq
  | reader j l =>
    obtain ⟨pc, re, hstep, -, heq⟩ := step_reader hs
    obtain ⟨rfl, rfl⟩ := Event.reader.inj heq
    generalize hpc : s.readers i = pc₀ at hstep
    cases ReadPc.step_cases hstep with
    | success c k s1 out hs1 =>
      obtain rfl := ReadPc.label_of_step (by rintro ⟨⟩) hstep
      have hreset := hread i c k s1 out rfl hpc hs1.symm
      obtain ⟨hout, hcount⟩ := hinv.validated hpc hs1.symm hreset
      exact ⟨c, k, s1, rfl, rfl, hs1.symm, hout, hcount⟩

/-- An earlier part of a run has begun no more writes. -/
theorem begun_prefix_le {e : Event size} (h : tr = pre ++ e :: post) : begun pre ≤ begun tr := by
  rw [h]
  simp [begun]

end Reads

/-- Every read that succeeds, by either overload, has returned one content of the ring: the zero
fill or a value that was committed before. This holds in every run in which processes take the slot
over as they should and no reader whose loads of the sequence agree has seen a reset between them,
with fewer than `2^63` writes begun. -/
theorem untorn {mapping : Mapping} {start : ℕ} {s : State size} {tr : List (Event size)}
    (hcreate : createMapping size kFlagLatest = .ok mapping) (hsize : size + 7 < 2^64)
    (hrun : (machine size mapping start).Run
      (fun s tr l => orderly s tr l ∧ unresetReads s tr l) s tr)
    (hlt : begun tr < 2^63) :
    ∀ pre post i out, tr = pre ++ .reader i (.returned .success out) :: post →
      out = zeroFill size ∨ out ∈ committed pre := by
  intro pre post i out htr
  refine hrun.event (fun pre e => begun pre < 2^63 →
    ∀ i out, e = .reader i (.returned .success out) →
    out = zeroFill size ∨ out ∈ committed pre) ?_ htr
    (lt_of_le_of_lt (begun_prefix_le htr) hlt) i out rfl
  rintro s tr l s' e hpre ⟨-, hread⟩ hs hlt' i out rfl
  obtain ⟨c, k, s1, -, -, -, hout, -⟩ :=
    success_spec hcreate hsize (fun _ _ _ h => h.1) hpre hlt' hread hs
  rw [hout]
  rcases content_cases tr with ⟨-, hzero⟩ | ⟨-, hmem⟩
  · exact Or.inl hzero
  · exact Or.inr hmem

/-! ## A call that has found something written -/

/-- A reader behind the test whether anything was written. Unless the sequence has been reset in the
call, it is not zero, and neither was it when `s1` was loaded. -/
def ReadPc.Nonempty (seq : ℕ) (since : Bool) : ReadPc size → Prop
  | idle => True
  | initial _ => True
  | copy _ _ s1 _ _ => s1 ≠ 0 ∧ (since = false → seq ≠ 0)
  | loadS2 _ _ s1 _ => s1 ≠ 0 ∧ (since = false → seq ≠ 0)
  | _ => since = false → seq ≠ 0

/-- What such a reader has found stays true through the steps of others. -/
theorem ReadPc.Nonempty.transfer {seq seq' : ℕ} {since since' : Bool} {pc : ReadPc size}
    (h : pc.Nonempty seq since)
    (hseq : (since = false → seq ≠ 0) → since' = false → seq' ≠ 0) : pc.Nonempty seq' since' := by
  cases pc with
  | idle => trivial
  | initial c => trivial
  | copy c i s1 j out => exact ⟨h.1, hseq h.2⟩
  | loadS2 c i s1 out => exact ⟨h.1, hseq h.2⟩
  | _ => exact hseq h

/-- A step of the reader itself, in a call with a threshold. It leaves its first load with a
sequence that is not zero, and it loads such a sequence again unless there was a reset. -/
theorem ReadPc.Nonempty.step {m : Shared} {now : ℕ} {since since' : Bool} {pc pc' : ReadPc size}
    {l : ReadLabel size} {e : ReadEvent} (h : pc.Nonempty m.control.sequence since)
    (htimed : ∀ c, l = .call c → c.threshold ≠ none)
    (hload : ∀ c k out, l = .run → pc = .loadS1 c k out → since = false)
    (hs : pc.step m now l = some (pc', e)) (hsince : e = .called ∨ since' = since) :
    pc'.Nonempty m.control.sequence since' := by
  have hcopying : ∀ (c : ReadCall size) i s1 j out, s1 ≠ 0 →
      (since = false → m.control.sequence ≠ 0) →
      (copying c i s1 j out).Nonempty m.control.sequence since := fun _ _ _ j _ hs1 hseq =>
    copying_ind (P := fun pc => pc.Nonempty m.control.sequence since)
      (fun _ => ⟨hs1, hseq⟩) ⟨hs1, hseq⟩ j
  cases l with
  | call c =>
    cases pc with
    | idle =>
      cases hs
      unfold enter
      -- The overload without a threshold does not test whether anything was written.
      split
      · trivial
      · exact absurd ‹_› (htimed c rfl)
    | _ => cases hs
  | run =>
    obtain rfl : since' = since := by
      refine hsince.resolve_left ?_
      rintro rfl
      cases step_cases hs with
      | call c => cases hs
    cases step_cases hs with
    | call c => cases hs
    | nonempty c hne => exact fun _ => hne
    | loadS1 c i out =>
      unfold examine
      split_ifs
      · exact hcopying _ _ _ _ _ (h (hload c i out rfl rfl)) h
      · exact spin_ind (P := fun pc => pc.Nonempty m.control.sequence since') (fun _ => h) h
    | copy c i s1 j out => exact hcopying _ _ _ _ _ h.1 h.2
    | changed c i s1 out hne => exact h.2
    | _ => first | exact h | trivial

/-- The history of one more event. -/
theorem emptied_append (i : ℕ) (tr : List (Event size)) (e : Event size) :
    emptied i (tr ++ [e]) = match e with
      | .writer _ .reset => true
      | .writer _ (.begun _) => false
      | .reader j .called => if j = i then false else emptied i tr
      | _ => emptied i tr := by
  simp only [emptied, List.foldl_append, List.foldl_cons, List.foldl_nil]

/-- A step of a process leaves a sequence that is not zero, unless it resets it. -/
theorem Inv.nonempty_writer {cap i j : ℕ} {s : State size} {tr : List (Event size)}
    (h : Inv cap s tr) {l : WriterLabel size} {eff : Effect} {pc' : WriterPc size}
    {e : WriterEvent size}
    (hs : (s.writers i).step cap s.mem (u64 s.clock) l = some (eff, pc', e))
    (hlt : begun (tr ++ [.writer i e]) < 2^63)
    (hseq : emptied j tr = false → s.mem.control.sequence ≠ 0)
    (hsince : emptied j (tr ++ [.writer i e]) = false) :
    (eff.apply s.mem).control.sequence ≠ 0 := by
  rw [emptied_append] at hsince
  cases e with
  | reset => cases hsince
  | begun v => exact Nat.ne_of_gt ((h.sequence_le hs (by rintro ⟨⟩) hlt).2 v rfl)
  | _ =>
    have hle := (h.sequence_le hs (by rintro ⟨⟩) hlt).1
    have hne := hseq hsince
    omega

/-- A reader's own event starts its call, or leaves what has happened since as it is. -/
theorem emptied_reader (i j : ℕ) (tr : List (Event size)) (e : ReadEvent) :
    j = i ∧ e = .called ∨ emptied i (tr ++ [.reader j e]) = emptied i tr := by
  rw [emptied_append]
  cases e with
  | called =>
    by_cases hj : j = i
    · exact Or.inl ⟨hj, rfl⟩
    · exact Or.inr (if_neg hj)
  | _ => exact Or.inr rfl

/-- In every run of calls with a threshold that load no `s1` behind a reset, readers behind their
first load have found something written. -/
theorem nonempty_of_run {mapping : Mapping} {start : ℕ} {s : State size} {tr : List (Event size)}
    {ok : State size → List (Event size) → Label size → Prop}
    (hcreate : createMapping size kFlagLatest = .ok mapping) (hsize : size + 7 < 2^64)
    (hok : ∀ s tr l, ok s tr l → orderly s tr l ∧ timedReads s tr l ∧ writtenSince s tr l)
    (hrun : (machine size mapping start).Run ok s tr) (hlt : begun tr < 2^63) :
    ∀ i, (s.readers i).Nonempty s.mem.control.sequence (emptied i tr) := by
  have hcap := size_le_capacity hcreate hsize
  -- The slot's own invariant goes along: by it a write only makes the sequence larger.
  have hboth : Inv mapping.capacity s tr ∧
      ∀ i, (s.readers i).Nonempty s.mem.control.sequence (emptied i tr) := by
    refine hrun.invariant_of (fun tr => begun tr < 2^63) ?_ (fun s tr => Inv mapping.capacity s tr ∧
      ∀ i, (s.readers i).Nonempty s.mem.control.sequence (emptied i tr)) ?_ ?_ hlt
    · intro tr e hb
      rw [begun_append] at hb
      omega
    · simp only [machine, createMapping_shared hcreate]
      exact ⟨Inv.fresh _ _, fun _ => trivial⟩
    · rintro s tr l s' e hguard hb ⟨hinv, hread⟩ hs
      obtain ⟨⟨hsole, hrec⟩, htimed, hsince⟩ := hok s tr l hguard
      refine ⟨hinv.step hs hsole hrec (Or.inl hcap) hb, ?_⟩
      change Latest.step mapping.capacity s l = _ at hs
      cases l with
      | tick d =>
        cases hs
        exact fun i => (hread i).transfer fun hseq => by rwa [emptied_append]
      | writer i l =>
        obtain ⟨eff, pc, we, hstep, rfl, rfl⟩ := step_writer hs
        exact fun j => (hread j).transfer (hinv.nonempty_writer hstep hb)
      | reader i l =>
        obtain ⟨pc, re, hstep, rfl, rfl⟩ := step_reader hs
        refine (Function.forall_update_iff s.readers fun j pc =>
          pc.Nonempty s.mem.control.sequence (emptied j (tr ++ [.reader i re]))).mpr ⟨?_, ?_⟩
        · exact (hread i).step (fun c hl => htimed i c (by rw [hl]))
            (fun c k out hl hpc => hsince i c k out (by rw [hl]) hpc) hstep
            ((emptied_reader i i tr re).imp_left And.right)
        · intro j hj
          rcases emptied_reader j i tr re with ⟨hij, -⟩ | hsame
          · exact absurd hij.symm hj
          · rw [hsame]
            exact hread j
  exact hboth.2

/-- Every call with a threshold that succeeds has returned a value that was committed before, and
not the zero fill that `create` or a recovering claim has left. This holds in every run of such
calls in which processes take the slot over as they should, no reader whose loads of the sequence
agree has seen a reset between them, and none loads `s1` behind a reset that came after the start of
its call unless a write has begun since, with fewer than `2^63` writes begun. -/
theorem success_committed {mapping : Mapping} {start : ℕ} {s : State size} {tr : List (Event size)}
    (hcreate : createMapping size kFlagLatest = .ok mapping) (hsize : size + 7 < 2^64)
    (hrun : (machine size mapping start).Run (fun s tr l => orderly s tr l ∧ timedReads s tr l ∧
      unresetReads s tr l ∧ writtenSince s tr l) s tr)
    (hlt : begun tr < 2^63) :
    ∀ pre post i out, tr = pre ++ .reader i (.returned .success out) :: post →
      out ∈ committed pre := by
  intro pre post i out htr
  refine hrun.event (fun pre e => begun pre < 2^63 → ∀ i out,
    e = .reader i (.returned .success out) → out ∈ committed pre) ?_ htr
    (lt_of_le_of_lt (begun_prefix_le htr) hlt) i out rfl
  rintro s tr l s' e hpre ⟨-, -, hread, -⟩ hs hlt' i out rfl
  obtain ⟨c, k, s1, -, hpc, -, hout, hcount⟩ :=
    success_spec hcreate hsize (fun _ _ _ h => h.1) hpre hlt' hread hs
  have hne := nonempty_of_run hcreate hsize (fun _ _ _ h => ⟨h.1, h.2.1, h.2.2.2⟩) hpre hlt' i
  rw [hpc] at hne
  rw [hout]
  -- A sequence that is not zero counts at least one write.
  rcases content_cases tr with ⟨hnone, -⟩ | ⟨-, hmem⟩
  · exact absurd (by omega) hne.1
  · exact hmem

/-! ## Schedules with recovery -/

/-- `orderly`, as a test for runs in which only processes 0 and 1 ever write. -/
def orderlyTest (s : State size) : Label size → Bool
  | .writer i .run => decide (i < 2) &&
    match s.writers i with
    | .claimSequence _ => s.mem.control.sequence % 2 != 0 ||
        (!(s.writers 0).owns && !(s.writers 1).owns)
    | .claimExchange hb _ => s.mem.control.headReserve != hb ||
        (!(s.writers 0).owns && !(s.writers 1).owns && s.mem.control.sequence % 2 == 1)
    | _ => true
  | .writer i _ => decide (i < 2)
  | _ => true

/-- Where the other processes are not writers, the test is sound. -/
theorem orderly_of_test {s : State size} (tr : List (Event size)) {l : Label size}
    (hgone : ∀ j, 2 ≤ j → (s.writers j).owns = false) (h : orderlyTest s l = true) :
    orderly s tr l := by
  have hall : (s.writers 0).owns = false → (s.writers 1).owns = false →
      ∀ j, (s.writers j).owns = false := by
    intro h0 h1 j
    match j with
    | 0 => exact h0
    | 1 => exact h1
    | j + 2 => exact hgone _ (Nat.le_add_left 2 j)
  constructor
  · rintro i rfl (⟨⟨t, hpc⟩, heven⟩ | ⟨hb, now, hpc, heq⟩)
    · simp only [orderlyTest, hpc, heven, bne_self_eq_false, Bool.false_or, Bool.and_eq_true,
        Bool.not_eq_true'] at h
      exact hall h.2.1 h.2.2
    · simp only [orderlyTest, hpc, heq, bne_self_eq_false, Bool.false_or, Bool.and_eq_true,
        Bool.not_eq_true'] at h
      exact hall h.2.1.1 h.2.1.2
  · rintro i hb now rfl hpc heq
    simp only [orderlyTest, hpc, heq, bne_self_eq_false, Bool.false_or, Bool.and_eq_true,
      Bool.not_eq_true', beq_iff_eq] at h
    exact h.2.2

/-- A schedule that passes the tests is a run in which processes take the slot over as they
should. -/
theorem exists_orderly_run (mapping : Mapping) (start : ℕ)
    {R : State size → List (Event size) → Label size → Prop}
    (g : State size → List (Event size) → Label size → Bool)
    (hg : ∀ s tr l, g s tr l = true → R s tr l) (ls : List (Label size))
    (p : State size → List (Event size) → Bool)
    (h : (((machine size mapping start).exec (fun s tr l => orderlyTest s l && g s tr l)
      (machine size mapping start).init [] ls).any fun x => p x.1 x.2) = true) :
    ∃ s tr, (machine size mapping start).Run (fun s tr l => orderly s tr l ∧ R s tr l) s tr ∧
      p s tr = true := by
  obtain ⟨s, tr, hrun, hp⟩ := (machine size mapping start).exists_run _ (fun _ _ _ h => h) ls p h
  -- Along with the run: the other processes never become writers.
  refine ⟨s, tr, hrun.mono_of (fun s => ∀ j, 2 ≤ j → (s.writers j).owns = false) ?_ ?_ ?_, hp⟩
  · intro j hj
    change (creator j : WriterPc size).owns = false
    rw [creator, Function.update_of_ne (by omega)]
    rfl
  · rintro s tr l s' e htest hgone hs
    obtain ⟨horderly, -⟩ := Bool.and_eq_true_iff.mp htest
    change step mapping.capacity s l = _ at hs
    cases l with
    | tick d =>
      cases hs
      exact hgone
    | reader i l =>
      obtain ⟨pc, re, -, rfl, -⟩ := step_reader hs
      exact hgone
    | writer i l =>
      obtain ⟨eff, pc, we, -, rfl, -⟩ := step_writer hs
      have hi : i < 2 := by
        cases l <;> simp_all [orderlyTest]
      intro j hj
      change (Function.update s.writers i pc j).owns = false
      rw [Function.update_of_ne (by omega)]
      exact hgone j hj
  · intro s tr l hgone htest
    obtain ⟨horderly, hr⟩ := Bool.and_eq_true_iff.mp htest
    exact ⟨orderly_of_test tr hgone horderly, hg _ _ _ hr⟩

/-- The conditions on reads, as a test. -/
def readsTest (s : State size) (tr : List (Event size)) : Label size → Bool
  | .reader i .run =>
    match s.readers i with
    | .loadS1 _ _ _ => !emptied i tr
    | .loadS2 _ _ s1 _ => s.mem.control.sequence != s1 || !resetSince i tr
    | _ => true
  | _ => true

/-- The test is sound. -/
theorem reads_of_test (s : State size) (tr : List (Event size)) (l : Label size)
    (h : readsTest s tr l = true) : unresetReads s tr l ∧ writtenSince s tr l := by
  constructor
  · rintro i c k s1 out rfl hpc heq
    simpa [readsTest, hpc, heq] using h
  · rintro i c k out rfl hpc
    simpa [readsTest, hpc] using h

/-- `timedReads`, as a test. -/
def timedTest (_ : State size) (_ : List (Event size)) : Label size → Bool
  | .reader _ (.call c) => c.threshold.isSome
  | _ => true

/-- The test is sound. -/
theorem timedReads_of_test (s : State size) (tr : List (Event size)) (l : Label size)
    (h : timedTest s tr l = true) : timedReads s tr l := by
  rintro i c rfl
  exact Option.isSome_iff_ne_none.mp h

/-- Process `i` completes a write of two bytes. -/
def writeBy (i : ℕ) (x y : UInt8) : List (Label 2) := (completeWrite (bytePair x y)).map (.writer i)

/-- The creator dies in a write. -/
def death : List (Label 2) := (dieWriting (bytePair 5 5)).map (.writer 0)

/-- Some time later, process 1 recovers the slot. -/
def recovery : List (Label 2) := .tick 1000 :: (recover 10).map (.writer 1)

/-- Reader 0 calls `try_read` with a threshold. -/
def timedRead : Label 2 := .reader 0 (.call ⟨some 5, 1024, bytePair 9 9⟩)

/-- The next steps of reader 0. -/
def readSteps (n : ℕ) : List (Label 2) := List.replicate n (.reader 0 .run)

/-- Reader 0 tries again after a recovery, and returns the zero fill as a success. The only value
committed is another. -/
theorem zeroFill_success : ∃ mapping s tr, createMapping 2 kFlagLatest = .ok mapping ∧
    (machine 2 mapping 100).Run (fun s tr l => orderly s tr l ∧ timedReads s tr l) s tr ∧
    begun tr < 2^63 ∧ successes tr = [[0, 0]] ∧ committed tr = [[1, 2]] := by
  obtain ⟨mapping, hmap⟩ : ∃ mapping, createMapping 2 kFlagLatest = .ok mapping := ⟨_, rfl⟩
  obtain ⟨s, tr, hrun, htest⟩ := exists_orderly_run mapping 100 timedTest timedReads_of_test
    (writeBy 0 1 2 ++ death ++ [timedRead] ++ readSteps 3 ++ recovery ++ readSteps 5)
    (fun _ tr => decide (begun tr < 2^63 ∧ successes tr = [[0, 0]] ∧ committed tr = [[1, 2]]))
    (by cases hmap; decide +kernel)
  exact ⟨mapping, s, tr, hmap, hrun, of_decide_eq_true htest⟩

/-- The writer dies, and reader 0 tries again after the slot was recovered and written again. It
returns the new value. -/
theorem success_committed_rewritten : ∃ mapping s tr, createMapping 2 kFlagLatest = .ok mapping ∧
    (machine 2 mapping 100).Run (fun s tr l => orderly s tr l ∧ timedReads s tr l ∧
      unresetReads s tr l ∧ writtenSince s tr l) s tr ∧
    begun tr < 2^63 ∧ successes tr = [[7, 8]] ∧
    ∀ pre post i out, tr = pre ++ .reader i (.returned .success out) :: post →
      out ∈ committed pre := by
  obtain ⟨mapping, hmap⟩ : ∃ mapping, createMapping 2 kFlagLatest = .ok mapping := ⟨_, rfl⟩
  obtain ⟨s, tr, hrun, htest⟩ := exists_orderly_run mapping 100
    (fun s tr l => timedTest s tr l && readsTest s tr l)
    (fun s tr l h => And.intro (timedReads_of_test s tr l (Bool.and_eq_true_iff.mp h).1)
      (reads_of_test s tr l (Bool.and_eq_true_iff.mp h).2))
    (writeBy 0 1 2 ++ death ++ [timedRead] ++ readSteps 3 ++ recovery ++ writeBy 1 7 8 ++
      readSteps 5)
    (fun _ tr => decide (begun tr < 2^63 ∧ successes tr = [[7, 8]]))
    (by cases hmap; decide +kernel)
  obtain ⟨hlt, hout⟩ := of_decide_eq_true htest
  exact ⟨mapping, s, tr, hmap, hrun, hlt, hout, success_committed hmap (by decide) hrun hlt⟩

/-- Reader 0 loads `s1` and the first byte, then the writer dies, the slot is recovered, and the new
writer's first write brings the sequence back to `s1`. The read succeeds with a byte of each. -/
theorem torn : ∃ mapping s tr, createMapping 2 kFlagLatest = .ok mapping ∧
    (machine 2 mapping 100).Run (fun s tr l => orderly s tr l ∧ timedReads s tr l) s tr ∧
    begun tr < 2^63 ∧ successes tr = [[1, 7]] ∧ committed tr = [[1, 1], [7, 7]] := by
  obtain ⟨mapping, hmap⟩ : ∃ mapping, createMapping 2 kFlagLatest = .ok mapping := ⟨_, rfl⟩
  obtain ⟨s, tr, hrun, htest⟩ := exists_orderly_run mapping 100 timedTest timedReads_of_test
    (writeBy 0 1 1 ++ [timedRead] ++ readSteps 4 ++ death ++ recovery ++ writeBy 1 7 7 ++
      readSteps 2)
    (fun _ tr => decide (begun tr < 2^63 ∧ successes tr = [[1, 7]] ∧
      committed tr = [[1, 1], [7, 7]]))
    (by cases hmap; decide +kernel)
  exact ⟨mapping, s, tr, hmap, hrun, of_decide_eq_true htest⟩

/-- The slot is recovered, and a read without a threshold returns the zero fill. -/
theorem untorn_recovered : ∃ mapping s tr, createMapping 2 kFlagLatest = .ok mapping ∧
    (machine 2 mapping 100).Run (fun s tr l => orderly s tr l ∧ unresetReads s tr l) s tr ∧
    begun tr < 2^63 ∧ successes tr = [[0, 0]] ∧
    ∀ pre post i out, tr = pre ++ .reader i (.returned .success out) :: post →
      out = zeroFill 2 ∨ out ∈ committed pre := by
  obtain ⟨mapping, hmap⟩ : ∃ mapping, createMapping 2 kFlagLatest = .ok mapping := ⟨_, rfl⟩
  obtain ⟨s, tr, hrun, htest⟩ := exists_orderly_run mapping 100 readsTest
    (fun s tr l h => (reads_of_test s tr l h).1)
    (writeBy 0 1 2 ++ death ++ recovery ++
      [.reader 0 (.call ⟨none, 8, bytePair 9 9⟩)] ++ readSteps 5)
    (fun _ tr => decide (begun tr < 2^63 ∧ successes tr = [[0, 0]]))
    (by cases hmap; decide +kernel)
  obtain ⟨hlt, hout⟩ := of_decide_eq_true htest
  exact ⟨mapping, s, tr, hmap, hrun, hlt, hout, untorn hmap (by decide) hrun hlt⟩

end LfRing.Latest

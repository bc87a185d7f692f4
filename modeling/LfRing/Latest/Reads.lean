import Mathlib.Data.List.Forall2
import LfRing.Latest.Slot

/-!
# Reads without recovery

As long as no claim recovers the slot from a dead writer, the sequence never goes back, and a read
that succeeds has copied the content that is stable at the moment of its last load. So it returns
the value of a numbered write, the last one committed when it returns, or the zero fill if there is
none yet. `reads_regular` states this with the numbers, and that they do not go down from one read
of a reader to its next.
-/

namespace LfRing.Latest

variable {size : ℕ}

/-- The value of write number `k`, where number 0 is the zero fill that `create` leaves. -/
def valueOf (tr : List (Event size)) (k : ℕ) : Option (List UInt8) :=
  (zeroFill size :: committed tr)[k]?

/-- A read that has succeeded. -/
structure Read where
  /-- How many writes were committed when the call began. -/
  began : ℕ
  /-- What the call returned. -/
  out : List UInt8
  /-- How many writes were committed when the call returned. -/
  ended : ℕ

/-- What a reader has done so far. -/
structure Log where
  /-- How many writes are committed. -/
  commits : ℕ
  /-- How many were when the reader last called `try_read`. -/
  began : ℕ
  /-- The reads that have succeeded, in order. -/
  reads : List Read

/-- One more event, as it concerns reader `i`. -/
def Log.next (i : ℕ) (g : Log) : Event size → Log
  | .writer _ (.committed _) => { g with commits := g.commits + 1 }
  | .reader j .called => if j = i then { g with began := g.commits } else g
  | .reader j (.returned .success out) =>
    if j = i then { g with reads := g.reads ++ [⟨g.began, out, g.commits⟩] } else g
  | _ => g

/-- The log of reader `i`. -/
def log (i : ℕ) (tr : List (Event size)) : Log := tr.foldl (Log.next i) ⟨0, 0, []⟩

/-- There is one writer at a time, and a new one takes over only where the old one has left the
sequence even. -/
def oneWriter (s : State size) (tr : List (Event size)) (l : Label size) : Prop :=
  soleWriter s tr l ∧ noRecovery s tr l

/-- The log with one more event is the one before it, carried on by the event. -/
@[simp] theorem log_append (i : ℕ) (tr : List (Event size)) (e : Event size) :
    log i (tr ++ [e]) = (log i tr).next i e := by
  simp [log]

/-- A process is on its way through a recovery. -/
def WriterPc.recovering : WriterPc size → Bool
  | clear _ => true
  | reset => true
  | recoverNotify => true
  | recoverWake => true
  | _ => false

/-- A recovery starts with the exchange of the heartbeat, and only a recovery resets the
sequence. -/
theorem WriterPc.recovering_step {cap : ℕ} {m : Shared} {now : ℕ} {pc pc' : WriterPc size}
    {l : WriterLabel size} {eff : Effect} {e : WriterEvent size}
    (hs : pc.step cap m now l = some (eff, pc', e)) (hpc : pc.recovering = false)
    (hno : ∀ hb t, l = .run → pc = .claimExchange hb t → m.control.headReserve ≠ hb) :
    pc'.recovering = false ∧ e ≠ .reset := by
  have hcopying : ∀ (v : Payload size) s i notify, (copying v s i notify).recovering = false :=
    fun _ _ i _ => copying_ind (P := fun pc => pc.recovering = false) (fun _ => rfl) rfl i
  cases step_cases hs with
  | won old t heq =>
    have hl : l = .run := by cases l <;> first | rfl | cases hs
    exact absurd heq (hno old t hl rfl)
  | clear addr => cases hpc
  | reset => cases hpc
  | recoverNotify => cases hpc
  | recovered => cases hpc
  | begin v s b => exact ⟨hcopying _ _ _ _, by rintro ⟨⟩⟩
  | copy v s k b => exact ⟨hcopying _ _ _ _, by rintro ⟨⟩⟩
  | heartbeat t b => cases b <;> exact ⟨rfl, by rintro ⟨⟩⟩
  | _ => exact ⟨rfl, by rintro ⟨⟩⟩

/-- Without recovery, every write committed counts, and the content is that of the last one. -/
structure Plain (s : State size) (tr : List (Event size)) : Prop where
  /-- Nobody recovers. -/
  calm : ∀ i, (s.writers i).recovering = false
  /-- All writes committed count. -/
  commits : (past tr).commits = (committed tr).length
  /-- The content is the value of the last write. -/
  content : valueOf tr (committed tr).length = some (past tr).content
  /-- The sequence has never been reset. -/
  unreset : ∀ i, resetSince i tr = false

/-- What has a value keeps it. -/
theorem valueOf_append {tr : List (Event size)} {k : ℕ} {v : List UInt8} (e : Event size)
    (h : valueOf tr k = some v) : valueOf (tr ++ [e]) k = some v := by
  unfold valueOf at h ⊢
  obtain ⟨hk, -⟩ := List.getElem?_eq_some_iff.mp h
  rw [committed_append, ← List.cons_append, List.getElem?_append_left hk]
  exact h

/-- An event that is not a reset does not make the sequence one that was reset. -/
theorem resetSince_of_unreset {i : ℕ} {tr : List (Event size)} {e : Event size}
    (h : resetSince i tr = false) (he : ∀ j, e ≠ .writer j .reset) :
    resetSince i (tr ++ [e]) = false := by
  rw [resetSince_append]
  split
  · exact absurd rfl (he _)
  · split_ifs
    · rfl
    · exact h
  · exact h

/-- An event that neither commits nor resets changes nothing. -/
theorem Plain.of_quiet {s s' : State size} {tr : List (Event size)} {e : Event size}
    (h : Plain s tr) (hcalm : ∀ i, (s'.writers i).recovering = false) (he : e.committed? = [])
    (hreset : ∀ j, e ≠ .writer j .reset) (hpast : (past tr).next size e = past tr) :
    Plain s' (tr ++ [e]) := by
  refine ⟨hcalm, ?_, ?_, fun i => resetSince_of_unreset (h.unreset i) hreset⟩
  · rw [past_append, hpast, committed_append, he, List.append_nil]
    exact h.commits
  · rw [past_append, hpast, committed_append, he, List.append_nil]
    exact valueOf_append e h.content

/-- A commit adds its value. -/
theorem Plain.of_commit {s s' : State size} {tr : List (Event size)} (h : Plain s tr) (i : ℕ)
    (v : Payload size) (hcalm : ∀ i, (s'.writers i).recovering = false) :
    Plain s' (tr ++ [.writer i (.committed v)]) := by
  have hc : committed (tr ++ [.writer i (.committed v)]) = committed tr ++ [v.1] := by
    rw [committed_append]
    rfl
  refine ⟨hcalm, ?_, ?_, fun j => resetSince_of_unreset (h.unreset j) (by rintro _ ⟨⟩)⟩
  · rw [past_append, hc, List.length_append]
    exact congrArg (· + 1) h.commits
  · rw [past_append, valueOf, hc, List.length_append, List.length_singleton,
      List.getElem?_cons_succ, List.getElem?_concat_length]
    rfl

/-- Every step without recovery keeps the history plain. -/
theorem Plain.step {cap : ℕ} {s s' : State size} {tr : List (Event size)} {l : Label size}
    {e : Event size} (h : Plain s tr) (hno : noRecovery s tr l)
    (hs : Latest.step cap s l = some (s', e)) : Plain s' (tr ++ [e]) := by
  cases l with
  | tick d =>
    cases hs
    exact h.of_quiet h.calm rfl (by rintro _ ⟨⟩) rfl
  | reader i l =>
    obtain ⟨pc, re, -, rfl, rfl⟩ := step_reader hs
    exact h.of_quiet h.calm rfl (by rintro _ ⟨⟩) rfl
  | writer i l =>
    obtain ⟨eff, pc, we, hstep, rfl, rfl⟩ := step_writer hs
    obtain ⟨hcalm, hreset⟩ := WriterPc.recovering_step hstep (h.calm i)
      fun hb t hl hpc => hno i hb t (by rw [hl]) hpc
    have hall : ∀ j, (Function.update s.writers i pc j).recovering = false := by
      intro j
      by_cases hj : j = i
      · subst hj
        rw [Function.update_self]
        exact hcalm
      · rw [Function.update_of_ne hj]
        exact h.calm j
    cases we with
    | committed v => exact h.of_commit i v hall
    | reset => exact absurd rfl hreset
    | _ => exact h.of_quiet hall rfl (by rintro _ ⟨⟩) rfl

/-- Where no recovery wins, no recovery wins with an even sequence. -/
theorem recoversOdd_of_noRecovery {s : State size} {tr : List (Event size)} {l : Label size}
    (h : noRecovery s tr l) : recoversOdd s tr l :=
  fun i hb now hl hpc heq => absurd heq (h i hb now hl hpc)

/-- Read `r` returned the value of write number `k`, which was the last one committed at some moment
of the call. -/
def Read.Of (tr : List (Event size)) (k : ℕ) (r : Read) : Prop :=
  r.began ≤ k ∧ k ≤ r.ended ∧ valueOf tr k = some r.out

/-- The reads of reader `i` have numbers that do not go down. -/
structure Numbered (i : ℕ) (tr : List (Event size)) (ks : List ℕ) : Prop where
  /-- The log counts the writes committed. -/
  commits : (log i tr).commits = (committed tr).length
  /-- No more were committed when the last call began. -/
  began : (log i tr).began ≤ (committed tr).length
  /-- The numbers of the reads. -/
  reads : List.Forall₂ (Read.Of tr) ks (log i tr).reads
  /-- They do not go down. -/
  mono : ks.Pairwise (· ≤ ·)
  /-- They are numbers of writes committed. -/
  bound : ∀ k ∈ ks, k ≤ (committed tr).length

/-- The reads keep their numbers as the history grows. -/
theorem reads_append {tr : List (Event size)} {ks : List ℕ} {rs : List Read} (e : Event size)
    (h : List.Forall₂ (Read.Of tr) ks rs) : List.Forall₂ (Read.Of (tr ++ [e])) ks rs :=
  h.imp fun _ _ hk => ⟨hk.1, hk.2.1, valueOf_append e hk.2.2⟩

/-- An event that returns nothing to reader `i` leaves the numbers of its reads. -/
theorem Numbered.of_quiet {i : ℕ} {tr : List (Event size)} {ks : List ℕ} {e : Event size}
    (h : Numbered i tr ks) (hreads : ((log i tr).next i e).reads = (log i tr).reads)
    (hcommits : ((log i tr).next i e).commits = (log i tr).commits + e.committed?.length)
    (hbegan : ((log i tr).next i e).began ≤ (log i tr).began ∨
      ((log i tr).next i e).began = (log i tr).commits) : Numbered i (tr ++ [e]) ks := by
  have hc := h.commits
  have hb := h.began
  have hlen : (committed (tr ++ [e])).length = (committed tr).length + e.committed?.length := by
    rw [committed_append, List.length_append]
  refine ⟨?_, ?_, ?_, h.mono, ?_⟩
  · rw [log_append, hcommits, hlen, hc]
  · rw [log_append]
    omega
  · rw [log_append, hreads]
    exact reads_append e h.reads
  · intro k hk
    have := h.bound k hk
    omega

/-- A read that returns the value of the last write committed gets the largest number so far. -/
theorem Numbered.of_success {i : ℕ} {tr : List (Event size)} {ks : List ℕ} {out : List UInt8}
    (h : Numbered i tr ks) (hout : valueOf tr (committed tr).length = some out) :
    Numbered i (tr ++ [.reader i (.returned .success out)]) (ks ++ [(committed tr).length]) := by
  have hlog : log i (tr ++ [.reader i (.returned .success out)]) =
      { log i tr with
        reads := (log i tr).reads ++ [⟨(log i tr).began, out, (log i tr).commits⟩] } := by
    rw [log_append, Log.next, if_pos rfl]
  have hsame : committed (tr ++ [.reader i (.returned .success out)]) = committed tr := by
    rw [committed_append]
    exact List.append_nil _
  refine ⟨?_, ?_, ?_, ?_, ?_⟩
  · rw [hlog, hsame]
    exact h.commits
  · rw [hlog, hsame]
    exact h.began
  · rw [hlog]
    exact List.rel_append (reads_append _ h.reads)
      (.cons ⟨h.began, le_of_eq h.commits.symm, valueOf_append _ hout⟩ .nil)
  · refine List.pairwise_append.mpr ⟨h.mono, List.pairwise_singleton _ _, ?_⟩
    intro k hk k' hk'
    rw [List.mem_singleton.mp hk']
    exact h.bound k hk
  · intro k hk
    rw [hsame]
    rcases List.mem_append.mp hk with hk | hk
    · exact h.bound k hk
    · exact le_of_eq (List.mem_singleton.mp hk)

/-- What an event means to reader `i`, unless it returns something to it. -/
theorem Numbered.of_event {i : ℕ} {tr : List (Event size)} {ks : List ℕ} {e : Event size}
    (h : Numbered i tr ks) (he : ∀ out, e ≠ .reader i (.returned .success out)) :
    Numbered i (tr ++ [e]) ks := by
  cases e with
  | tick => exact h.of_quiet rfl rfl (Or.inl le_rfl)
  | writer j we => cases we <;> exact h.of_quiet rfl rfl (Or.inl le_rfl)
  | reader j re =>
    by_cases hj : j = i
    · subst hj
      cases re with
      | called =>
        have hlog : (log j tr).next j (.reader j .called : Event size) =
            { log j tr with began := (log j tr).commits } := if_pos rfl
        exact h.of_quiet (by rw [hlog]) (by rw [hlog]; rfl) (Or.inr (by rw [hlog]))
      | returned res out =>
        cases res with
        | success => exact absurd rfl (he out)
        | _ => exact h.of_quiet rfl rfl (Or.inl le_rfl)
      | _ => exact h.of_quiet rfl rfl (Or.inl le_rfl)
    · -- Another reader's calls are not in the log.
      have hlog : (log i tr).next i (.reader j re : Event size) = log i tr := by
        cases re with
        | called => exact if_neg hj
        | returned res out =>
          cases res with
          | success => exact if_neg hj
          | _ => rfl
        | _ => rfl
      exact h.of_quiet (by rw [hlog]) (by rw [hlog]; rfl) (Or.inl (by rw [hlog]))

/-- A step of any party keeps the numbers, and gives one to a read that succeeds. -/
theorem Numbered.step {cap i : ℕ} {s s' : State size} {tr : List (Event size)} {l : Label size}
    {e : Event size} {ks : List ℕ} (h : Numbered i tr ks) (hinv : Inv cap s tr)
    (hplain : Plain s tr) (hs : Latest.step cap s l = some (s', e)) :
    ∃ ks', Numbered i (tr ++ [e]) ks' := by
  by_cases he : ∀ out, e ≠ .reader i (.returned .success out)
  · exact ⟨ks, h.of_event he⟩
  · obtain ⟨out, rfl⟩ := not_forall_not.mp he
    cases l with
    | tick d => cases hs
    | writer j l =>
      obtain ⟨eff, pc, we, -, -, heq⟩ := step_writer hs
      cases heq
    | reader j l =>
      obtain ⟨pc, re, hstep, -, heq⟩ := step_reader hs
      obtain ⟨rfl, rfl⟩ := Event.reader.inj heq
      generalize hpc : s.readers i = pc₀ at hstep
      cases ReadPc.step_cases hstep with
      | success c k s1 out hs1 =>
        -- The two loads agree, so the copy is the stable content, the last value committed.
        obtain ⟨hout, -⟩ := hinv.validated hpc hs1.symm (hplain.unreset i)
        refine ⟨_, h.of_success ?_⟩
        rw [hout]
        exact hplain.content

/-- The history before the first step. -/
theorem Plain.fresh (mem : Shared) (start : ℕ) :
    Plain (⟨mem, start, creator, fun _ => .idle⟩ : State size) [] := by
  exact ⟨forall_creator (P := fun _ pc => pc.recovering = false) rfl fun _ => rfl,
    rfl, rfl, fun _ => rfl⟩

/-- What holds of every run with one writer at a time and no recovery. -/
theorem regular_of_run {mapping : Mapping} {start : ℕ} {s : State size} {tr : List (Event size)}
    (hcreate : createMapping size kFlagLatest = .ok mapping)
    (hrun : (machine size mapping start).Run oneWriter s tr) (hlt : begun tr < 2^63) (i : ℕ) :
    Inv mapping.capacity s tr ∧ Plain s tr ∧ ∃ ks, Numbered i tr ks := by
  have hfresh := createMapping_shared hcreate
  refine hrun.invariant_of (fun tr => begun tr < 2^63) (fun tr e h => by
    rw [begun_append] at h; omega) (fun s tr => Inv mapping.capacity s tr ∧ Plain s tr ∧
      ∃ ks, Numbered i tr ks) ?_ ?_ hlt
  · simp only [machine, hfresh]
    exact ⟨Inv.fresh _ start, Plain.fresh _ start, [], rfl, le_rfl, .nil, .nil, by simp⟩
  · rintro s tr l s' e ⟨hsole, hno⟩ hb ⟨hinv, hplain, ks, hnum⟩ hs
    exact ⟨hinv.step hs hsole (recoversOdd_of_noRecovery hno) (Or.inr hno) hb,
      hplain.step hno hs, hnum.step hinv hplain hs⟩

/-- In every run with one writer at a time and no recovery, with fewer than `2^63` writes begun,
every reader's successful reads have returned, in every byte, the values of numbered writes (the
zero fill has number 0). The number of a read is at least that of the writes committed when its call
began, and at most that of the writes committed when it returned, and the numbers of a reader's
reads do not go down. -/
theorem reads_regular {mapping : Mapping} {start : ℕ} {s : State size} {tr : List (Event size)}
    (hcreate : createMapping size kFlagLatest = .ok mapping)
    (hrun : (machine size mapping start).Run oneWriter s tr) (hlt : begun tr < 2^63) (i : ℕ) :
    ∃ ks : List ℕ, List.Forall₂ (Read.Of tr) ks (log i tr).reads ∧ ks.Pairwise (· ≤ ·) := by
  obtain ⟨-, -, ks, hnum⟩ := regular_of_run hcreate hrun hlt i
  exact ⟨ks, hnum.reads, hnum.mono⟩

/-- Reader 4 calls `try_read`, the creator writes a value of two bytes, and the reader gets it. -/
def readAcrossWrite : List (Label 2) :=
  .reader 4 (.call ⟨none, 8, bytePair 9 9⟩) :: (completeWrite (bytePair 1 2)).map (.writer 0) ++
    List.replicate 5 (.reader 4 .run)

/-- A read that began before the first write was committed and returned after. -/
theorem reads_regular_acrossWrite : ∃ mapping s tr, createMapping 2 kFlagLatest = .ok mapping ∧
    (machine 2 mapping 0).Run oneWriter s tr ∧ begun tr < 2^63 ∧
    (log 4 tr).reads.map Read.out = [[1, 2]] ∧ (log 4 tr).reads.map Read.began = [0] ∧
    ∃ ks : List ℕ, List.Forall₂ (Read.Of tr) ks (log 4 tr).reads ∧ ks.Pairwise (· ≤ ·) := by
  obtain ⟨mapping, hmap⟩ : ∃ mapping, createMapping 2 kFlagLatest = .ok mapping := ⟨_, rfl⟩
  obtain ⟨s, tr, hrun, htest⟩ := (machine 2 mapping 0).exists_run unclaimedTest unclaimed_of_test
    readAcrossWrite (fun _ tr => decide (begun tr < 2^63) &&
      decide ((log 4 tr).reads.map Read.out = [[1, 2]]) &&
      decide ((log 4 tr).reads.map Read.began = [0]))
    (by cases hmap; decide +kernel)
  simp only [Bool.and_eq_true, decide_eq_true_eq] at htest
  obtain ⟨⟨hlt, hout⟩, hbegan⟩ := htest
  exact ⟨mapping, s, tr, hmap, hrun, hlt, hout, hbegan, reads_regular hmap hrun hlt 4⟩

end LfRing.Latest

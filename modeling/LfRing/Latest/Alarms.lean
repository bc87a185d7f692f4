import LfRing.Latest.Heartbeats

/-!
# A live writer declared dead

One writer that does not die, readers with a threshold, and other processes that claim the slot
(`liveWriter`). A write stores its heartbeat at its end, so after an idle gap the next write is
under way with an old heartbeat, or with none if it is the first one. A reader that spins through
such a write reports `kWriterDead`, and a claim recovers the slot under the writer's hands
(`false_alarm`). That the write itself is fast does not help.

What excludes this is a condition on the times at which writes and claims end (`looksInTime`).
Whoever judges the writer does so soon after the last one that had ended when it looked, and no
claim looks before the first one has ended. In every run that meets the condition nobody is declared
dead (`no_alarm`). The condition is about the times that the observer of a run notes. That the
heartbeat in the shared memory tells them is the invariant `Heard`.
-/

namespace LfRing.Latest

variable {size : ℕ}

/-- Process 0 lives and is the only one to write, claims and readers have the threshold, and the
clock does not wrap. -/
def liveWriter (threshold : ℕ) (s : State size) (_ : List (Event size)) : Label size → Prop
  | .writer i .crash => i ≠ 0
  | .writer i (.write _ _) => i = 0
  | .writer _ (.claim t) => t = threshold
  | .writer _ .run => True
  | .reader _ (.call c) => ∀ t, c.threshold = some t → t = threshold
  | .reader _ .run => True
  | .tick d => s.clock + d < 2^64

/-- The judgements come in time. When a reader that has found the sequence odd reads the clock, it
has gone on by at most the threshold since the last write or claim that had ended when the reader
looked. When a claim does, such a write or claim had ended, and the clock has gone on by less than
the threshold. A write or claim counts with the time at which it read the clock. -/
def looksInTime (x : State size × Times) : Label size → Prop
  | .reader r .run => ∀ c threshold i hb out b,
      x.1.readers r = .readClock c threshold i hb out → x.2.readers r = some b →
      x.1.clock ≤ b + threshold
  | .writer i .run => ∀ threshold oldHb, x.1.writers i = .claimClock threshold oldHb →
      ∃ b, (x.2.writers i).saw = some b ∧ x.1.clock < b + threshold
  | _ => True

/-! ## Nobody is behind a judgement -/

/-- The process is in a claim that has judged the writer dead. -/
def WriterPc.judged : WriterPc size → Bool
  | claimExchange _ _ => true
  | clear _ => true
  | reset => true
  | recoverNotify => true
  | recoverWake => true
  | _ => false

/-- Only a claim that finds no fresh heartbeat judges the writer dead, and only a claim that has
done so recovers the slot. -/
theorem WriterPc.judged_step {cap : ℕ} {m : Shared} {now : ℕ} {pc pc' : WriterPc size}
    {l : WriterLabel size} {eff : Effect} {e : WriterEvent size}
    (hs : pc.step cap m now l = some (eff, pc', e)) (h : pc.judged = false)
    (hfresh : ∀ threshold oldHb, l = .run → pc = .claimClock threshold oldHb →
      oldHb ≠ 0 ∧ sub64 now oldHb < threshold) : pc'.judged = false ∧ e ≠ .recovered := by
  have hcopying : ∀ (v : Payload size) s i notify, (copying v s i notify).judged = false :=
    fun _ _ i _ => copying_ind (P := fun pc => pc.judged = false) (fun _ => rfl) rfl i
  cases step_cases hs with
  | stale threshold oldHb hstale =>
    have hl : l = .run := by cases l <;> first | rfl | cases hs
    exact absurd (hfresh threshold oldHb hl rfl) hstale
  | won oldHb t heq => cases h
  | lost oldHb t hne => cases h
  | clear addr => cases h
  | reset => cases h
  | recoverNotify => cases h
  | recovered => cases h
  | begin v s notify => exact ⟨hcopying _ _ _ _, by rintro ⟨⟩⟩
  | copy v s i notify => exact ⟨hcopying _ _ _ _, by rintro ⟨⟩⟩
  | heartbeat t notify => cases notify <;> exact ⟨rfl, by rintro ⟨⟩⟩
  | _ => exact ⟨rfl, by rintro ⟨⟩⟩

/-- What holds as long as the judgements come in time. -/
structure Trusting (x : State size × Times) : Prop where
  /-- The clock has not wrapped. -/
  clock : x.1.clock < 2^64
  /-- The heartbeat tells when the last write or claim ended. -/
  heard : Heard x.1 x.2
  /-- No claim has judged the writer dead. -/
  writer : ∀ i, (x.1.writers i).judged = false

/-- Every step of a run in which the judgements come in time. -/
theorem Trusting.step {mapping : Mapping} {start threshold : ℕ} {x x' : State size × Times}
    {tr : List (Event size)} {l : Label size} {e : Event size} (h : Trusting x)
    (hlive : liveWriter threshold x.1 tr l) (htime : looksInTime x l)
    (hs : (timed size mapping start).step x l = some (x', e)) :
    Trusting x' ∧ (∀ r, .writerDead ∉ e.result? r) ∧ ∀ i, (i, .recovered) ∉ e.claim? := by
  obtain ⟨hstep, hnext⟩ := Machine.observe_step hs
  obtain ⟨s', t'⟩ := x'
  change Latest.step mapping.capacity x.1 l = some (s', e) at hstep
  obtain rfl : t' = x.2.next x.1 l := hnext
  cases l with
  | tick d =>
    have hheard := h.heard.step hstep
    cases hstep
    exact ⟨⟨hlive, hheard hlive, h.writer⟩, by rintro r ⟨⟩, by rintro i ⟨⟩⟩
  | writer i l =>
    have hheard := h.heard.step hstep
    obtain ⟨eff, pc, we, hmove, rfl, rfl⟩ := step_writer hstep
    -- A claim that reads the clock in time finds the heartbeat fresh.
    obtain ⟨hpc, hwe⟩ := WriterPc.judged_step hmove (h.writer i) fun threshold oldHb hl hpc => by
      subst hl
      exact (h.heard.fresh_iff h.clock hpc).mpr (htime threshold oldHb hpc)
    refine ⟨⟨h.clock, hheard h.clock, ?_⟩, by rintro r ⟨⟩, fun j hmem => ?_⟩
    · exact (Function.forall_update_iff x.1.writers fun _ pc => pc.judged = false).mpr
        ⟨hpc, fun j _ => h.writer j⟩
    · cases we with
      | recovered => exact hwe rfl
      | resumed => simp [Event.claim?] at hmem
      | _ => cases hmem
  | reader r l =>
    have hheard := h.heard.step hstep
    obtain ⟨pc, re, hmove, rfl, rfl⟩ := step_reader hstep
    refine ⟨⟨h.clock, hheard h.clock, h.writer⟩, fun j hmem => ?_, by rintro i ⟨⟩⟩
    obtain ⟨out, heq⟩ := Event.mem_result.mp hmem
    obtain ⟨rfl, rfl⟩ := Event.reader.inj heq
    -- Only one transition returns `kWriterDead`, and a reader that comes to it is late.
    generalize hpc : x.1.readers r = pc₀ at hmove
    cases ReadPc.step_cases hmove with
    | dead c threshold i hb out hdead =>
      obtain rfl := ReadPc.label_of_step (by rintro ⟨⟩) hmove
      obtain ⟨b, hb, hlate⟩ := (h.heard.dead_iff h.clock hpc).mp hdead
      exact absurd (htime c threshold i _ out b hpc hb) (by omega)

/-- A live writer is not declared dead. In every run with one live writer, readers and claims with
the threshold, and a clock that starts behind zero and does not wrap, in which the judgements come
in time after the ends of writes and claims: no reader returns `kWriterDead`, and no claim returns
`kRecovered`. -/
theorem no_alarm {mapping : Mapping} {start threshold : ℕ} {x : State size × Times}
    {tr : List (Event size)} (hcreate : createMapping size kFlagLatest = .ok mapping)
    (hstart : 0 < start) (hlt : start < 2^64)
    (hrun : (timed size mapping start).Run
      (fun x tr l => liveWriter threshold x.1 tr l ∧ looksInTime x l) x tr) :
    (∀ r, .writerDead ∉ results r tr) ∧ ∀ i, (i, .recovered) ∉ claims tr := by
  have hinv : Trusting x ∧ (∀ r, .writerDead ∉ results r tr) ∧
      ∀ i, (i, .recovered) ∉ claims tr := by
    refine hrun.invariant (fun x tr => Trusting x ∧ (∀ r, .writerDead ∉ results r tr) ∧
      ∀ i, (i, .recovered) ∉ claims tr) ?_ ?_
    · refine ⟨?_, by simp [results], by simp [claims]⟩
      simp only [timed, Machine.observe, machine, createMapping_shared hcreate]
      exact ⟨hlt, Heard.fresh hstart,
        forall_creator (P := fun _ pc => pc.judged = false) rfl fun _ => rfl⟩
    · rintro x tr l x' e ⟨hlive, htime⟩ ⟨htrust, hread, hclaim⟩ hs
      obtain ⟨htrust', hread', hclaim'⟩ := htrust.step hlive htime hs
      refine ⟨htrust', fun r => ?_, fun i => ?_⟩
      · rw [results_append, List.mem_append, not_or]
        exact ⟨hread r, hread' r⟩
      · rw [claims_append, List.mem_append, not_or]
        exact ⟨hclaim i, hclaim' i⟩
  exact hinv.2

/-! ## Schedules -/

/-- The clock does not move between the two stores of the sequence in a write. -/
def fastWrites (s : State size) : Label size → Prop
  | .tick _ => (s.writers 0).midWrite = false
  | _ => True

/-- `liveWriter` and `fastWrites`, as a test. -/
def liveTest (threshold : ℕ) (s : State size) : Label size → Bool
  | .writer i .crash => i != 0
  | .writer i (.write _ _) => i == 0
  | .writer _ (.claim t) => t == threshold
  | .reader _ (.call c) => c.threshold == some threshold
  | .tick d => decide (s.clock + d < 2^64) && !(s.writers 0).midWrite
  | _ => true

/-- The test is sound. -/
theorem live_of_test {threshold : ℕ} {s : State size} (tr : List (Event size)) {l : Label size}
    (h : liveTest threshold s l = true) : liveWriter threshold s tr l ∧ fastWrites s l := by
  cases l with
  | writer i l =>
    cases l with
    | run => exact ⟨trivial, trivial⟩
    | _ => simpa [liveTest, liveWriter, fastWrites] using h
  | reader r l =>
    cases l with
    | call c =>
      refine ⟨fun t ht => ?_, trivial⟩
      rw [beq_iff_eq.mp h] at ht
      exact (Option.some.inj ht).symm
    | run => exact ⟨trivial, trivial⟩
  | tick d => simpa [liveTest, liveWriter, fastWrites] using h

/-- `looksInTime`, as a test. -/
def inTimeTest (x : State size × Times) : Label size → Bool
  | .reader r .run =>
    match x.1.readers r, x.2.readers r with
    | .readClock _ threshold _ _ _, some b => decide (x.1.clock ≤ b + threshold)
    | _, _ => true
  | .writer i .run =>
    match x.1.writers i, (x.2.writers i).saw with
    | .claimClock threshold _, some b => decide (x.1.clock < b + threshold)
    | .claimClock _ _, none => false
    | _, _ => true
  | _ => true

/-- The test is sound. -/
theorem looksInTime_of_test {x : State size × Times} {l : Label size} (h : inTimeTest x l = true) :
    looksInTime x l := by
  cases l with
  | writer i l =>
    cases l with
    | run =>
      intro threshold oldHb hpc
      cases hsaw : (x.2.writers i).saw with
      | none => simp [inTimeTest, hpc, hsaw] at h
      | some b => exact ⟨b, rfl, by simpa [inTimeTest, hpc, hsaw] using h⟩
    | _ => trivial
  | reader r l =>
    cases l with
    | run =>
      intro c threshold i hb out b hpc hsaw
      simpa [inTimeTest, hpc, hsaw] using h
    | call c => trivial
  | tick d => trivial

/-- The creator completes a write, and begins another one some time later. -/
def twoWrites (idle : ℕ) : List (Label 1) :=
  (completeWrite (oneByte 1)).map (.writer 0) ++ [.tick idle] ++
    (beginWrite (oneByte 2)).map (.writer 0)

/-- A reader and a claim come across the creator's second write three nanoseconds after the first
one, and find the creator alive. -/
theorem no_alarm_secondWrite : ∃ mapping x tr, createMapping 1 kFlagLatest = .ok mapping ∧
    (timed 1 mapping 1).Run (fun x tr l => liveWriter 5 x.1 tr l ∧ looksInTime x l) x tr ∧
    results 0 tr = [.contended] ∧ (x.1.writers 1).owns = false ∧ (x.1.writers 0).midWrite = true ∧
    ∀ r, .writerDead ∉ results r tr := by
  obtain ⟨mapping, hmap⟩ : ∃ mapping, createMapping 1 kFlagLatest = .ok mapping := ⟨_, rfl⟩
  obtain ⟨x, tr, hrun, htest⟩ := (timed 1 mapping 1).exists_run
    (fun x _ l => liveTest 5 x.1 l && inTimeTest x l)
    (fun x tr l h => And.intro (live_of_test tr (Bool.and_eq_true_iff.mp h).1).1
      (looksInTime_of_test (Bool.and_eq_true_iff.mp h).2))
    (twoWrites 3 ++ [.reader 0 (.call lateCall)] ++ List.replicate 132 (.reader 0 .run) ++
      [.writer 1 (.claim 5)] ++ List.replicate 3 (.writer 1 .run))
    (fun x tr => decide (results 0 tr = [.contended] ∧ (x.1.writers 1).owns = false ∧
      (x.1.writers 0).midWrite = true))
    (by cases hmap; decide +kernel)
  obtain ⟨hread, hclaim, hmid⟩ := of_decide_eq_true htest
  exact ⟨mapping, x, tr, hmap, hrun, hread, hclaim, hmid,
    (no_alarm hmap (by decide) (by decide) hrun).1⟩

/-- The clock passes the threshold between the creator's first write and its second one. A reader
that comes across the second write reports the creator dead. And a claim that comes across the first
write recovers the slot. -/
theorem false_alarm : ∃ mapping, createMapping 1 kFlagLatest = .ok mapping ∧
    (∃ s tr, (machine 1 mapping 1).Run (fun s tr l => liveWriter 5 s tr l ∧ fastWrites s l) s tr ∧
      results 0 tr = [.writerDead]) ∧
    ∃ s tr, (machine 1 mapping 1).Run (fun s tr l => liveWriter 5 s tr l ∧ fastWrites s l) s tr ∧
      claims tr = [(1, .recovered)] := by
  obtain ⟨mapping, hmap⟩ : ∃ mapping, createMapping 1 kFlagLatest = .ok mapping := ⟨_, rfl⟩
  obtain ⟨s, tr, hrun, htest⟩ := (machine 1 mapping 1).exists_run (fun s _ l => liveTest 5 s l)
    (fun _ tr _ h => live_of_test tr h)
    (twoWrites 10 ++ [.reader 0 (.call lateCall)] ++ List.replicate 131 (.reader 0 .run))
    (fun _ tr => decide (results 0 tr = [.writerDead]))
    (by cases hmap; decide +kernel)
  obtain ⟨s', tr', hrun', htest'⟩ := (machine 1 mapping 1).exists_run (fun s _ l => liveTest 5 s l)
    (fun _ tr _ h => live_of_test tr h)
    ((beginWrite (oneByte 2)).map (.writer 0) ++ (recover 5).map (.writer 1))
    (fun _ tr => decide (claims tr = [(1, .recovered)]))
    (by cases hmap; decide +kernel)
  exact ⟨mapping, hmap, ⟨s, tr, hrun, of_decide_eq_true htest⟩,
    s', tr', hrun', of_decide_eq_true htest'⟩

end LfRing.Latest

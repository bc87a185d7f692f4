import LfRing.Latest.Detection

/-!
# When the writer was last heard

`is_writer_alive`, `claim` and the `try_read` with a threshold of
`include/lf_ring/shared_latest.hpp` each load the heartbeat, read the clock, and compare the
difference with a threshold. What they judge by is a word of the shared memory. This module says
what the word means: it is the clock as it was read by the write or claim that was the last one to
store its heartbeat, and zero if there was none yet (`Heard`).

The times are not in the model. An observer notes them along a run (`Times`), and no step depends on
it. So the three judgements become statements about the history (`judged_by_silence`). They do not
compare in the same way. A reader reports the writer dead if it has not been heard for longer than
the threshold. A claim goes on to the exchange, where it may still lose, if the writer has not been
heard for as long as the threshold, and `is_writer_alive` is false then. And only the reader takes a
writer that was never heard for alive.
-/

namespace LfRing.Latest

variable {size : ℕ}

/-! ## An observer with a clock -/

/-- What the observer notes of a process. -/
structure Notes where
  /-- The clock as the process has read it last. -/
  read : ℕ
  /-- The last heartbeat when its claim looked. -/
  saw : Option ℕ

/-- What the observer notes. -/
structure Times where
  /-- The clock as it was read by the write or claim that was the last one to end, if there was one.
  A claim that recovers counts from its exchange on. -/
  last : Option ℕ
  /-- What each process has read and seen. -/
  writers : ℕ → Notes
  /-- What `last` was when each reader last looked. -/
  readers : ℕ → Option ℕ

/-- The next step of a process inside a call, as the observer notes it. -/
def WriterPc.note (m : Shared) (clock : ℕ) (last : Option ℕ) (r : Notes) :
    WriterPc size → Option ℕ × Notes
  | stamp _ => (last, { r with read := clock })
  | heartbeat _ _ => (some r.read, r)
  | resumeClock => (last, { r with read := clock })
  | resumeHeartbeat _ => (some r.read, r)
  | claimHeartbeat _ => (last, { r with saw := last })
  | claimClock _ _ => (last, { r with read := clock })
  | claimExchange oldHb _ => (if m.control.headReserve = oldHb then some r.read else last, r)
  | _ => (last, r)

/-- One more step. -/
def Times.next (s : State size) (l : Label size) (t : Times) : Times :=
  match l with
  | .writer i .run =>
    let noted := (s.writers i).note s.mem s.clock t.last (t.writers i)
    { t with last := noted.1, writers := Function.update t.writers i noted.2 }
  | .reader r .run =>
    match s.readers r with
    | .loadHeartbeat _ _ _ _ => { t with readers := Function.update t.readers r t.last }
    | _ => t
  | _ => t

/-- The slot under observation. -/
def timed (size : ℕ) (mapping : Mapping) (start : ℕ) :
    Machine (State size × Times) (Label size) (Event size) :=
  (machine size mapping start).observe ⟨none, fun _ => ⟨0, none⟩, fun _ => none⟩ Times.next

/-! ## The heartbeat and the clock -/

/-- A time that was noted is not ahead of the clock, and not zero. -/
def Noted (clock : ℕ) (time : Option ℕ) : Prop := ∀ b, time = some b → 0 < b ∧ b ≤ clock

/-- The clock moves on. -/
theorem Noted.mono {clock clock' : ℕ} {time : Option ℕ} (h : Noted clock time)
    (hle : clock ≤ clock') : Noted clock' time := fun b hb => ⟨(h b hb).1, (h b hb).2.trans hle⟩

/-- The word of a time. The unsigned difference that the code takes is its age, and a time that was
not noted is the zero that the code tests for. -/
theorem Noted.age_iff {clock : ℕ} {time : Option ℕ} (h : Noted clock time) (hclock : clock < 2^64)
    (P : ℕ → Prop) : time.getD 0 ≠ 0 ∧ P (sub64 (u64 clock) (time.getD 0)) ↔
      ∃ b, time = some b ∧ P (clock - b) := by
  cases time with
  | none => simp
  | some b =>
    obtain ⟨hpos, hle⟩ := h b rfl
    have hage : sub64 (u64 clock) b = clock - b := by rw [u64_of_lt hclock, sub64_of_le hle hclock]
    simp only [Option.getD_some, hage, Option.some.injEq, exists_eq_left', and_iff_right_iff_imp]
    exact fun _ => by omega

/-- What a process has read is about to become the heartbeat, or is what its claim judges by. -/
def WriterPc.Heard (r : Notes) : WriterPc size → Prop
  | resumeHeartbeat now => now = r.read ∧ 0 < now
  | heartbeat now _ => now = r.read ∧ 0 < now
  | claimExchange _ now => now = r.read ∧ 0 < now
  | claimClock _ oldHb => oldHb = r.saw.getD 0
  | _ => True

/-- What a reader judges by. -/
def ReadPc.Heard (saw : Option ℕ) : ReadPc size → Prop
  | readClock _ _ _ hb _ => hb = saw.getD 0
  | _ => True

/-- The heartbeat is the time that the observer has noted. -/
structure Heard (s : State size) (t : Times) : Prop where
  /-- The clock has left zero. -/
  clock : 0 < s.clock
  /-- The heartbeat. -/
  heartbeat : s.mem.control.headReserve = t.last.getD 0
  /-- It is behind the clock. -/
  last : Noted s.clock t.last
  /-- So is what each process has read and seen. -/
  noted : ∀ i, (t.writers i).read ≤ s.clock ∧ Noted s.clock (t.writers i).saw
  /-- And what each reader has. -/
  seen : ∀ r, Noted s.clock (t.readers r)
  /-- What the processes hold. -/
  writer : ∀ i, (s.writers i).Heard (t.writers i)
  /-- What the readers hold. -/
  reader : ∀ r, (s.readers r).Heard (t.readers r)

section Steps

variable {cap clock : ℕ} {m : Shared} {last : Option ℕ} {r : Notes}

/-- A process stores what it has read. -/
theorem WriterPc.Heard.step {pc pc' : WriterPc size} {eff : Effect} {e : WriterEvent size}
    (h : pc.Heard r) (hpos : 0 < clock) (hclock : clock < 2^64)
    (hheartbeat : m.control.headReserve = last.getD 0) (hlast : Noted clock last)
    (hnoted : r.read ≤ clock ∧ Noted clock r.saw)
    (hs : pc.step cap m (u64 clock) .run = some (eff, pc', e)) :
    (eff.apply m).control.headReserve = (pc.note m clock last r).1.getD 0 ∧
      Noted clock (pc.note m clock last r).1 ∧
      ((pc.note m clock last r).2.read ≤ clock ∧ Noted clock (pc.note m clock last r).2.saw) ∧
      pc'.Heard (pc.note m clock last r).2 := by
  have hnow : u64 clock = clock := u64_of_lt hclock
  have hstored : ∀ {now}, now = r.read ∧ 0 < now → Noted clock (some r.read) := by
    rintro now ⟨rfl, hread⟩ b hb
    obtain rfl := Option.some.inj hb
    exact ⟨hread, hnoted.1⟩
  have hcopying : ∀ (v : Payload size) s i notify, (copying v s i notify).Heard r := fun _ _ i _ =>
    copying_ind (P := fun pc => pc.Heard r) (fun _ => trivial) trivial i
  have hclearing : ∀ addr, (clearing cap addr : WriterPc size).Heard r :=
    clearing_ind (P := fun pc => pc.Heard r) (fun _ => trivial) trivial cap
  cases step_cases hs with
  | crash pc => cases label_of_crashed hs
  -- The three readings of the clock. What is read is not zero, so neither is what it becomes.
  | resumeClock => exact ⟨hheartbeat, hlast, ⟨le_rfl, hnoted.2⟩, hnow, by omega⟩
  | stamp notify => exact ⟨hheartbeat, hlast, ⟨le_rfl, hnoted.2⟩, hnow, by omega⟩
  | stale threshold oldHb hstale => exact ⟨hheartbeat, hlast, ⟨le_rfl, hnoted.2⟩, hnow, by omega⟩
  | fresh threshold oldHb hfresh => exact ⟨hheartbeat, hlast, ⟨le_rfl, hnoted.2⟩, trivial⟩
  | claimHeartbeat threshold => exact ⟨hheartbeat, hlast, ⟨hnoted.1, hlast⟩, hheartbeat⟩
  -- The three stores of the heartbeat.
  | resumed t => exact ⟨h.1, hstored h, hnoted, trivial⟩
  | heartbeat t notify => cases notify <;> exact ⟨h.1, hstored h, hnoted, trivial⟩
  | won oldHb t heq =>
    rw [note, if_pos heq]
    exact ⟨h.1, hstored h, hnoted, hclearing 0⟩
  | lost oldHb t hne =>
    rw [note, if_neg hne]
    exact ⟨hheartbeat, hlast, hnoted, trivial⟩
  | clear addr => exact ⟨hheartbeat, hlast, hnoted, hclearing _⟩
  | begin v s notify => exact ⟨hheartbeat, hlast, hnoted, hcopying _ _ _ _⟩
  | copy v s i notify => exact ⟨hheartbeat, hlast, hnoted, hcopying _ _ _ _⟩
  | _ => exact ⟨hheartbeat, hlast, hnoted, trivial⟩

/-- A step of a process that is not one inside a call stores nothing, and leaves the process with
nothing that it has read. -/
theorem WriterPc.heard_of_label {now : ℕ} {pc pc' : WriterPc size} {l : WriterLabel size}
    {eff : Effect} {e : WriterEvent size} (hl : l ≠ .run)
    (hs : pc.step cap m now l = some (eff, pc', e)) : eff = .none ∧ pc'.Heard r := by
  cases l with
  | run => exact absurd rfl hl
  | crash =>
    have hcrash : pc.step cap m now .crash = some (.none, .gone, .crashed) := by cases pc <;> rfl
    rw [hcrash] at hs
    cases hs
    exact ⟨rfl, trivial⟩
  | claim threshold =>
    cases pc <;> cases hs
    exact ⟨rfl, trivial⟩
  | write v notify =>
    cases pc <;> cases hs
    exact ⟨rfl, trivial⟩

/-- A reader that looks holds what it has seen. -/
theorem ReadPc.Heard.step {now : ℕ} {saw : Option ℕ} {pc pc' : ReadPc size} {l : ReadLabel size}
    {e : ReadEvent} (hheartbeat : m.control.headReserve = last.getD 0)
    (hs : pc.step m now l = some (pc', e))
    (hsaw : ∀ c t i out, l = .run → pc = .loadHeartbeat c t i out → saw = last) :
    pc'.Heard saw := by
  cases step_cases hs with
  | call c =>
    unfold enter
    split <;> trivial
  | loadS1 c i out =>
    unfold examine
    split_ifs
    · exact copying_ind (P := fun pc => pc.Heard saw) (fun _ => trivial) trivial 0
    · exact spin_ind (P := fun pc => pc.Heard saw) (fun _ => trivial) trivial
  | loadHeartbeat c t i out =>
    rw [hsaw c t i out (label_of_step (by rintro ⟨⟩) hs) rfl]
    exact hheartbeat
  | copy c i s1 j out =>
    exact copying_ind (P := fun pc => pc.Heard saw) (fun _ => trivial) trivial (j + 1)
  | _ => trivial

end Steps

/-- What a step of reader `r` adds. -/
theorem Times.next_reader (s : State size) (r : ℕ) (l : ReadLabel size) (t : Times) :
    ∃ saw, Times.next s (.reader r l) t = { t with readers := Function.update t.readers r saw } ∧
      (saw = t.readers r ∨ saw = t.last) ∧
      ∀ c th i out, l = .run → s.readers r = .loadHeartbeat c th i out → saw = t.last := by
  have hsame : ∀ {P : Option ℕ → Prop}, P (t.readers r) →
      ∃ saw, t = { t with readers := Function.update t.readers r saw } ∧
        (saw = t.readers r ∨ saw = t.last) ∧ P saw := by
    intro P hP
    refine ⟨t.readers r, ?_, Or.inl rfl, hP⟩
    rw [Function.update_eq_self]
  cases l with
  | call c => exact hsame (by rintro c th i out ⟨⟩)
  | run =>
    unfold Times.next
    dsimp only
    split
    · exact ⟨t.last, rfl, Or.inr rfl, fun _ _ _ _ _ _ => rfl⟩
    · rename_i hno
      exact hsame fun c th i out _ hpc => absurd hpc (hno c th i out)

namespace Heard

variable {cap : ℕ} {s s' : State size} {t : Times}

/-- Every step keeps this, as long as the clock does not wrap. -/
theorem step {l : Label size} {e : Event size} (h : Heard s t)
    (hs : Latest.step cap s l = some (s', e)) (hclock : s'.clock < 2^64) :
    Heard s' (t.next s l) := by
  cases l with
  | tick d =>
    cases hs
    have hle : s.clock ≤ s.clock + d := Nat.le_add_right _ _
    exact ⟨h.clock.trans_le hle, h.heartbeat, h.last.mono hle,
      fun i => ⟨(h.noted i).1.trans hle, (h.noted i).2.mono hle⟩, fun r => (h.seen r).mono hle,
      h.writer, h.reader⟩
  | reader r l =>
    obtain ⟨pc, re, hstep, rfl, rfl⟩ := step_reader hs
    obtain ⟨saw, hnext, hwhich, hsaw⟩ := Times.next_reader s r l t
    rw [hnext]
    refine ⟨h.clock, h.heartbeat, h.last, h.noted, ?_, h.writer, ?_⟩
    · refine (Function.forall_update_iff t.readers fun _ saw => Noted s.clock saw).mpr
        ⟨?_, fun j _ => h.seen j⟩
      rcases hwhich with rfl | rfl
      · exact h.seen r
      · exact h.last
    · intro j
      by_cases hj : j = r
      · subst hj
        simp only [Function.update_self]
        exact ReadPc.Heard.step h.heartbeat hstep hsaw
      · simp only [Function.update_of_ne hj]
        exact h.reader j
  | writer i l =>
    obtain ⟨eff, pc, we, hstep, rfl, rfl⟩ := step_writer hs
    by_cases hl : l = .run
    · subst hl
      obtain ⟨hheartbeat, hlast, hnoted, hpc⟩ := (h.writer i).step h.clock hclock h.heartbeat h.last
        (h.noted i) hstep
      refine ⟨h.clock, hheartbeat, hlast, ?_, h.seen, fun j => ?_, h.reader⟩
      · exact (Function.forall_update_iff t.writers fun _ r => r.read ≤ s.clock ∧
          Noted s.clock r.saw).mpr ⟨hnoted, fun j _ => h.noted j⟩
      · change (Function.update s.writers i pc j).Heard (Function.update t.writers i _ j)
        by_cases hj : j = i
        · subst hj
          rw [Function.update_self, Function.update_self]
          exact hpc
        · rw [Function.update_of_ne hj, Function.update_of_ne hj]
          exact h.writer j
    · -- The start of a call, or a death.
      obtain ⟨rfl, hpc⟩ := WriterPc.heard_of_label (r := t.writers i) hl hstep
      have hnext : t.next s (.writer i l) = t := by cases l <;> first | rfl | exact absurd rfl hl
      rw [hnext]
      refine ⟨h.clock, h.heartbeat, h.last, h.noted, h.seen, ?_, h.reader⟩
      exact (Function.forall_update_iff s.writers fun j pc => pc.Heard (t.writers j)).mpr
        ⟨hpc, fun j _ => h.writer j⟩

/-- At the start nobody has been heard. -/
theorem fresh {start : ℕ} (hstart : 0 < start) :
    Heard (⟨Shared.fresh, start, creator, fun _ => .idle⟩ : State size)
      ⟨none, fun _ => ⟨0, none⟩, fun _ => none⟩ where
  clock := hstart
  heartbeat := rfl
  last := by rintro b ⟨⟩
  noted := fun _ => ⟨Nat.zero_le _, by rintro b ⟨⟩⟩
  seen := by rintro _ b ⟨⟩
  writer := forall_creator (P := fun _ pc => pc.Heard ⟨0, none⟩) trivial fun _ => trivial
  reader := fun _ => trivial

section Judgements

variable {i th : ℕ}

/-- A reader judges by the last heartbeat before its look. -/
theorem dead_iff (h : Heard s t) (hclock : s.clock < 2^64) {r hb : ℕ} {c : ReadCall size}
    {out : List UInt8} (hpc : s.readers r = .readClock c th i hb out) :
    hb ≠ 0 ∧ th < sub64 (u64 s.clock) hb ↔ ∃ b, t.readers r = some b ∧ b + th < s.clock := by
  have hheard := h.reader r
  rw [hpc] at hheard
  obtain rfl : hb = (t.readers r).getD 0 := hheard
  rw [(h.seen r).age_iff hclock fun age => th < age]
  exact exists_congr fun b => and_congr_right fun _ => by omega

/-- A claim judges by the last heartbeat before its look. -/
theorem fresh_iff (h : Heard s t) (hclock : s.clock < 2^64) {oldHb : ℕ}
    (hpc : s.writers i = .claimClock th oldHb) :
    oldHb ≠ 0 ∧ sub64 (u64 s.clock) oldHb < th ↔
      ∃ b, (t.writers i).saw = some b ∧ s.clock < b + th := by
  have hheard := h.writer i
  rw [hpc] at hheard
  obtain rfl : oldHb = (t.writers i).saw.getD 0 := hheard
  rw [(h.noted i).2.age_iff hclock fun age => age < th]
  refine exists_congr fun b => and_congr_right fun hb => ?_
  have hle := ((h.noted i).2 b hb).2
  omega

end Judgements

end Heard

/-- The clock does not go back. -/
theorem clock_le_of_step {cap : ℕ} {s s' : State size} {l : Label size} {e : Event size}
    (hs : Latest.step cap s l = some (s', e)) : s.clock ≤ s'.clock := by
  cases l with
  | writer i l =>
    obtain ⟨eff, pc, we, -, rfl, rfl⟩ := step_writer hs
    exact le_rfl
  | reader i l =>
    obtain ⟨pc, re, -, rfl, rfl⟩ := step_reader hs
    exact le_rfl
  | tick d =>
    cases hs
    exact Nat.le_add_right _ _

/-- In every run from a time that is not zero, as long as the clock has not wrapped, the heartbeat
is the time that the observer has noted. -/
theorem heard_of_run {mapping : Mapping} {start : ℕ}
    {ok : State size × Times → List (Event size) → Label size → Prop} {x : State size × Times}
    {tr : List (Event size)} (hfresh : mapping.shared = Shared.fresh) (hstart : 0 < start)
    (h : (timed size mapping start).Run ok x tr) (hclock : x.1.clock < 2^64) : Heard x.1 x.2 := by
  refine h.invariant (fun x _ => x.1.clock < 2^64 → Heard x.1 x.2) ?_ ?_ hclock
  · intro _
    simp only [timed, Machine.observe, machine, hfresh]
    exact Heard.fresh hstart
  · intro x tr l x' e _ hheard hs hclock'
    obtain ⟨hstep, hnext⟩ := Machine.observe_step hs
    rw [hnext]
    exact (hheard ((clock_le_of_step hstep).trans_lt hclock')).step hstep hclock'

/-! ## The three judgements -/

/-- `is_writer_alive`, with the heartbeat that it loads and the clock that it reads. -/
def isWriterAlive (hb now threshold : ℕ) : Bool :=
  if hb = 0 then false else decide (sub64 now hb < threshold)

/-- The write has ended, and five nanoseconds are over then. -/
def fiveLater (mapping : Mapping) (x : State 1 × Times) (_ : List (Event 1)) : Bool :=
  decide (x.2.last = some 1 ∧ x.1.clock = 1) &&
    ((machine 1 mapping 1).exec (fun _ _ _ => true) x.1 [] [.tick 5]).any fun y =>
      decide (y.1.clock = 6)

end LfRing.Latest

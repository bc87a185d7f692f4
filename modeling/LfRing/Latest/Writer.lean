import LfRing.Layout

/-!
# The writer of a `SharedLatest`

`write`, `write_and_notify` and `claim` of `include/lf_ring/shared_latest.hpp`, as a machine that
takes one access to the shared memory at a time. The control block's `sequence` is the seqlock
counter, `head_reserve` holds the heartbeat, and `tail_publish` is the notification counter.

A writer makes the sequence odd, copies the value byte by byte, makes the sequence even again, and
stores the time as its heartbeat. A process becomes the writer through `claim`. An even sequence is
taken over as it is. An odd one was left by a writer that died, if its heartbeat is old enough. Then
the claimant exchanges the heartbeat, clears the ring byte by byte, and resets the sequence to zero.
-/

namespace LfRing.Latest

/-- A value of a type of `size` bytes, as its bytes. -/
abbrev Payload (size : ℕ) := { bytes : List UInt8 // bytes.length = size }

/-- Where a process is in its life as a writer. -/
inductive WriterPc (size : ℕ)
  /-- Not a writer: the process has not claimed the slot, or its claim has failed, or it is dead. -/
  | gone
  /-- In `claim`, about to load the sequence. -/
  | claimSequence (threshold : ℕ)
  /-- In `claim` with an even sequence, about to read the clock. -/
  | resumeClock
  /-- In `claim` with an even sequence, about to store the heartbeat. -/
  | resumeHeartbeat (now : ℕ)
  /-- In `claim` with an odd sequence, about to load the heartbeat. -/
  | claimHeartbeat (threshold : ℕ)
  /-- In `claim` with an odd sequence, about to read the clock. -/
  | claimClock (threshold oldHb : ℕ)
  /-- In `claim`, about to exchange the heartbeat. -/
  | claimExchange (oldHb now : ℕ)
  /-- In `claim`, about to clear the ring byte at `addr`. -/
  | clear (addr : ℕ)
  /-- In `claim`, about to reset the sequence. -/
  | reset
  /-- In `claim`, about to increment the notification counter. -/
  | recoverNotify
  /-- In `claim`, about to wake the waiters. -/
  | recoverWake
  /-- The writer, between two calls. -/
  | idle
  /-- In `write`, about to load the sequence. -/
  | load (v : Payload size) (notify : Bool)
  /-- In `write`, about to make the sequence odd. -/
  | begin (v : Payload size) (s : ℕ) (notify : Bool)
  /-- In `write`, about to copy byte `i`. -/
  | copy (v : Payload size) (s i : ℕ) (notify : Bool)
  /-- In `write`, about to make the sequence even. -/
  | commit (v : Payload size) (s : ℕ) (notify : Bool)
  /-- In `write`, about to read the clock. -/
  | stamp (notify : Bool)
  /-- In `write`, about to store the heartbeat. -/
  | heartbeat (now : ℕ) (notify : Bool)
  /-- In `write_and_notify`, about to increment the notification counter. -/
  | announce
  /-- In `write_and_notify`, about to wake the waiters. -/
  | wake

/-- What a process may do next. -/
inductive WriterLabel (size : ℕ)
  /-- Call `claim` with a threshold in nanoseconds. -/
  | claim (threshold : ℕ)
  /-- Call `write`, or `write_and_notify`. -/
  | write (v : Payload size) (notify : Bool)
  /-- Take the next step. -/
  | run
  /-- Die. -/
  | crash

/-- What a process's step reports. -/
inductive WriterEvent (size : ℕ)
  /-- A step inside a call, or the start of one. -/
  | internal
  /-- The process has died. -/
  | crashed
  /-- `claim` has thrown. -/
  | refused
  /-- `claim` has returned `kResumed`. -/
  | resumed
  /-- `claim` has won the exchange of the heartbeat. -/
  | won
  /-- `claim` has reset the sequence. -/
  | reset
  /-- `claim` has returned `kRecovered`. -/
  | recovered
  /-- A write has made the sequence odd. -/
  | begun (v : Payload size)
  /-- A write has made the sequence even. -/
  | committed (v : Payload size)
  /-- A call of `write` or `write_and_notify` has returned. -/
  | written

variable {size : ℕ}

namespace WriterPc

/-- After the load of the sequence in `claim`. -/
def choose (threshold s : ℕ) : WriterPc size :=
  if s % 2 = 0 then resumeClock else claimHeartbeat threshold

/-- After the reading of the clock in `claim`: a fresh heartbeat is that of a live writer. -/
def judge (threshold oldHb now : ℕ) : WriterPc size × WriterEvent size :=
  if oldHb ≠ 0 ∧ sub64 now oldHb < threshold then (gone, .refused)
  else (claimExchange oldHb now, .internal)

/-- With the ring cleared up to `addr`. -/
def clearing (cap addr : ℕ) : WriterPc size := if addr < cap then clear addr else reset

/-- The exchange of the heartbeat. -/
def exchange (cap : ℕ) (m : Shared) (oldHb now : ℕ) :
    Effect × WriterPc size × WriterEvent size :=
  if m.control.headReserve = oldHb then (.headReserve now, clearing cap 0, .won)
  else (.none, gone, .refused)

/-- With `i` bytes of the value copied. -/
def copying (v : Payload size) (s i : ℕ) (notify : Bool) : WriterPc size :=
  if i < size then copy v s i notify else commit v s notify

/-- What holds before every store of the clearing, and before the reset behind it, holds in
between. -/
theorem clearing_ind {P : WriterPc size → Prop} (hclear : ∀ addr, P (clear addr)) (hreset : P reset)
    (cap addr : ℕ) : P (clearing cap addr) := by
  unfold clearing
  split
  · exact hclear addr
  · exact hreset

/-- What holds before every byte of a copy, and before the commit behind it, holds in between. -/
theorem copying_ind {P : WriterPc size → Prop} {v : Payload size} {s : ℕ} {notify : Bool}
    (hcopy : ∀ i, P (copy v s i notify)) (hcommit : P (commit v s notify)) (i : ℕ) :
    P (copying v s i notify) := by
  unfold copying
  split
  · exact hcopy i
  · exact hcommit

/-- After the store of the heartbeat in `write`. -/
def stamped : Bool → WriterPc size × WriterEvent size
  | true => (announce, .internal)
  | false => (idle, .written)

/-- One step of a process: its effect on the shared memory, where the process is then, and what it
reports. `now` is the clock. -/
def step (cap : ℕ) (m : Shared) (now : ℕ) :
    WriterPc size → WriterLabel size → Option (Effect × WriterPc size × WriterEvent size)
  | _, .crash => some (.none, gone, .crashed)
  | gone, .claim threshold => some (.none, claimSequence threshold, .internal)
  | claimSequence threshold, .run =>
    some (.none, choose threshold m.control.sequence, .internal)
  | resumeClock, .run => some (.none, resumeHeartbeat now, .internal)
  | resumeHeartbeat now, .run => some (.headReserve now, idle, .resumed)
  | claimHeartbeat threshold, .run =>
    some (.none, claimClock threshold m.control.headReserve, .internal)
  | claimClock threshold oldHb, .run => some (.none, judge threshold oldHb now)
  | claimExchange oldHb now, .run => some (exchange cap m oldHb now)
  | clear addr, .run => some (.ring ⟨addr, [0]⟩, clearing cap (addr + 1), .internal)
  | reset, .run => some (.sequence 0, recoverNotify, .reset)
  | recoverNotify, .run =>
    some (.tailPublish (u64 (m.control.tailPublish + 1)), recoverWake, .internal)
  | recoverWake, .run => some (.none, idle, .recovered)
  | idle, .write v notify => some (.none, load v notify, .internal)
  | load v notify, .run => some (.none, begin v m.control.sequence notify, .internal)
  | begin v s notify, .run => some (.sequence (u64 (s + 1)), copying v s 0 notify, .begun v)
  | copy v s i notify, .run =>
    some (.ring ⟨i, [v.1.getD i 0]⟩, copying v s (i + 1) notify, .internal)
  | commit v s notify, .run => some (.sequence (u64 (s + 2)), stamp notify, .committed v)
  | stamp notify, .run => some (.none, heartbeat now notify, .internal)
  | heartbeat now notify, .run => some (.headReserve now, stamped notify)
  | announce, .run => some (.tailPublish (u64 (m.control.tailPublish + 1)), wake, .internal)
  | wake, .run => some (.none, idle, .written)
  | _, _ => none

/-- The process is the writer, or bound to become it: `claim` has found an even sequence or won the
exchange. -/
def owns : WriterPc size → Bool
  | gone => false
  | claimSequence _ => false
  | claimHeartbeat _ => false
  | claimClock _ _ => false
  | claimExchange _ _ => false
  | _ => true

end WriterPc

/-- The transitions of a process, one constructor each, with what the branch taken has found. -/
inductive WriterStep (cap : ℕ) (m : Shared) (now : ℕ) :
    WriterPc size → Effect → WriterPc size → WriterEvent size → Prop
  /-- The process dies. -/
  | crash (pc : WriterPc size) : WriterStep cap m now pc .none .gone .crashed
  /-- `claim` is called. -/
  | claim (threshold : ℕ) :
    WriterStep cap m now .gone .none (.claimSequence threshold) .internal
  /-- `claim` loads an even sequence. -/
  | even (threshold : ℕ) (h : m.control.sequence % 2 = 0) :
    WriterStep cap m now (.claimSequence threshold) .none .resumeClock .internal
  /-- `claim` loads an odd sequence. -/
  | odd (threshold : ℕ) (h : m.control.sequence % 2 ≠ 0) :
    WriterStep cap m now (.claimSequence threshold) .none (.claimHeartbeat threshold) .internal
  /-- `claim` reads the clock, to resume. -/
  | resumeClock : WriterStep cap m now .resumeClock .none (.resumeHeartbeat now) .internal
  /-- `claim` returns `kResumed`. -/
  | resumed (t : ℕ) : WriterStep cap m now (.resumeHeartbeat t) (.headReserve t) .idle .resumed
  /-- `claim` loads the heartbeat. -/
  | claimHeartbeat (threshold : ℕ) :
    WriterStep cap m now (.claimHeartbeat threshold) .none
      (.claimClock threshold m.control.headReserve) .internal
  /-- `claim` finds a fresh heartbeat. -/
  | fresh (threshold oldHb : ℕ) (h : oldHb ≠ 0 ∧ sub64 now oldHb < threshold) :
    WriterStep cap m now (.claimClock threshold oldHb) .none .gone .refused
  /-- `claim` finds no heartbeat or an old one. -/
  | stale (threshold oldHb : ℕ) (h : ¬ (oldHb ≠ 0 ∧ sub64 now oldHb < threshold)) :
    WriterStep cap m now (.claimClock threshold oldHb) .none (.claimExchange oldHb now) .internal
  /-- `claim` wins the exchange. -/
  | won (oldHb t : ℕ) (h : m.control.headReserve = oldHb) :
    WriterStep cap m now (.claimExchange oldHb t) (.headReserve t) (.clearing cap 0) .won
  /-- `claim` loses the exchange. -/
  | lost (oldHb t : ℕ) (h : m.control.headReserve ≠ oldHb) :
    WriterStep cap m now (.claimExchange oldHb t) .none .gone .refused
  /-- `claim` clears a byte. -/
  | clear (addr : ℕ) :
    WriterStep cap m now (.clear addr) (.ring ⟨addr, [0]⟩) (.clearing cap (addr + 1)) .internal
  /-- `claim` resets the sequence. -/
  | reset : WriterStep cap m now .reset (.sequence 0) .recoverNotify .reset
  /-- `claim` increments the notification counter. -/
  | recoverNotify : WriterStep cap m now .recoverNotify
      (.tailPublish (u64 (m.control.tailPublish + 1))) .recoverWake .internal
  /-- `claim` returns `kRecovered`. -/
  | recovered : WriterStep cap m now .recoverWake .none .idle .recovered
  /-- `write` is called. -/
  | write (v : Payload size) (notify : Bool) :
    WriterStep cap m now .idle .none (.load v notify) .internal
  /-- `write` loads the sequence. -/
  | load (v : Payload size) (notify : Bool) :
    WriterStep cap m now (.load v notify) .none (.begin v m.control.sequence notify) .internal
  /-- `write` makes the sequence odd. -/
  | begin (v : Payload size) (s : ℕ) (notify : Bool) :
    WriterStep cap m now (.begin v s notify) (.sequence (u64 (s + 1))) (.copying v s 0 notify)
      (.begun v)
  /-- `write` copies a byte. -/
  | copy (v : Payload size) (s i : ℕ) (notify : Bool) :
    WriterStep cap m now (.copy v s i notify) (.ring ⟨i, [v.1.getD i 0]⟩)
      (.copying v s (i + 1) notify) .internal
  /-- `write` makes the sequence even. -/
  | commit (v : Payload size) (s : ℕ) (notify : Bool) :
    WriterStep cap m now (.commit v s notify) (.sequence (u64 (s + 2))) (.stamp notify)
      (.committed v)
  /-- `write` reads the clock. -/
  | stamp (notify : Bool) :
    WriterStep cap m now (.stamp notify) .none (.heartbeat now notify) .internal
  /-- `write` stores the heartbeat. -/
  | heartbeat (t : ℕ) (notify : Bool) :
    WriterStep cap m now (.heartbeat t notify) (.headReserve t) (WriterPc.stamped notify).1
      (WriterPc.stamped notify).2
  /-- `write_and_notify` increments the notification counter. -/
  | announce : WriterStep cap m now .announce (.tailPublish (u64 (m.control.tailPublish + 1)))
      .wake .internal
  /-- `write_and_notify` returns. -/
  | wake : WriterStep cap m now .wake .none .idle .written

/-- Every step of a process is one of the transitions. -/
theorem WriterPc.step_cases {cap : ℕ} {m : Shared} {now : ℕ} {pc pc' : WriterPc size}
    {l : WriterLabel size} {eff : Effect} {e : WriterEvent size}
    (h : pc.step cap m now l = some (eff, pc', e)) : WriterStep cap m now pc eff pc' e := by
  cases l with
  | crash =>
    have hcrash : pc.step cap m now .crash = some (.none, .gone, .crashed) := by cases pc <;> rfl
    rw [hcrash] at h
    cases h
    exact .crash pc
  | claim threshold =>
    cases pc <;> simp only [step, reduceCtorEq] at h
    cases h
    exact .claim threshold
  | write v notify =>
    cases pc <;> simp only [step, reduceCtorEq] at h
    cases h
    exact .write v notify
  | run =>
    cases pc <;> simp only [step, reduceCtorEq] at h
    case claimSequence threshold =>
      simp only [choose] at h
      split_ifs at h with h1
      · cases h; exact .even threshold h1
      · cases h; exact .odd threshold h1
    case claimClock threshold oldHb =>
      simp only [judge] at h
      split_ifs at h with h1
      · cases h; exact .fresh threshold oldHb h1
      · cases h; exact .stale threshold oldHb h1
    case claimExchange oldHb t =>
      simp only [exchange] at h
      split_ifs at h with h1
      · cases h; exact .won oldHb t h1
      · cases h; exact .lost oldHb t h1
    case heartbeat t notify =>
      have : WriterStep cap m now (.heartbeat t notify : WriterPc size) _ _ _ := .heartbeat t notify
      obtain ⟨rfl, heq⟩ := Prod.mk.inj (Option.some.inj h)
      rwa [heq] at this
    case resumeClock => cases h; exact .resumeClock
    case resumeHeartbeat t => cases h; exact .resumed t
    case claimHeartbeat threshold => cases h; exact .claimHeartbeat threshold
    case clear addr => cases h; exact .clear addr
    case reset => cases h; exact .reset
    case recoverNotify => cases h; exact .recoverNotify
    case recoverWake => cases h; exact .recovered
    case load v notify => cases h; exact .load v notify
    case begin v s notify => cases h; exact .begin v s notify
    case copy v s i notify => cases h; exact .copy v s i notify
    case commit v s notify => cases h; exact .commit v s notify
    case stamp notify => cases h; exact .stamp notify
    case announce => cases h; exact .announce
    case wake => cases h; exact .wake

/-! ## The writer and its steps -/

namespace WriterPc

/-- A process that copies a value is the writer. -/
@[simp] theorem owns_copying (v : Payload size) (s i : ℕ) (notify : Bool) :
    (copying v s i notify).owns = true :=
  copying_ind (P := fun pc => pc.owns = true) (fun _ => rfl) rfl i

/-- A process that clears the ring is the writer. -/
@[simp] theorem owns_clearing (cap addr : ℕ) : (clearing cap addr : WriterPc size).owns = true :=
  clearing_ind (P := fun pc => pc.owns = true) (fun _ => rfl) rfl cap addr

variable {cap : ℕ} {m : Shared} {now : ℕ} {pc pc' : WriterPc size} {l : WriterLabel size}
  {eff : Effect} {e : WriterEvent size}

/-- A process dies only where its death is next. -/
theorem label_of_crashed (hs : pc.step cap m now l = some (eff, pc', .crashed)) : l = .crash := by
  cases l with
  | crash => rfl
  | claim t => cases pc <;> cases hs
  | write v notify => cases pc <;> cases hs
  | run =>
    cases pc with
    | claimClock t old =>
      rw [step, judge] at hs
      split_ifs at hs <;> cases hs
    | claimExchange old t =>
      rw [step, exchange] at hs
      split_ifs at hs <;> cases hs
    | heartbeat t notify => cases notify <;> cases hs
    | _ => cases hs

/-- The writer stays the writer unless it dies. -/
theorem owns_step (hs : pc.step cap m now l = some (eff, pc', e)) (hl : l ≠ .crash)
    (hpc : pc.owns = true) : pc'.owns = true := by
  cases step_cases hs with
  | crash pc => exact absurd (label_of_crashed hs) hl
  | clear addr => exact owns_clearing _ _
  | begin v q notify => exact owns_copying _ _ _ _
  | copy v q i notify => exact owns_copying _ _ _ _
  | heartbeat t notify => cases notify <;> rfl
  | won old t heq => cases hpc
  | _ => first | rfl | cases hpc

/-- A process that is not the writer and does not become it stores nothing. -/
theorem effect_of_not_owns (hs : pc.step cap m now l = some (eff, pc', e)) (h : pc.owns = false)
    (h' : pc'.owns = false) : eff = .none := by
  cases step_cases hs with
  | won old t heq =>
    rw [owns_clearing] at h'
    cases h'
  | _ => first | rfl | cases h

/-- A process becomes the writer where its claim takes the slot over. -/
theorem takes_over (hs : pc.step cap m now l = some (eff, pc', e)) (h : pc.owns = false)
    (h' : pc'.owns = true) :
    l = .run ∧ ((∃ t, pc = .claimSequence t) ∧ m.control.sequence % 2 = 0 ∨
      ∃ hb t, pc = .claimExchange hb t ∧ m.control.headReserve = hb) := by
  cases step_cases hs with
  | even t heven =>
    refine ⟨?_, Or.inl ⟨⟨t, rfl⟩, heven⟩⟩
    cases l <;> first | rfl | cases hs
  | won old t heq =>
    refine ⟨?_, Or.inr ⟨old, t, rfl, heq⟩⟩
    cases l <;> first | rfl | cases hs
  | _ => first | (cases h; done) | cases h'

end WriterPc

end LfRing.Latest

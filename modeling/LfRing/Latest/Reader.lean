import LfRing.Latest.Writer

/-!
# The readers of a `SharedLatest`

The two overloads of `try_read` of `include/lf_ring/shared_latest.hpp`, as a machine that takes one
access to the shared memory at a time. Both copy the value byte by byte between two loads of the
sequence, and try again unless the first load was even and the second finds the same. The overload
with a threshold also looks once, at the start, whether the sequence is zero, and at every 64th odd
sequence whether the writer's heartbeat is too old.
-/

namespace LfRing.Latest

/-- `ReadResult`. The overload without a threshold returns true for `success` and false for
`contended`. -/
inductive ReadResult
  /-- `kSuccess`, or true. -/
  | success
  /-- `kEmpty`. -/
  | empty
  /-- `kContended`, or false. -/
  | contended
  /-- `kWriterDead`. -/
  | writerDead
deriving DecidableEq, Repr

/-- The arguments of `try_read`. -/
structure ReadCall (size : ℕ) where
  /-- `dead_threshold` in nanoseconds, for the overload that has it. -/
  threshold : Option ℕ
  /-- `max_retries`. -/
  maxRetries : ℕ
  /-- What `out` holds when `try_read` is called. -/
  out : Payload size

/-- Where a reader is in `try_read`, with what `out` holds by then. -/
inductive ReadPc (size : ℕ)
  /-- Between two calls. -/
  | idle
  /-- About to load the sequence for the test whether anything was written. -/
  | initial (c : ReadCall size)
  /-- About to test `i < max_retries`. -/
  | loop (c : ReadCall size) (i : ℕ) (out : List UInt8)
  /-- About to load `s1`. -/
  | loadS1 (c : ReadCall size) (i : ℕ) (out : List UInt8)
  /-- About to load the heartbeat. -/
  | loadHeartbeat (c : ReadCall size) (threshold i : ℕ) (out : List UInt8)
  /-- About to read the clock. -/
  | readClock (c : ReadCall size) (threshold i hb : ℕ) (out : List UInt8)
  /-- About to copy byte `j`. -/
  | copy (c : ReadCall size) (i s1 j : ℕ) (out : List UInt8)
  /-- About to load `s2`. -/
  | loadS2 (c : ReadCall size) (i s1 : ℕ) (out : List UInt8)

/-- What a reader may do next. -/
inductive ReadLabel (size : ℕ)
  /-- Call `try_read`. -/
  | call (c : ReadCall size)
  /-- Take the next step. -/
  | run

/-- What a reader's step reports. -/
inductive ReadEvent
  /-- A call has begun. -/
  | called
  /-- A step inside a call. -/
  | internal
  /-- `s1` has been loaded. -/
  | loadedS1
  /-- A call has returned, with what it leaves in `out`. -/
  | returned (res : ReadResult) (out : List UInt8)

variable {size : ℕ}

namespace ReadPc

/-- The start of `try_read`. -/
def enter (c : ReadCall size) : ReadPc size :=
  match c.threshold with
  | some _ => initial c
  | none => loop c 0 c.out.1

/-- After the first load of the overload with a threshold. -/
def begin (c : ReadCall size) (s : ℕ) : ReadPc size × ReadEvent :=
  if s = 0 then (idle, .returned .empty c.out.1) else (loop c 0 c.out.1, .internal)

/-- The loop's test. -/
def test (c : ReadCall size) (i : ℕ) (out : List UInt8) : ReadPc size × ReadEvent :=
  if i < c.maxRetries then (loadS1 c i out, .internal) else (idle, .returned .contended out)

/-- With `j` bytes copied. -/
def copying (c : ReadCall size) (i s1 j : ℕ) (out : List UInt8) : ReadPc size :=
  if j < size then copy c i s1 j out else loadS2 c i s1 out

/-- What holds before every byte of a copy, and before the load of `s2` behind it, holds in
between. -/
theorem copying_ind {P : ReadPc size → Prop} {c : ReadCall size} {i s1 : ℕ} {out : List UInt8}
    (hcopy : ∀ j, P (copy c i s1 j out)) (hload : P (loadS2 c i s1 out)) (j : ℕ) :
    P (copying c i s1 j out) := by
  unfold copying
  split
  · exact hcopy j
  · exact hload

/-- After an odd `s1`: the overload with a threshold looks at the heartbeat now and then. -/
def spin (c : ReadCall size) (i : ℕ) (out : List UInt8) : ReadPc size :=
  match c.threshold with
  | some threshold => if i % 64 = 63 then loadHeartbeat c threshold i out else loop c (i + 1) out
  | none => loop c (i + 1) out

/-- What holds before a look at the heartbeat, and before the next attempt, holds after an odd
`s1`. -/
theorem spin_ind {P : ReadPc size → Prop} {c : ReadCall size} {i : ℕ} {out : List UInt8}
    (hlook : ∀ threshold, P (loadHeartbeat c threshold i out)) (hloop : P (loop c (i + 1) out)) :
    P (spin c i out) := by
  unfold spin
  split
  · split_ifs
    · exact hlook _
    · exact hloop
  · exact hloop

/-- After the load of `s1`. -/
def examine (c : ReadCall size) (i s1 : ℕ) (out : List UInt8) : ReadPc size :=
  if s1 % 2 = 0 then copying c i s1 0 out else spin c i out

/-- After the reading of the clock. -/
def judge (c : ReadCall size) (threshold i hb now : ℕ) (out : List UInt8) :
    ReadPc size × ReadEvent :=
  if hb ≠ 0 ∧ threshold < sub64 now hb then (idle, .returned .writerDead out)
  else (loop c (i + 1) out, .internal)

/-- After the load of `s2`. -/
def validate (c : ReadCall size) (i s1 s2 : ℕ) (out : List UInt8) : ReadPc size × ReadEvent :=
  if s1 = s2 then (idle, .returned .success out) else (loop c (i + 1) out, .internal)

/-- One step of `try_read`: where the reader is then, and what it reports. Readers write nothing
shared. `now` is the clock. -/
def step (m : Shared) (now : ℕ) : ReadPc size → ReadLabel size → Option (ReadPc size × ReadEvent)
  | idle, .call c => some (enter c, .called)
  | initial c, .run => some (begin c m.control.sequence)
  | loop c i out, .run => some (test c i out)
  | loadS1 c i out, .run => some (examine c i m.control.sequence out, .loadedS1)
  | loadHeartbeat c threshold i out, .run =>
    some (readClock c threshold i m.control.headReserve out, .internal)
  | readClock c threshold i hb out, .run => some (judge c threshold i hb now out)
  | copy c i s1 j out, .run => some (copying c i s1 (j + 1) (out.set j (m.ring j)), .internal)
  | loadS2 c i s1 out, .run => some (validate c i s1 m.control.sequence out)
  | _, _ => none

/-- Inside a call a reader has only its next step to take. -/
theorem label_of_step {m : Shared} {now : ℕ} {pc pc' : ReadPc size} {l : ReadLabel size}
    {e : ReadEvent} (hpc : pc ≠ .idle) (hs : pc.step m now l = some (pc', e)) : l = .run := by
  cases l with
  | call c =>
    cases pc with
    | idle => exact absurd rfl hpc
    | _ => cases hs
  | run => rfl

end ReadPc

/-- The transitions of a reader, one constructor each, with what the branch taken has found. -/
inductive ReadStep (m : Shared) (now : ℕ) : ReadPc size → ReadPc size → ReadEvent → Prop
  /-- `try_read` is called. -/
  | call (c : ReadCall size) : ReadStep m now .idle (.enter c) .called
  /-- Nothing was written. -/
  | empty (c : ReadCall size) (h : m.control.sequence = 0) :
    ReadStep m now (.initial c) .idle (.returned .empty c.out.1)
  /-- Something was written. -/
  | nonempty (c : ReadCall size) (h : m.control.sequence ≠ 0) :
    ReadStep m now (.initial c) (.loop c 0 c.out.1) .internal
  /-- Another attempt is left. -/
  | attempt (c : ReadCall size) (i : ℕ) (out : List UInt8) (h : i < c.maxRetries) :
    ReadStep m now (.loop c i out) (.loadS1 c i out) .internal
  /-- No attempt is left. -/
  | contended (c : ReadCall size) (i : ℕ) (out : List UInt8) (h : ¬ i < c.maxRetries) :
    ReadStep m now (.loop c i out) .idle (.returned .contended out)
  /-- `s1` is loaded. -/
  | loadS1 (c : ReadCall size) (i : ℕ) (out : List UInt8) :
    ReadStep m now (.loadS1 c i out) (.examine c i m.control.sequence out) .loadedS1
  /-- The heartbeat is loaded. -/
  | loadHeartbeat (c : ReadCall size) (threshold i : ℕ) (out : List UInt8) :
    ReadStep m now (.loadHeartbeat c threshold i out)
      (.readClock c threshold i m.control.headReserve out) .internal
  /-- The heartbeat is too old. -/
  | dead (c : ReadCall size) (threshold i hb : ℕ) (out : List UInt8)
    (h : hb ≠ 0 ∧ threshold < sub64 now hb) :
    ReadStep m now (.readClock c threshold i hb out) .idle (.returned .writerDead out)
  /-- The heartbeat is not too old. -/
  | alive (c : ReadCall size) (threshold i hb : ℕ) (out : List UInt8)
    (h : ¬ (hb ≠ 0 ∧ threshold < sub64 now hb)) :
    ReadStep m now (.readClock c threshold i hb out) (.loop c (i + 1) out) .internal
  /-- A byte is copied. -/
  | copy (c : ReadCall size) (i s1 j : ℕ) (out : List UInt8) :
    ReadStep m now (.copy c i s1 j out) (.copying c i s1 (j + 1) (out.set j (m.ring j))) .internal
  /-- `s2` is `s1`. -/
  | success (c : ReadCall size) (i s1 : ℕ) (out : List UInt8) (h : s1 = m.control.sequence) :
    ReadStep m now (.loadS2 c i s1 out) .idle (.returned .success out)
  /-- `s2` is not `s1`. -/
  | changed (c : ReadCall size) (i s1 : ℕ) (out : List UInt8) (h : s1 ≠ m.control.sequence) :
    ReadStep m now (.loadS2 c i s1 out) (.loop c (i + 1) out) .internal

/-- Every step of a reader is one of the transitions. -/
theorem ReadPc.step_cases {m : Shared} {now : ℕ} {pc pc' : ReadPc size} {l : ReadLabel size}
    {e : ReadEvent} (h : pc.step m now l = some (pc', e)) : ReadStep m now pc pc' e := by
  cases l with
  | call c =>
    cases pc <;> simp only [step, reduceCtorEq] at h
    cases h
    exact .call c
  | run =>
    cases pc <;> simp only [step, reduceCtorEq] at h
    case initial c =>
      simp only [begin] at h
      split_ifs at h with h1
      · cases h; exact .empty c h1
      · cases h; exact .nonempty c h1
    case loop c i out =>
      simp only [test] at h
      split_ifs at h with h1
      · cases h; exact .attempt c i out h1
      · cases h; exact .contended c i out h1
    case readClock c t i hb out =>
      simp only [judge] at h
      split_ifs at h with h1
      · cases h; exact .dead c t i hb out h1
      · cases h; exact .alive c t i hb out h1
    case loadS2 c i s1 out =>
      simp only [validate] at h
      split_ifs at h with h1
      · cases h; exact .success c i s1 out h1
      · cases h; exact .changed c i s1 out h1
    case loadS1 c i out => cases h; exact .loadS1 c i out
    case loadHeartbeat c t i out => cases h; exact .loadHeartbeat c t i out
    case copy c i s1 j out => cases h; exact .copy c i s1 j out

end LfRing.Latest

import LfRing.Library.Machine
import LfRing.Queue.Slots

/-!
# `SPSCQueue`: one producer and one consumer

`try_push`, `try_pop`, `open` and `claim` of `include/lf_ring/spsc_queue.hpp`. Producer and consumer
take one access to a counter or one byte of a slot at a time, in any interleaving. The producer may
die at any step, and another one may come in through `claim`.

The machine starts from a file that exists, with whatever is in it. A value is committed when
`tail_publish` is stored behind it and consumed when `head_publish` is. `PushStep` and `PopStep`
list what a step can do.
-/

namespace LfRing.Queue

/-- `ClaimResult`. -/
inductive ClaimResult
  /-- `kCreated`. -/
  | created
  /-- `kResumed`. -/
  | resumed
  /-- `kRecovered`. -/
  | recovered
deriving DecidableEq, Repr

/-- `claim`, on the file at the path if there is one. -/
def claim (g : Geometry) : Option Mapping → Except String (ClaimResult × Mapping)
  | none => (createMapping g.bytes kFlagFixedSPSC).map fun mapping => (.created, mapping)
  | some file =>
    match openMapping file kFlagFixedSPSC with
    | .error message => .error message
    | .ok mapping =>
      if mapping.capacity ≠ g.bytes then
        .error ("SPSCQueue::claim capacity mismatch: file has " ++ toString mapping.capacity ++
          " bytes, expected " ++ toString g.bytes)
      else .ok (.resumed, mapping)

/-- `open`, on the file at the path. -/
def openFile (g : Geometry) (file : Mapping) : Except String Mapping :=
  match openMapping file kFlagFixedSPSC with
  | .error message => .error message
  | .ok mapping =>
    if mapping.capacity ≠ g.bytes then
      .error ("SPSCQueue::open capacity mismatch: file has " ++ toString mapping.capacity ++
        " bytes, expected " ++ toString g.bytes)
    else .ok mapping

/-- A claim of a file that exists changes nothing in the shared memory. -/
theorem claim_shared {g : Geometry} {file mapping : Mapping} {result : ClaimResult}
    (h : claim g (some file) = .ok (result, mapping)) : mapping.shared = file.shared := by
  simp only [claim] at h
  split at h
  · cases h
  · rename_i opened hopen
    split_ifs at h
    cases h
    exact openMapping_shared hopen

/-- A value of a type of `size` bytes, as its bytes. -/
abbrev Element (size : ℕ) := { bytes : List UInt8 // bytes.length = size }

/-- Where the producer is. -/
inductive PushPc (size : ℕ)
  /-- There is no producer: the last one has died. -/
  | gone
  /-- Between two calls. -/
  | idle
  /-- About to load `tail_publish`. -/
  | loadTail (v : Element size)
  /-- About to load `head_publish`. -/
  | loadHead (v : Element size) (t : ℕ)
  /-- About to copy byte `i` of the value into the slot. -/
  | copy (v : Element size) (t i : ℕ)
  /-- About to store `tail_publish`. -/
  | storeTail (v : Element size) (t : ℕ)

/-- What the producer may do next. -/
inductive PushLabel (size : ℕ)
  /-- Call `try_push`. -/
  | call (v : Element size)
  /-- Take the next step. -/
  | run
  /-- Die. -/
  | crash

/-- What the producer's step reports. -/
inductive PushEvent (size : ℕ)
  /-- A step inside a call, or the start of one. -/
  | internal
  /-- A call has returned false. -/
  | refused
  /-- `tail_publish` has been stored behind the value, and the call has returned true. -/
  | pushed (v : Element size)
  /-- The producer has died. -/
  | crashed

/-- Where the consumer is, with what `out` holds by then. -/
inductive PopPc
  /-- Between two calls. -/
  | idle
  /-- About to load `head_publish`. -/
  | loadHead (out : List UInt8)
  /-- About to load `tail_publish`. -/
  | loadTail (h : ℕ) (out : List UInt8)
  /-- About to copy byte `i` out of the slot. -/
  | copy (h i : ℕ) (out : List UInt8)
  /-- About to store `head_publish`. -/
  | storeHead (h : ℕ) (out : List UInt8)

/-- What the consumer may do next. -/
inductive PopLabel (size : ℕ)
  /-- Call `try_pop`, with what `out` holds. -/
  | call (out : Element size)
  /-- Take the next step. -/
  | run

/-- What the consumer's step reports. -/
inductive PopEvent
  /-- A step inside a call, or the start of one. -/
  | internal
  /-- A call has returned false. -/
  | refused
  /-- `head_publish` has been stored, and the call has returned true with this value. -/
  | popped (out : List UInt8)

variable (g : Geometry)

namespace PushPc

variable {g}

/-- With `i` bytes of the value copied. -/
def copying (v : Element g.sizeofT) (t i : ℕ) : PushPc g.sizeofT :=
  if i < g.sizeofT then copy v t i else storeTail v t

/-- After the load of `head_publish`: the queue may be full. -/
def decideFull (v : Element g.sizeofT) (t h : ℕ) : PushPc g.sizeofT × PushEvent g.sizeofT :=
  if g.capacity ≤ sub64 t h then (idle, .refused) else (copying v t 0, .internal)

variable (g) in
/-- One step of the producer: its effect on the shared memory, where the producer is then, and what
it reports. -/
def step (m : Shared) : PushPc g.sizeofT → PushLabel g.sizeofT →
    Option (Effect × PushPc g.sizeofT × PushEvent g.sizeofT)
  | _, .crash => some (.none, gone, .crashed)
  | idle, .call v => some (.none, loadTail v, .internal)
  | loadTail v, .run => some (.none, loadHead v m.control.tailPublish, .internal)
  | loadHead v t, .run => some (.none, decideFull v t m.control.headPublish)
  | copy v t i, .run =>
    some (.ring ⟨g.slot t + i, [v.1.getD i 0]⟩, copying v t (i + 1), .internal)
  | storeTail v t, .run => some (.tailPublish (u64 (t + 1)), idle, .pushed v)
  | _, _ => none

/-- The counter whose slot the producer has begun to fill, and not yet published. -/
def writing? : PushPc g.sizeofT → Option ℕ
  | copy _ t _ => some t
  | storeTail _ t => some t
  | _ => none

end PushPc

namespace PopPc

/-- With `i` bytes of the value copied. -/
def copying (h i : ℕ) (out : List UInt8) : PopPc :=
  if i < g.sizeofT then copy h i out else storeHead h out

/-- After the load of `tail_publish`: the queue may be empty. -/
def decideEmpty (h t : ℕ) (out : List UInt8) : PopPc × PopEvent :=
  if h = t then (idle, .refused) else (copying g h 0 out, .internal)

/-- One step of the consumer: its effect on the shared memory, where the consumer is then, and what
it reports. -/
def step (m : Shared) : PopPc → PopLabel g.sizeofT → Option (Effect × PopPc × PopEvent)
  | idle, .call out => some (.none, loadHead out.1, .internal)
  | loadHead out, .run => some (.none, loadTail m.control.headPublish out, .internal)
  | loadTail h out, .run => some (.none, decideEmpty g h m.control.tailPublish out)
  | copy h i out, .run =>
    some (.none, copying g h (i + 1) (out.set i (m.ring (g.slot h + i))), .internal)
  | storeHead h out, .run => some (.headPublish (u64 (h + 1)), idle, .popped out)
  | _, _ => none

/-- The counter whose slot the consumer has begun to read, and not yet given back. -/
def reading? : PopPc → Option ℕ
  | copy h _ _ => some h
  | storeHead h _ => some h
  | _ => none

end PopPc

/-! ## The machine -/

/-- The shared memory and the place of the two parties. -/
structure State where
  /-- The shared memory. -/
  mem : Shared
  /-- Where the producer is. -/
  producer : PushPc g.sizeofT
  /-- Where the consumer is. -/
  consumer : PopPc

/-- Who moves next. -/
inductive Label
  /-- The producer. -/
  | producer (l : PushLabel g.sizeofT)
  /-- The consumer. -/
  | consumer (l : PopLabel g.sizeofT)
  /-- Another process, which calls `claim` in place of a producer that has died. -/
  | claim

/-- What a step reports. -/
inductive Event
  /-- The producer's step. -/
  | producer (e : PushEvent g.sizeofT)
  /-- The consumer's step. -/
  | consumer (e : PopEvent)
  /-- `claim` has returned. -/
  | claimed (result : ClaimResult)
  /-- `claim` has thrown. -/
  | claimFailed (message : String)

variable {g}

/-- `claim` on a file whose shared memory is that of the state. -/
def State.claim (file : Mapping) (s : State g) : State g × Event g :=
  match Queue.claim g (some { file with shared := s.mem }) with
  | .ok (result, mapping) => ({ s with mem := mapping.shared, producer := .idle }, .claimed result)
  | .error message => (s, .claimFailed message)

/-- One step of the producer, of the consumer, or of a process that claims the file. -/
def step (file : Mapping) (s : State g) : Label g → Option (State g × Event g)
  | .producer l =>
    match s.producer.step g s.mem l with
    | none => none
    | some (eff, pc, e) => some ({ s with mem := eff.apply s.mem, producer := pc }, .producer e)
  | .consumer l =>
    match s.consumer.step g s.mem l with
    | none => none
    | some (eff, pc, e) => some ({ s with mem := eff.apply s.mem, consumer := pc }, .consumer e)
  | .claim =>
    match s.producer with
    | .gone => some (s.claim file)
    | _ => none

variable (g) in
/-- Producer and consumer on a file. -/
def machine (file : Mapping) : Machine (State g) (Label g) (Event g) where
  init := ⟨file.shared, .idle, .idle⟩
  step := step file

/-! ## What has happened so far -/

/-- The value that an event commits. -/
def Event.pushed? : Event g → List (List UInt8)
  | .producer (.pushed v) => [v.1]
  | _ => []

/-- The value that an event consumes. -/
def Event.popped? : Event g → List (List UInt8)
  | .consumer (.popped out) => [out]
  | _ => []

/-- The values whose push has advanced `tail_publish`, in order. -/
def pushed (tr : List (Event g)) : List (List UInt8) := tr.flatMap Event.pushed?

/-- The values whose pop has advanced `head_publish`, in order. -/
def popped (tr : List (Event g)) : List (List UInt8) := tr.flatMap Event.popped?

/-- One more step adds the element that it pushes, if it pushes one. -/
@[simp] theorem pushed_append (tr : List (Event g)) (e : Event g) :
    pushed (tr ++ [e]) = pushed tr ++ e.pushed? := by
  simp [pushed]

/-- One more step adds the element that it pops, if it pops one. -/
@[simp] theorem popped_append (tr : List (Event g)) (e : Event g) :
    popped (tr ++ [e]) = popped tr ++ e.popped? := by
  simp [popped]

/-! ## What a step can do -/

/-- The transitions of the producer, one constructor each, with what the branch taken has found. -/
inductive PushStep (m : Shared) : PushPc g.sizeofT → Effect → PushPc g.sizeofT →
    PushEvent g.sizeofT → Prop
  /-- The producer dies. -/
  | crash (pc : PushPc g.sizeofT) : PushStep m pc .none .gone .crashed
  /-- `try_push` is called. -/
  | call (v : Element g.sizeofT) : PushStep m .idle .none (.loadTail v) .internal
  /-- `tail_publish` is loaded. -/
  | loadTail (v : Element g.sizeofT) :
    PushStep m (.loadTail v) .none (.loadHead v m.control.tailPublish) .internal
  /-- The queue is full. -/
  | refuse (v : Element g.sizeofT) (t : ℕ) : PushStep m (.loadHead v t) .none .idle .refused
  /-- There is room. -/
  | accept (v : Element g.sizeofT) (t : ℕ) (h : sub64 t m.control.headPublish < g.capacity) :
    PushStep m (.loadHead v t) .none (.copying v t 0) .internal
  /-- A byte of the value is copied. -/
  | copy (v : Element g.sizeofT) (t i : ℕ) :
    PushStep m (.copy v t i) (.ring ⟨g.slot t + i, [v.1.getD i 0]⟩) (.copying v t (i + 1)) .internal
  /-- `tail_publish` is stored. -/
  | store (v : Element g.sizeofT) (t : ℕ) :
    PushStep m (.storeTail v t) (.tailPublish (u64 (t + 1))) .idle (.pushed v)

/-- Every step of the producer is one of these. -/
theorem PushPc.step_cases {m : Shared} {pc pc' : PushPc g.sizeofT} {l : PushLabel g.sizeofT}
    {eff : Effect} {e : PushEvent g.sizeofT} (h : pc.step g m l = some (eff, pc', e)) :
    PushStep m pc eff pc' e := by
  cases l with
  | crash =>
    cases pc <;> cases h <;> exact .crash _
  | call v =>
    cases pc <;> cases h
    exact .call v
  | run =>
    cases pc with
    | gone => cases h
    | idle => cases h
    | loadTail v =>
      cases h
      exact .loadTail v
    | loadHead v t =>
      simp only [step, decideFull] at h
      split_ifs at h with hfull
      · cases h
        exact .refuse v t
      · cases h
        exact .accept v t (Nat.lt_of_not_le hfull)
    | copy v t i =>
      cases h
      exact .copy v t i
    | storeTail v t =>
      cases h
      exact .store v t

/-- The transitions of the consumer. -/
inductive PopStep (g : Geometry) (m : Shared) : PopPc → Effect → PopPc → PopEvent → Prop
  /-- `try_pop` is called. -/
  | call (out : Element g.sizeofT) : PopStep g m .idle .none (.loadHead out.1) .internal
  /-- `head_publish` is loaded. -/
  | loadHead (out : List UInt8) :
    PopStep g m (.loadHead out) .none (.loadTail m.control.headPublish out) .internal
  /-- The queue is empty. -/
  | refuse (h : ℕ) (out : List UInt8) : PopStep g m (.loadTail h out) .none .idle .refused
  /-- There is a value. -/
  | accept (h : ℕ) (out : List UInt8) (hne : h ≠ m.control.tailPublish) :
    PopStep g m (.loadTail h out) .none (.copying g h 0 out) .internal
  /-- A byte of the value is copied. -/
  | copy (h i : ℕ) (out : List UInt8) :
    PopStep g m (.copy h i out) .none (.copying g h (i + 1) (out.set i (m.ring (g.slot h + i))))
      .internal
  /-- `head_publish` is stored. -/
  | store (h : ℕ) (out : List UInt8) :
    PopStep g m (.storeHead h out) (.headPublish (u64 (h + 1))) .idle (.popped out)

/-- Every step of the consumer is one of these. -/
theorem PopPc.step_cases {m : Shared} {pc pc' : PopPc} {l : PopLabel g.sizeofT} {eff : Effect}
    {e : PopEvent} (h : pc.step g m l = some (eff, pc', e)) : PopStep g m pc eff pc' e := by
  cases l with
  | call out =>
    cases pc <;> cases h
    exact .call out
  | run =>
    cases pc with
    | idle => cases h
    | loadHead out =>
      cases h
      exact .loadHead out
    | loadTail p out =>
      simp only [step, decideEmpty] at h
      split_ifs at h with hempty
      · cases h
        exact .refuse p out
      · cases h
        exact .accept p out hempty
    | copy p i out =>
      cases h
      exact .copy p i out
    | storeHead p out =>
      cases h
      exact .store p out

/-- A pop returns false only if `tail_publish` is what `head_publish` was. -/
theorem PopPc.empty_of_refused {m : Shared} {pc pc' : PopPc} {l : PopLabel g.sizeofT} {eff : Effect}
    (h : pc.step g m l = some (eff, pc', .refused)) :
    ∃ p out, pc = .loadTail p out ∧ p = m.control.tailPublish := by
  cases PopPc.step_cases h with
  | refuse p out =>
    refine ⟨p, out, rfl, ?_⟩
    by_contra hne
    cases l with
    | call out' => cases h
    | run =>
      simp only [step, decideEmpty, if_neg hne, Option.some.injEq, Prod.mk.injEq, reduceCtorEq,
        and_false] at h

section System

variable {file : Mapping} {s s' : State g} {e : Event g}

/-- A step of the producer. -/
theorem step_producer {l : PushLabel g.sizeofT} (h : step file s (.producer l) = some (s', e)) :
    ∃ eff pc pe, s.producer.step g s.mem l = some (eff, pc, pe) ∧
      s' = { s with mem := eff.apply s.mem, producer := pc } ∧ e = .producer pe := by
  simp only [step] at h
  split at h
  · cases h
  · rename_i eff pc pe hstep
    cases h
    exact ⟨eff, pc, pe, hstep, rfl, rfl⟩

/-- A step of the consumer. -/
theorem step_consumer {l : PopLabel g.sizeofT} (h : step file s (.consumer l) = some (s', e)) :
    ∃ eff pc pe, s.consumer.step g s.mem l = some (eff, pc, pe) ∧
      s' = { s with mem := eff.apply s.mem, consumer := pc } ∧ e = .consumer pe := by
  simp only [step] at h
  split at h
  · cases h
  · rename_i eff pc pe hstep
    cases h
    exact ⟨eff, pc, pe, hstep, rfl, rfl⟩

/-- A claim leaves the shared memory and the consumer as they are, and commits and consumes
nothing. -/
theorem step_claim (h : step file s .claim = some (s', e)) :
    s'.mem = s.mem ∧ s'.consumer = s.consumer ∧ (s'.producer = .idle ∨ s'.producer = .gone) ∧
      e.pushed? = [] ∧ e.popped? = [] := by
  simp only [step] at h
  split at h
  · rename_i hgone
    simp only [State.claim, Option.some.injEq] at h
    split at h
    · rename_i result mapping hclaim
      cases h
      exact ⟨claim_shared hclaim, rfl, Or.inl rfl, rfl, rfl⟩
    · cases h
      exact ⟨rfl, rfl, Or.inr hgone, rfl, rfl⟩
  · cases h

end System

end LfRing.Queue

import Mathlib.Data.List.Forall2
import LfRing.Ring.WriterInvariant

/-!
# The single consumer's `try_pop`

`try_pop_internal` of `src/shared_ring_buffer.cpp` and of `src/shared_ring_buffer_spsc.cpp`, as a
machine that takes one access to the shared memory at a time. The two functions differ in one thing:
`SharedRingBuffer` stores `head_publish` before `head_reserve`, and `SharedRingBufferSPSC` after it
(`HeadOrder`).

`ReaderInv` is what a single consumer keeps, over the stream of what is published. The chunks it has
passed are `passed`, the ring has the chunks `ahead` from `head_publish` to `tail_publish`, and what
has been consumed are the records passed, one by one. There is one lemma for each decision of
`try_pop` (`ok_compareHead`, `ok_examineFlags`, ...), and `ReaderInv.step` is the case analysis that
uses them. `ReaderInv.publish` is the producers' part: it needs of their steps only what
`ProducerView` says.
-/

namespace LfRing

/-- The arguments of `try_pop`: the contents of the caller's vector, and whether a sequence number
is asked for. -/
structure PopCall where
  /-- The bytes in the vector `out` when `try_pop` is called. -/
  out : List UInt8
  /-- Whether `sequence` is not null. -/
  wantSequence : Bool
deriving DecidableEq, Repr

/-- What a call that returns true leaves in its arguments. -/
structure Popped where
  /-- The vector. -/
  out : List UInt8
  /-- The type. -/
  type : ℕ
  /-- The sequence number, if asked for. -/
  sequence : Option ℕ
deriving DecidableEq, Repr

/-- The vector after `if (out.size() < payload_size) out.resize(payload_size)`. -/
def resized (out : List UInt8) (size : ℕ) : List UInt8 :=
  out ++ List.replicate (size - out.length) 0

/-- Which of the two head counters is stored first. -/
inductive HeadOrder
  /-- `head_publish` first, as in `SharedRingBuffer`. -/
  | publishFirst
  /-- `head_reserve` first, as in `SharedRingBufferSPSC`. -/
  | reserveFirst
deriving DecidableEq, Repr

/-- What follows the stores of the head. -/
inductive PopThen
  /-- Another pass of the loop. -/
  | again (c : PopCall)
  /-- Return true. -/
  | done (c : PopCall) (res : Popped)

/-- Where the consumer is in `try_pop`. -/
inductive PopPc
  /-- Between two calls. -/
  | idle
  /-- About to load `tail_publish`. -/
  | loadTail (c : PopCall)
  /-- About to load `head_publish`. -/
  | loadHead (c : PopCall) (tail : ℕ)
  /-- About to load the flags of the header at the head. -/
  | loadFlags (c : PopCall) (tail head : ℕ)
  /-- About to load the size in the header. -/
  | loadSize (c : PopCall) (tail head : ℕ)
  /-- About to copy byte `i` of the payload. -/
  | copy (c : PopCall) (head size i : ℕ) (out : List UInt8)
  /-- About to load the type in the header. -/
  | loadType (c : PopCall) (head size : ℕ) (out : List UInt8)
  /-- About to load the sequence number in the header. -/
  | loadSequence (c : PopCall) (head size : ℕ) (out : List UInt8) (type : ℕ)
  /-- About to store `head_publish`, as the second of the two stores if `last`. -/
  | publish (head : ℕ) (k : PopThen) (last : Bool)
  /-- About to store `head_reserve`, as the second of the two stores if `last`. -/
  | reserve (head : ℕ) (k : PopThen) (last : Bool)

/-- What the consumer may do next. -/
inductive PopLabel
  /-- Call `try_pop`. -/
  | call (c : PopCall)
  /-- Take the next step. -/
  | run

/-- What the consumer's step reports. -/
inductive PopEvent
  /-- A call has begun, or a step inside one. -/
  | internal
  /-- `tail_publish` has been loaded. -/
  | loadedTail
  /-- A call has returned false. -/
  | refused
  /-- `head_publish` has been stored behind a record, which the call has not yet returned. -/
  | consumed (c : PopCall) (res : Popped)
  /-- A call has returned true. Its last store was that of `head_publish` if `consumes`. -/
  | returned (c : PopCall) (res : Popped) (consumes : Bool)

namespace PopPc

/-- The first of the two stores of the new head. -/
def advance (order : HeadOrder) (head : ℕ) (k : PopThen) : PopPc :=
  match order with
  | .publishFirst => publish head k false
  | .reserveFirst => reserve head k false

/-- After the load of `head_publish`: nothing to pop, an end of the ring too short for a header, or
a header to look at. -/
def compareHead (order : HeadOrder) (cap : ℕ) (c : PopCall) (tail head : ℕ) : PopPc × PopEvent :=
  let remaining := cap - head % cap
  if head = tail then (idle, .refused)
  else if remaining < sizeofRecordHeader then
    (advance order (u64 (head + remaining)) (.again c), .internal)
  else (loadFlags c tail head, .internal)

/-- After the load of the flags: a wrap record or a record. -/
def examineFlags (order : HeadOrder) (cap : ℕ) (c : PopCall) (tail head flags : ℕ) : PopPc :=
  if flags &&& kWrapFlag ≠ 0 then advance order (u64 (head + (cap - head % cap))) (.again c)
  else loadSize c tail head

/-- With `i` bytes of the payload copied. -/
def copying (c : PopCall) (head size i : ℕ) (out : List UInt8) : PopPc :=
  if i < size then copy c head size i out else loadType c head size out

/-- After the load of the size: the two checks, and then the vector grows if it has to. -/
def examineSize (cap : ℕ) (c : PopCall) (tail head size : ℕ) : PopPc × PopEvent :=
  if cap - head % cap < recordSize size then (idle, .refused)
  else if sub64 tail head < recordSize size then (idle, .refused)
  else (copying c head size 0 (resized c.out size), .internal)

/-- After the load of the type. -/
def examineType (order : HeadOrder) (c : PopCall) (head size : ℕ) (out : List UInt8) (type : ℕ) :
    PopPc :=
  if c.wantSequence then loadSequence c head size out type
  else advance order (u64 (head + recordSize size)) (.done c ⟨out, type, none⟩)

/-- After the second store of the head. -/
def resume (consumes : Bool) : PopThen → PopPc × PopEvent
  | .again c => (loadTail c, .internal)
  | .done c res => (idle, .returned c res consumes)

/-- After the store of `head_publish`. -/
def published (head : ℕ) (k : PopThen) : Bool → PopPc × PopEvent
  | true => resume true k
  | false => (reserve head k true,
      match k with | .again _ => .internal | .done c res => .consumed c res)

/-- After the store of `head_reserve`. -/
def reserved (head : ℕ) (k : PopThen) : Bool → PopPc × PopEvent
  | true => resume false k
  | false => (publish head k true, .internal)

/-- One step of `try_pop_internal`: its effect on the shared memory, where the consumer is then, and
what it reports. -/
def step (order : HeadOrder) (cap : ℕ) (m : Shared) :
    PopPc → PopLabel → Option (Effect × PopPc × PopEvent)
  | idle, .call c => some (.none, loadTail c, .internal)
  | loadTail c, .run => some (.none, loadHead c m.control.tailPublish, .loadedTail)
  | loadHead c tail, .run => some (.none, compareHead order cap c tail m.control.headPublish)
  | loadFlags c tail head, .run =>
    some (.none, examineFlags order cap c tail head (m.ring.load (head % cap + 6) 2), .internal)
  | loadSize c tail head, .run =>
    some (.none, examineSize cap c tail head (m.ring.load (head % cap) 4))
  | copy c head size i out, .run =>
    some (.none, copying c head size (i + 1)
      (out.set i (m.ring (head % cap + sizeofRecordHeader + i))), .internal)
  | loadType c head size out, .run =>
    some (.none, examineType order c head size out (m.ring.load (head % cap + 4) 2), .internal)
  | loadSequence c head size out type, .run =>
    some (.none, advance order (u64 (head + recordSize size))
      (.done c ⟨out, type, some (m.ring.load (head % cap + 8) 8)⟩), .internal)
  | publish head k last, .run => some (.headPublish head, published head k last)
  | reserve head k last, .run => some (.headReserve head, reserved head k last)
  | _, _ => none

end PopPc

/-- The transitions of `try_pop`, one constructor each, with what the branch taken has found. -/
inductive PopStep (order : HeadOrder) (cap : ℕ) (m : Shared) :
    PopPc → Effect → PopPc → PopEvent → Prop
  /-- A call begins. -/
  | call (c : PopCall) : PopStep order cap m .idle .none (.loadTail c) .internal
  /-- The load of `tail_publish`. -/
  | loadTail (c : PopCall) :
    PopStep order cap m (.loadTail c) .none (.loadHead c m.control.tailPublish) .loadedTail
  /-- The load of `head_publish`, where nothing is ahead. -/
  | empty (c : PopCall) (tail : ℕ) (h : m.control.headPublish = tail) :
    PopStep order cap m (.loadHead c tail) .none .idle .refused
  /-- The load of `head_publish`, at an end of the ring too short for a header. -/
  | skip (c : PopCall) (tail : ℕ) (h : m.control.headPublish ≠ tail)
    (h' : cap - m.control.headPublish % cap < 16) :
    PopStep order cap m (.loadHead c tail) .none (.advance order
      (u64 (m.control.headPublish + (cap - m.control.headPublish % cap))) (.again c)) .internal
  /-- The load of `head_publish`, at a header. -/
  | header (c : PopCall) (tail : ℕ) (h : m.control.headPublish ≠ tail)
    (h' : 16 ≤ cap - m.control.headPublish % cap) :
    PopStep order cap m (.loadHead c tail) .none (.loadFlags c tail m.control.headPublish) .internal
  /-- The flags of a wrap record. -/
  | wrap (c : PopCall) (tail head : ℕ) (h : m.ring.load (head % cap + 6) 2 &&& kWrapFlag ≠ 0) :
    PopStep order cap m (.loadFlags c tail head) .none
      (.advance order (u64 (head + (cap - head % cap))) (.again c)) .internal
  /-- The flags of a record. -/
  | record (c : PopCall) (tail head : ℕ) (h : m.ring.load (head % cap + 6) 2 &&& kWrapFlag = 0) :
    PopStep order cap m (.loadFlags c tail head) .none (.loadSize c tail head) .internal
  /-- A size that one of the two checks refuses. -/
  | badSize (c : PopCall) (tail head : ℕ)
    (h : cap - head % cap < recordSize (m.ring.load (head % cap) 4) ∨
      sub64 tail head < recordSize (m.ring.load (head % cap) 4)) :
    PopStep order cap m (.loadSize c tail head) .none .idle .refused
  /-- A size that passes. -/
  | size (c : PopCall) (tail head : ℕ) :
    PopStep order cap m (.loadSize c tail head) .none
      (.copying c head (m.ring.load (head % cap) 4) 0 (resized c.out (m.ring.load (head % cap) 4)))
      .internal
  /-- A byte of the payload. -/
  | copy (c : PopCall) (head size i : ℕ) (out : List UInt8) :
    PopStep order cap m (.copy c head size i out) .none
      (.copying c head size (i + 1) (out.set i (m.ring (head % cap + 16 + i)))) .internal
  /-- The type, with no sequence number asked for. -/
  | type (c : PopCall) (head size : ℕ) (out : List UInt8) (h : c.wantSequence = false) :
    PopStep order cap m (.loadType c head size out) .none
      (.advance order (u64 (head + recordSize size))
        (.done c ⟨out, m.ring.load (head % cap + 4) 2, none⟩)) .internal
  /-- The type, with the sequence number to follow. -/
  | typeThen (c : PopCall) (head size : ℕ) (out : List UInt8) (h : c.wantSequence = true) :
    PopStep order cap m (.loadType c head size out) .none
      (.loadSequence c head size out (m.ring.load (head % cap + 4) 2)) .internal
  /-- The sequence number. -/
  | sequence (c : PopCall) (head size : ℕ) (out : List UInt8) (type : ℕ) :
    PopStep order cap m (.loadSequence c head size out type) .none
      (.advance order (u64 (head + recordSize size))
        (.done c ⟨out, type, some (m.ring.load (head % cap + 8) 8)⟩)) .internal
  /-- The store of `head_publish`. -/
  | publish (head : ℕ) (k : PopThen) (last : Bool) :
    PopStep order cap m (.publish head k last) (.headPublish head) (PopPc.published head k last).1
      (PopPc.published head k last).2
  /-- The store of `head_reserve`. -/
  | reserve (head : ℕ) (k : PopThen) (last : Bool) :
    PopStep order cap m (.reserve head k last) (.headReserve head) (PopPc.reserved head k last).1
      (PopPc.reserved head k last).2

/-- Every step of the consumer is one of the transitions. -/
theorem PopPc.step_cases {order : HeadOrder} {cap : ℕ} {m : Shared} {pc pc' : PopPc} {l : PopLabel}
    {eff : Effect} {e : PopEvent} (h : pc.step order cap m l = some (eff, pc', e)) :
    PopStep order cap m pc eff pc' e := by
  cases pc <;> cases l <;> simp only [PopPc.step, reduceCtorEq] at h
  case idle.call c => cases h; exact .call c
  case loadTail.run c => cases h; exact .loadTail c
  case loadHead.run c tail =>
    simp only [compareHead] at h
    split_ifs at h with h1 h2
    · cases h; exact .empty c tail h1
    · cases h; exact .skip c tail h1 h2
    · cases h; exact .header c tail h1 (not_lt.mp h2)
  case loadFlags.run c tail head =>
    simp only [examineFlags] at h
    split_ifs at h with h1
    · cases h; exact .wrap c tail head h1
    · cases h; exact .record c tail head (not_not.mp h1)
  case loadSize.run c tail head =>
    simp only [examineSize] at h
    split_ifs at h with h1 h2
    · cases h; exact .badSize c tail head (.inl h1)
    · cases h; exact .badSize c tail head (.inr h2)
    · cases h; exact .size c tail head
  case copy.run c head size i out => cases h; exact .copy c head size i out
  case loadType.run c head size out =>
    simp only [examineType] at h
    split_ifs at h with h1
    · cases h; exact .typeThen c head size out h1
    · cases h; exact .type c head size out (Bool.not_eq_true _ ▸ h1)
  case loadSequence.run c head size out type => cases h; exact .sequence c head size out type
  case publish.run head k last =>
    have : PopStep order cap m _ _ _ _ := .publish head k last
    obtain ⟨rfl, heq⟩ := Prod.mk.inj (Option.some.inj h)
    rwa [heq] at this
  case reserve.run head k last =>
    have : PopStep order cap m _ _ _ _ := .reserve head k last
    obtain ⟨rfl, heq⟩ := Prod.mk.inj (Option.some.inj h)
    rwa [heq] at this

namespace PopEvent

/-- The result that a step consumes: the one whose record `head_publish` has just passed. -/
def consumed? : PopEvent → List (PopCall × Popped)
  | consumed c res => [(c, res)]
  | returned c res true => [(c, res)]
  | _ => []

/-- The result that a step returns. -/
def returned? : PopEvent → List (PopCall × Popped)
  | returned c res _ => [(c, res)]
  | _ => []

/-- What was published when `tail_publish` was last loaded, given what is published now. -/
def seen (now before : List Chunk) : PopEvent → List Chunk
  | loadedTail => now
  | _ => before

end PopEvent

/-! ## What the consumer keeps -/

/-- What `try_pop` must return for a record: the payload over the old contents of the vector, the
type, and the sequence number if asked for. -/
def Popped.Of (c : PopCall) (r : Record) (res : Popped) : Prop :=
  res.out = r.payload ++ c.out.drop r.payload.length ∧ res.type = r.type ∧
    res.sequence = if c.wantSequence then some r.sequence else none

/-- What the stores of the new head are about: another pass behind a filler, or a record that is to
be returned. -/
def PopThen.For (m : Shared) (ahead : List Chunk) (head : ℕ) : PopThen → Prop
  | .again _ => ∃ c rest, ahead = c :: rest ∧ c.record? = none ∧
      head = m.control.headPublish + c.length
  | .done c res => ∃ r rest, ahead = .record r :: rest ∧ res.Of c r ∧
      head = m.control.headPublish + recordSize r.payload.length

namespace PopPc

/-- The result that has been consumed but not yet returned. -/
def unreturned : PopPc → List (PopCall × Popped)
  | reserve _ (.done c res) true => [(c, res)]
  | _ => []

/-- The tail that the consumer has loaded is the end of a part of the stream ahead, and everything
published when it was loaded is either passed or in that part. -/
def TailOk (cap : ℕ) (m : Shared) (passed ahead seen : List Chunk) (tail : ℕ) : Prop :=
  ∃ pre post, ahead = pre ++ post ∧ seen = passed ++ pre ∧
    Stream cap m.ring m.control.headPublish pre tail

/-- What the consumer knows at its place in `try_pop`, where `seen` is what was published when it
last loaded `tail_publish`. -/
def Ok (cap : ℕ) (m : Shared) (passed ahead seen : List Chunk) : PopPc → Prop
  | idle => True
  | loadTail _ => True
  | loadHead _ tail => TailOk cap m passed ahead seen tail
  | loadFlags _ tail head => TailOk cap m passed ahead seen tail ∧ head = m.control.headPublish ∧
      head ≠ tail ∧ 16 ≤ cap - head % cap
  | loadSize _ tail head => TailOk cap m passed ahead seen tail ∧ head = m.control.headPublish ∧
      head ≠ tail ∧ ∃ r rest, ahead = .record r :: rest
  | copy c head size i out => head = m.control.headPublish ∧ i < size ∧
      ∃ r rest, ahead = .record r :: rest ∧ size = r.payload.length ∧
        out = r.payload.take i ++ (resized c.out size).drop i
  | loadType c head size out => head = m.control.headPublish ∧
      ∃ r rest, ahead = .record r :: rest ∧ size = r.payload.length ∧
        out = r.payload ++ c.out.drop size
  | loadSequence c head size out type => head = m.control.headPublish ∧ c.wantSequence = true ∧
      ∃ r rest, ahead = .record r :: rest ∧ size = r.payload.length ∧
        out = r.payload ++ c.out.drop size ∧ type = r.type
  | publish head k _ => k.For m ahead head
  | reserve head k false => k.For m ahead head
  | reserve _ _ true => True

/-- The call that the consumer is in. -/
def call? : PopPc → Option PopCall
  | idle => none
  | loadTail c => some c
  | loadHead c _ => some c
  | loadFlags c _ _ => some c
  | loadSize c _ _ => some c
  | copy c _ _ _ _ => some c
  | loadType c _ _ _ => some c
  | loadSequence c _ _ _ _ => some c
  | publish _ (.again c) _ => some c
  | publish _ (.done c _) _ => some c
  | reserve _ (.again c) _ => some c
  | reserve _ (.done c _) _ => some c

/-- The consumer compares with the tail it has loaded. -/
def comparing : PopPc → Bool
  | loadHead _ _ => true
  | loadFlags _ _ _ => true
  | loadSize _ _ _ => true
  | _ => false

/-- A consumer that moves the head over a filler is still in its call. -/
@[simp] theorem call?_advance_again (order : HeadOrder) (head : ℕ) (c : PopCall) :
    (advance order head (.again c)).call? = some c := by
  cases order <;> rfl

/-- A consumer that moves the head over a record is still in its call. -/
@[simp] theorem call?_advance_done (order : HeadOrder) (head : ℕ) (c : PopCall) (res : Popped) :
    (advance order head (.done c res)).call? = some c := by
  cases order <;> rfl

/-- A consumer that copies the payload is still in its call. -/
@[simp] theorem call?_copying (c : PopCall) (head size i : ℕ) (out : List UInt8) :
    (copying c head size i out).call? = some c := by
  unfold copying
  split <;> rfl

/-- A consumer that moves the head no longer compares with the tail. -/
@[simp] theorem comparing_advance (order : HeadOrder) (head : ℕ) (k : PopThen) :
    (advance order head k).comparing = false := by
  cases order <;> rfl

/-- A consumer that copies the payload no longer compares with the tail. -/
@[simp] theorem comparing_copying (c : PopCall) (head size i : ℕ) (out : List UInt8) :
    (copying c head size i out).comparing = false := by
  unfold copying
  split <;> rfl

/-- At the first store of the new head nothing has been consumed yet. -/
@[simp] theorem unreturned_advance (order : HeadOrder) (head : ℕ) (k : PopThen) :
    (advance order head k).unreturned = [] := by
  cases order <;> cases k <;> rfl

/-- While the payload is copied nothing has been consumed yet. -/
@[simp] theorem unreturned_copying (c : PopCall) (head size i : ℕ) (out : List UInt8) :
    (copying c head size i out).unreturned = [] := by
  unfold copying
  split <;> rfl

/-- A call stays the same until it returns, and a result is consumed by the call that returns it. -/
theorem call_step {order : HeadOrder} {cap : ℕ} {m : Shared} {pc pc' : PopPc} {l : PopLabel}
    {eff : Effect} {e : PopEvent} (hs : pc.step order cap m l = some (eff, pc', e)) :
    (∀ c, pc'.call? = some c → pc.call? = some c ∨ l = .call c) ∧
      ∀ p ∈ e.consumed?, pc.call? = some p.1 := by
  cases l with
  | call c =>
    cases pc <;> cases hs
    refine ⟨?_, by simp [PopEvent.consumed?]⟩
    rintro _ ⟨⟩
    exact Or.inr rfl
  | run =>
    -- Apart from the stores of the head, no step consumes, and all keep the call or end it.
    cases step_cases hs with
    | call c => cases hs
    | publish head k last =>
      cases k <;> cases last <;>
        exact ⟨by rintro _ ⟨⟩ <;> exact Or.inl rfl, by simp [published, resume, PopEvent.consumed?,
          call?]⟩
    | reserve head k last =>
      cases k <;> cases last <;>
        exact ⟨by rintro _ ⟨⟩ <;> exact Or.inl rfl, by simp [reserved, resume, PopEvent.consumed?]⟩
    | empty c tail h => exact ⟨by rintro _ ⟨⟩, by simp [PopEvent.consumed?]⟩
    | badSize c tail head h => exact ⟨by rintro _ ⟨⟩, by simp [PopEvent.consumed?]⟩
    | skip c tail h h' =>
      exact ⟨fun _ hc => Or.inl ((call?_advance_again _ _ _).symm.trans hc), by
        simp [PopEvent.consumed?]⟩
    | wrap c tail head h =>
      exact ⟨fun _ hc => Or.inl ((call?_advance_again _ _ _).symm.trans hc), by
        simp [PopEvent.consumed?]⟩
    | size c tail head =>
      exact ⟨fun _ hc => Or.inl ((call?_copying _ _ _ _ _).symm.trans hc), by
        simp [PopEvent.consumed?]⟩
    | copy c head size i out =>
      exact ⟨fun _ hc => Or.inl ((call?_copying _ _ _ _ _).symm.trans hc), by
        simp [PopEvent.consumed?]⟩
    | type c head size out h =>
      exact ⟨fun _ hc => Or.inl ((call?_advance_done _ _ _ _).symm.trans hc), by
        simp [PopEvent.consumed?]⟩
    | sequence c head size out type =>
      exact ⟨fun _ hc => Or.inl ((call?_advance_done _ _ _ _).symm.trans hc), by
        simp [PopEvent.consumed?]⟩
    | _ => exact ⟨fun _ hc => Or.inl hc, by simp [PopEvent.consumed?]⟩

/-- The consumer compares from its load of `tail_publish` on. As long as it does it returns nothing
but false, and nothing else returns false. -/
theorem comparing_step {order : HeadOrder} {cap : ℕ} {m : Shared} {pc pc' : PopPc} {l : PopLabel}
    {eff : Effect} {e : PopEvent} (hs : pc.step order cap m l = some (eff, pc', e)) :
    (pc'.comparing = true → e.returned? = [] ∧
      (e = .loadedTail ∨ e ≠ .loadedTail ∧ pc.comparing = true)) ∧
    (e = .refused → pc.comparing = true) ∧ (e = .loadedTail → pc.unreturned = []) := by
  cases step_cases hs with
  | publish head k last =>
    cases k <;> cases last <;> exact ⟨by rintro ⟨⟩, by rintro ⟨⟩, by rintro ⟨⟩⟩
  | reserve head k last =>
    cases k <;> cases last <;> exact ⟨by rintro ⟨⟩, by rintro ⟨⟩, by rintro ⟨⟩⟩
  | copy c head size i out =>
    exact ⟨fun h => absurd ((comparing_copying _ _ _ _ _).symm.trans h) (by decide), by rintro ⟨⟩,
      by rintro ⟨⟩⟩
  | type c head size out h =>
    exact ⟨fun h => absurd ((comparing_advance _ _ _).symm.trans h) (by decide), by rintro ⟨⟩,
      by rintro ⟨⟩⟩
  | sequence c head size out type =>
    exact ⟨fun h => absurd ((comparing_advance _ _ _).symm.trans h) (by decide), by rintro ⟨⟩,
      by rintro ⟨⟩⟩
  | _ => simp [comparing, PopEvent.returned?, unreturned]

/-- What is consumed is returned by the same call, at the latest with its second store. -/
theorem unreturned_step {order : HeadOrder} {cap : ℕ} {m : Shared} {pc pc' : PopPc} {l : PopLabel}
    {eff : Effect} {e : PopEvent} (hs : pc.step order cap m l = some (eff, pc', e)) :
    pc.unreturned ++ e.consumed? = e.returned? ++ pc'.unreturned := by
  cases step_cases hs with
  | skip c tail h h' => rw [unreturned_advance]; rfl
  | wrap c tail head h => rw [unreturned_advance]; rfl
  | size c tail head => rw [unreturned_copying]; rfl
  | copy c head size i out => rw [unreturned_copying]; rfl
  | type c head size out h => rw [unreturned_advance]; rfl
  | sequence c head size out type => rw [unreturned_advance]; rfl
  | publish head k last => cases last <;> cases k <;> rfl
  | reserve head k last => cases last <;> cases k <;> rfl
  | _ => rfl

end PopPc

/-- The invariant of the consumer: what it has passed, what is ahead of it, what was published when
it last loaded `tail_publish`, and what has been consumed. -/
structure ReaderInv (cap : ℕ) (m : Shared) (pc : PopPc) (passed ahead seen : List Chunk)
    (consumed : List (PopCall × Popped)) : Prop where
  /-- The ring has what is ahead. -/
  stream : Stream cap m.ring m.control.headPublish ahead m.control.tailPublish
  /-- The records passed have been consumed, each once and in order. -/
  consumed : List.Forall₂ (fun p r => p.2.Of p.1 r) consumed (records passed)
  /-- What the consumer knows. -/
  ok : pc.Ok cap m passed ahead seen

/-- What the producers see of the consumer's step. -/
structure ConsumerView (m m' : Shared) : Prop where
  /-- `head_publish` moves forward. -/
  le_headPublish : m.control.headPublish ≤ m'.control.headPublish
  /-- It stays behind `tail_publish`. -/
  headPublish_le : m'.control.headPublish ≤ m.control.tailPublish
  /-- `tail_publish` is the producers'. -/
  tailPublish_eq : m'.control.tailPublish = m.control.tailPublish
  /-- `tail_reserve` is the producers'. -/
  tailReserve_eq : m'.control.tailReserve = m.control.tailReserve
  /-- The sequence counter is the producers'. -/
  sequence_eq : m'.control.sequence = m.control.sequence
  /-- The consumer does not write to the ring. -/
  ring_eq : m'.ring = m.ring

namespace ConsumerView

variable {m m' m'' : Shared}

/-- A step that changes nothing. -/
theorem refl (h : m.control.headPublish ≤ m.control.tailPublish) : ConsumerView m m :=
  ⟨le_rfl, h, rfl, rfl, rfl, rfl⟩

/-- Two steps, one behind the other. -/
theorem trans (h : ConsumerView m m') (h' : ConsumerView m' m'') : ConsumerView m m'' :=
  ⟨h.le_headPublish.trans h'.le_headPublish, h'.headPublish_le.trans (le_of_eq h.tailPublish_eq),
    h'.tailPublish_eq.trans h.tailPublish_eq, h'.tailReserve_eq.trans h.tailReserve_eq,
    h'.sequence_eq.trans h.sequence_eq, h'.ring_eq.trans h.ring_eq⟩

end ConsumerView

/-- Growing a vector to the size of a payload and writing the payload over it. -/
theorem take_append_drop_resized (payload out : List UInt8) :
    payload.take payload.length ++ (resized out payload.length).drop payload.length =
      payload ++ out.drop payload.length := by
  rw [List.take_length, resized, List.drop_append]
  simp

/-- One more byte of the payload, written over the vector. -/
theorem set_copied {payload rest : List UInt8} {i : ℕ} (hi : i < payload.length)
    (hrest : i < rest.length) :
    (payload.take i ++ rest.drop i).set i payload[i] =
      payload.take (i + 1) ++ rest.drop (i + 1) := by
  have hlen : (payload.take i).length = i := by simp; omega
  rw [List.set_append_right _ _ (by omega), hlen, Nat.sub_self, List.drop_eq_getElem_cons hrest,
    List.set_cons_zero, List.take_succ_eq_append_getElem hi, List.append_assoc]
  rfl

namespace ReaderInv

variable {order : HeadOrder} {cap : ℕ} {m m' : Shared} {pc pc' : PopPc}
  {passed ahead seen new : List Chunk} {consumed : List (PopCall × Popped)} {e : PopEvent}

/-- A fresh ring with the consumer idle. -/
theorem fresh (cap : ℕ) : ReaderInv cap Shared.fresh .idle [] [] [] [] :=
  ⟨rfl, .nil, trivial⟩

/-- A new head is not past `tail_publish`, so it has not wrapped. -/
theorem u64_add_length (h : ReaderInv cap m pc passed ahead seen consumed)
    (hlt : m.control.tailPublish < 2^64) {c : Chunk} {rest : List Chunk} (ha : ahead = c :: rest) :
    u64 (m.control.headPublish + c.length) = m.control.headPublish + c.length := by
  have hs := h.stream
  rw [ha] at hs
  have hle := hs.2.2.le
  exact u64_of_lt (by omega)

/-- The chunk at the head, where the tail that was loaded is further on. -/
theorem exists_ahead (h : ReaderInv cap m pc passed ahead seen consumed) {tail : ℕ}
    (ht : PopPc.TailOk cap m passed ahead seen tail) (hne : m.control.headPublish ≠ tail) :
    ∃ c rest, ahead = c :: rest ∧ c.Fits cap m.control.headPublish ∧
      c.At cap m.ring m.control.headPublish ∧ m.control.headPublish + c.length ≤ tail := by
  obtain ⟨pre, post, rfl, -, hpre⟩ := ht
  obtain ⟨c, ds, rfl⟩ := hpre.exists_cons hne
  exact ⟨c, ds ++ post, rfl, hpre.1, hpre.2.1, hpre.2.2.le⟩

/-- The two stores of a new head may begin. -/
theorem ok_advance {head : ℕ} {k : PopThen} (h : k.For m ahead head) :
    (PopPc.advance order head k).Ok cap m passed ahead seen := by
  cases order with
  | publishFirst => exact h
  | reserveFirst => exact h

/-- The copy of a payload, with `i` bytes done. -/
theorem ok_copying {c : PopCall} {r : Record} {rest : List Chunk} {i : ℕ}
    (ha : ahead = .record r :: rest) (hi : i ≤ r.payload.length) :
    (PopPc.copying c m.control.headPublish r.payload.length i
      (r.payload.take i ++ (resized c.out r.payload.length).drop i)).Ok cap m passed
        ahead seen := by
  unfold PopPc.copying
  split_ifs with hlt
  · exact ⟨rfl, hlt, r, rest, ha, rfl, rfl⟩
  · obtain rfl : i = r.payload.length := by omega
    exact ⟨rfl, r, rest, ha, rfl, take_append_drop_resized _ _⟩

/-- At the end of the ring where no header has room, the chunk at the head is a skip. -/
theorem for_skip (h : ReaderInv cap m pc passed ahead seen consumed)
    (hlt : m.control.tailPublish < 2^64) (c : PopCall) {tail : ℕ}
    (ht : PopPc.TailOk cap m passed ahead seen tail) (hne : m.control.headPublish ≠ tail)
    (hshort : cap - m.control.headPublish % cap < 16) :
    (PopThen.again c).For m ahead
      (u64 (m.control.headPublish + (cap - m.control.headPublish % cap))) := by
  obtain ⟨d, rest, ha, hfit, -, -⟩ := h.exists_ahead ht hne
  obtain ⟨hnone, hlen⟩ := hfit.of_short hshort
  refine ⟨d, rest, ha, hnone, ?_⟩
  rw [← hlen]
  exact h.u64_add_length hlt ha

/-- A header with the wrap flag is that of a wrap record. -/
theorem for_wrap (h : ReaderInv cap m pc passed ahead seen consumed)
    (hlt : m.control.tailPublish < 2^64) (c : PopCall) {tail : ℕ}
    (ht : PopPc.TailOk cap m passed ahead seen tail) (hne : m.control.headPublish ≠ tail)
    (hroom : 16 ≤ cap - m.control.headPublish % cap)
    (hflag : m.ring.load (m.control.headPublish % cap + 6) 2 &&& kWrapFlag ≠ 0) :
    (PopThen.again c).For m ahead
      (u64 (m.control.headPublish + (cap - m.control.headPublish % cap))) := by
  obtain ⟨d, rest, ha, hfit, hat, -⟩ := h.exists_ahead ht hne
  obtain ⟨hnone, hlen⟩ := hat.of_wrapFlag hfit hroom hflag
  refine ⟨d, rest, ha, hnone, ?_⟩
  rw [← hlen]
  exact h.u64_add_length hlt ha

/-- A header without the wrap flag is that of a record. -/
theorem exists_record (h : ReaderInv cap m pc passed ahead seen consumed) {tail : ℕ}
    (ht : PopPc.TailOk cap m passed ahead seen tail) (hne : m.control.headPublish ≠ tail)
    (hroom : 16 ≤ cap - m.control.headPublish % cap)
    (hflag : m.ring.load (m.control.headPublish % cap + 6) 2 &&& kWrapFlag = 0) :
    ∃ r rest, ahead = .record r :: rest := by
  obtain ⟨d, rest, ha, hfit, hat, -⟩ := h.exists_ahead ht hne
  obtain ⟨r, rfl⟩ := hat.of_not_wrapFlag hfit hroom hflag
  exact ⟨r, rest, ha⟩

/-- The record at the head, with its bytes. -/
theorem record_at (h : ReaderInv cap m pc passed ahead seen consumed) {r : Record}
    {rest : List Chunk} (ha : ahead = .record r :: rest) :
    (Chunk.record r).Fits cap m.control.headPublish ∧
      (Chunk.record r).At cap m.ring m.control.headPublish := by
  have hs := h.stream
  rw [ha] at hs
  exact ⟨hs.1, hs.2.1⟩

/-- Neither check refuses the size of a record at the head. -/
theorem not_badSize (h : ReaderInv cap m pc passed ahead seen consumed)
    (hlt : m.control.tailPublish < 2^64) {tail : ℕ}
    (ht : PopPc.TailOk cap m passed ahead seen tail) (hne : m.control.headPublish ≠ tail)
    {r : Record} {rest : List Chunk} (ha : ahead = .record r :: rest) :
    ¬ (cap - m.control.headPublish % cap < recordSize r.payload.length ∨
      sub64 tail m.control.headPublish < recordSize r.payload.length) := by
  obtain ⟨hfit, -⟩ := h.record_at ha
  -- The tail is the end of a part of the stream that has the record, and not past `tail_publish`.
  obtain ⟨d, ds, ha', -, -, hle⟩ := h.exists_ahead ht hne
  obtain ⟨pre, post, hsplit, -, hpre⟩ := ht
  have htail : tail < 2^64 := by
    have hs := h.stream
    rw [hsplit] at hs
    exact lt_of_le_of_lt (hs.le_of_append hpre) hlt
  rw [ha] at ha'
  obtain ⟨rfl, -⟩ := List.cons.inj ha'
  simp only [Chunk.length] at hle
  have hsub : sub64 tail m.control.headPublish = tail - m.control.headPublish :=
    sub64_of_le (by omega) htail
  have hroom := hfit.1
  rw [hsub]
  omega

/-- A step without effect on the shared memory, and with no new result. -/
theorem of_silent (h : ReaderInv cap m pc passed ahead seen consumed)
    (hok : pc'.Ok cap m passed ahead (e.seen (passed ++ ahead) seen)) (he : e.consumed? = [])
    (href : e = .refused → seen = passed) :
    ∃ passed' ahead', passed' ++ ahead' = passed ++ ahead ∧
      ReaderInv cap m pc' passed' ahead' (e.seen (passed ++ ahead) seen)
        (consumed ++ e.consumed?) ∧
      ConsumerView m m ∧ (e = .refused → seen = passed) := by
  refine ⟨passed, ahead, rfl, ⟨h.stream, ?_, hok⟩, ?_, href⟩
  · rw [he, List.append_nil]
    exact h.consumed
  · exact ⟨le_rfl, h.stream.le, rfl, rfl, rfl, rfl⟩

/-- The store of `head_publish` passes one chunk, and consumes its record if it is one. -/
theorem of_publish {head : ℕ} {k : PopThen} {last : Bool}
    (h : ReaderInv cap m (.publish head k last) passed ahead seen consumed) :
    ∃ passed' ahead', passed' ++ ahead' = passed ++ ahead ∧
      ReaderInv cap ((Effect.headPublish head).apply m) (PopPc.published head k last).1 passed'
        ahead' seen (consumed ++ (PopPc.published head k last).2.consumed?) ∧
      ConsumerView m ((Effect.headPublish head).apply m) := by
  -- What is passed is the chunk that `k` is about, whichever it is.
  obtain ⟨c, rest, ha, hhead, hrec⟩ : ∃ c rest, ahead = c :: rest ∧
      head = m.control.headPublish + c.length ∧
      List.Forall₂ (fun p r => p.2.Of p.1 r) (PopPc.published head k last).2.consumed?
        (records [c]) := by
    have hok := h.ok
    cases k with
    | again c =>
      obtain ⟨d, rest, ha, hnone, hhead⟩ := hok
      refine ⟨d, rest, ha, hhead, ?_⟩
      have hrec : records [d] = [] := by simp [records, hnone]
      rw [hrec]
      cases last <;> exact .nil
    | done c res =>
      obtain ⟨r, rest, ha, hof, hhead⟩ := hok
      refine ⟨.record r, rest, ha, hhead, ?_⟩
      cases last <;> exact .cons hof .nil
  have hs := h.stream
  rw [ha] at hs
  have hle := hs.2.2.le
  refine ⟨passed ++ [c], rest, by rw [ha]; simp, ⟨?_, ?_, ?_⟩, ?_⟩
  · rw [hhead]
    exact hs.2.2
  · rw [records_append]
    exact List.rel_append h.consumed hrec
  · -- Behind the store nothing is left to know: the consumer starts again or returns.
    cases last <;> cases k <;> trivial
  · refine ⟨?_, ?_, rfl, rfl, rfl, rfl⟩
    · change m.control.headPublish ≤ head
      omega
    · change head ≤ m.control.tailPublish
      omega

/-- The store of `head_reserve` changes nothing that the invariant is about. -/
theorem of_reserve {head : ℕ} {k : PopThen} {last : Bool}
    (h : ReaderInv cap m (.reserve head k last) passed ahead seen consumed) :
    ReaderInv cap ((Effect.headReserve head).apply m) (PopPc.reserved head k last).1 passed ahead
      seen (consumed ++ (PopPc.reserved head k last).2.consumed?) ∧
    ConsumerView m ((Effect.headReserve head).apply m) := by
  have hnone : (PopPc.reserved head k last).2.consumed? = [] := by
    cases last <;> cases k <;> rfl
  refine ⟨⟨h.stream, by rw [hnone, List.append_nil]; exact h.consumed, ?_⟩,
    ⟨le_rfl, h.stream.le, rfl, rfl, rfl, rfl⟩⟩
  have hok := h.ok
  cases last with
  | false => cases k <;> exact hok
  | true => cases k <;> trivial

/-- Every step of the consumer keeps the invariant: it passes chunks from the front of what is
ahead, consumes the records among them, and returns false only if all that it saw published is
passed. -/
theorem step (h : ReaderInv cap m pc passed ahead seen consumed)
    (hlt : m.control.tailPublish < 2^64) {l : PopLabel} {eff : Effect}
    (hs : pc.step order cap m l = some (eff, pc', e)) :
    ∃ passed' ahead', passed' ++ ahead' = passed ++ ahead ∧
      ReaderInv cap (eff.apply m) pc' passed' ahead' (e.seen (passed ++ ahead) seen)
        (consumed ++ e.consumed?) ∧
      ConsumerView m (eff.apply m) ∧ (e = .refused → seen = passed) := by
  have hok := h.ok
  cases PopPc.step_cases hs with
  | call c => exact h.of_silent trivial rfl (by rintro ⟨⟩)
  | loadTail c =>
    have htail : PopPc.TailOk cap m passed ahead (passed ++ ahead) m.control.tailPublish :=
      ⟨ahead, [], (List.append_nil _).symm, rfl, h.stream⟩
    exact h.of_silent htail rfl (by rintro ⟨⟩)
  | empty c tail heq =>
    refine h.of_silent trivial rfl fun _ => ?_
    -- The tail is where the head is, so nothing lay between them when it was loaded.
    obtain ⟨pre, post, -, hseen, hpre⟩ := hok
    rw [← heq] at hpre
    rw [hseen, hpre.eq_nil, List.append_nil]
  | skip c tail hne hshort =>
    exact h.of_silent (ok_advance (h.for_skip hlt c hok hne hshort)) rfl (by rintro ⟨⟩)
  | header c tail hne hroom => exact h.of_silent ⟨hok, rfl, hne, hroom⟩ rfl (by rintro ⟨⟩)
  | wrap c tail head hflag =>
    obtain ⟨ht, rfl, hne, hroom⟩ := hok
    exact h.of_silent (ok_advance (h.for_wrap hlt c ht hne hroom hflag)) rfl (by rintro ⟨⟩)
  | record c tail head hflag =>
    obtain ⟨ht, rfl, hne, hroom⟩ := hok
    exact h.of_silent ⟨ht, rfl, hne, h.exists_record ht hne hroom hflag⟩ rfl (by rintro ⟨⟩)
  | badSize c tail head hbad =>
    obtain ⟨ht, rfl, hne, r, rest, ha⟩ := hok
    obtain ⟨hfit, hat⟩ := h.record_at ha
    rw [hat.record_size hfit] at hbad
    exact absurd hbad (h.not_badSize hlt ht hne ha)
  | size c tail head =>
    obtain ⟨ht, rfl, hne, r, rest, ha⟩ := hok
    obtain ⟨hfit, hat⟩ := h.record_at ha
    rw [hat.record_size hfit]
    exact h.of_silent (ok_copying (i := 0) ha (Nat.zero_le _)) rfl (by rintro ⟨⟩)
  | copy c head size i out =>
    obtain ⟨rfl, hi, r, rest, ha, rfl, rfl⟩ := hok
    obtain ⟨-, hat⟩ := h.record_at ha
    have hlen : i < (resized c.out r.payload.length).length := by simp [resized]; omega
    rw [hat.record_byte hi, set_copied hi hlen]
    exact h.of_silent (ok_copying ha hi) rfl (by rintro ⟨⟩)
  | type c head size out hwant =>
    obtain ⟨rfl, r, rest, ha, rfl, rfl⟩ := hok
    obtain ⟨hfit, hat⟩ := h.record_at ha
    refine h.of_silent (ok_advance ⟨r, rest, ha, ⟨rfl, hat.record_type hfit, ?_⟩,
      h.u64_add_length hlt ha⟩) rfl (by rintro ⟨⟩)
    rw [hwant]
    rfl
  | typeThen c head size out hwant =>
    obtain ⟨rfl, r, rest, ha, rfl, rfl⟩ := hok
    obtain ⟨hfit, hat⟩ := h.record_at ha
    exact h.of_silent ⟨rfl, hwant, r, rest, ha, rfl, rfl, hat.record_type hfit⟩ rfl
      (by rintro ⟨⟩)
  | sequence c head size out type =>
    obtain ⟨rfl, hwant, r, rest, ha, rfl, rfl, rfl⟩ := hok
    obtain ⟨hfit, hat⟩ := h.record_at ha
    refine h.of_silent (ok_advance ⟨r, rest, ha, ⟨rfl, rfl, ?_⟩, h.u64_add_length hlt ha⟩) rfl
      (by rintro ⟨⟩)
    rw [hwant, hat.record_sequence hfit]
    rfl
  | publish head k last =>
    obtain ⟨passed', ahead', heq, hinv, hview⟩ := h.of_publish
    refine ⟨passed', ahead', heq, ?_, hview, ?_⟩
    · cases last <;> cases k <;> exact hinv
    · cases last <;> cases k <;> rintro ⟨⟩
  | reserve head k last =>
    obtain ⟨hinv, hview⟩ := h.of_reserve
    refine ⟨passed, ahead, rfl, ?_, hview, ?_⟩
    · cases last <;> cases k <;> exact hinv
    · cases last <;> cases k <;> rintro ⟨⟩

/-- The steps of the producers keep the invariant: what they publish comes behind what is ahead. -/
theorem publish (h : ReaderInv cap m pc passed ahead seen consumed)
    (hv : ProducerView cap m m' new) :
    ReaderInv cap m' pc passed (ahead ++ new) seen consumed := by
  have hhead := hv.headPublish_eq
  have hstream : Stream cap m'.ring m'.control.headPublish (ahead ++ new)
      m'.control.tailPublish := by
    rw [hhead]
    exact (h.stream.frame hv.agree).append hv.stream
  refine ⟨hstream, h.consumed, ?_⟩
  -- A tail that the consumer holds still ends a part of the stream, whose bytes have stayed.
  have htail : ∀ tail, PopPc.TailOk cap m passed ahead seen tail →
      PopPc.TailOk cap m' passed (ahead ++ new) seen tail := by
    rintro tail ⟨pre, post, rfl, hseen, hpre⟩
    have hle := h.stream.le_of_append hpre
    refine ⟨pre, post ++ new, List.append_assoc _ _ _, hseen, ?_⟩
    rw [hhead]
    exact hpre.frame (hv.agree.mono le_rfl hle)
  have hfor : ∀ head k, PopThen.For m ahead head k → PopThen.For m' (ahead ++ new) head k := by
    intro head k hk
    cases k with
    | again c =>
      obtain ⟨d, rest, rfl, hnone, heq⟩ := hk
      exact ⟨d, rest ++ new, rfl, hnone, by rw [hhead]; exact heq⟩
    | done c res =>
      obtain ⟨r, rest, rfl, hof, heq⟩ := hk
      exact ⟨r, rest ++ new, rfl, hof, by rw [hhead]; exact heq⟩
  have hok := h.ok
  cases pc with
  | idle => trivial
  | loadTail c => trivial
  | loadHead c tail => exact htail tail hok
  | loadFlags c tail head =>
    obtain ⟨ht, heq, hrest⟩ := hok
    exact ⟨htail tail ht, by rw [hhead]; exact heq, hrest⟩
  | loadSize c tail head =>
    obtain ⟨ht, heq, hne, r, rest, rfl⟩ := hok
    exact ⟨htail tail ht, by rw [hhead]; exact heq, hne, r, rest ++ new, rfl⟩
  | copy c head size i out =>
    obtain ⟨heq, hi, r, rest, rfl, hrest⟩ := hok
    exact ⟨by rw [hhead]; exact heq, hi, r, rest ++ new, rfl, hrest⟩
  | loadType c head size out =>
    obtain ⟨heq, r, rest, rfl, hrest⟩ := hok
    exact ⟨by rw [hhead]; exact heq, r, rest ++ new, rfl, hrest⟩
  | loadSequence c head size out type =>
    obtain ⟨heq, hwant, r, rest, rfl, hrest⟩ := hok
    exact ⟨by rw [hhead]; exact heq, hwant, r, rest ++ new, rfl, hrest⟩
  | publish head k last => exact hfor head k hok
  | reserve head k last =>
    cases last with
    | false => exact hfor head k hok
    | true => trivial

end ReaderInv

end LfRing

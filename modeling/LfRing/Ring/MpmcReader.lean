import LfRing.Ring.Reader

/-!
# The many consumers' `try_pop`

`SharedRingBufferMPMC::try_pop` of `src/shared_ring_buffer_mpmc.cpp`, as a machine that takes one
access to the shared memory at a time. A consumer loads `tail_publish` and `head_reserve`, looks at
the header there, and claims the chunk with a compare-exchange on `head_reserve`, which may also
fail spuriously. Then it copies the record, waits until `head_publish` reaches its chunk, and moves
`head_publish` behind it.

Before its compare-exchange a consumer knows nothing for certain: another consumer may claim the
chunk it looks at, and the producers may then write over it. What it knows is what holds if
`head_reserve` has not moved (`Pc.Ok`), and since the counter never returns to an old value, that is
what holds when the compare-exchange succeeds. Afterwards the chunk is the consumer's own (`Owns`),
and its bytes stay until `head_publish` has passed it.
-/

namespace LfRing.Mpmc

/-- What a compare-exchange on `head_reserve` is for. -/
inductive Claim
  /-- To pass the end of the ring. -/
  | again (c : PopCall)
  /-- To take a record with a payload of `size` bytes. -/
  | take (c : PopCall) (size : ℕ)

/-- Where a consumer is in `try_pop`. From the compare-exchange on, `head` and `newHead` are the
bounds of the chunk it has claimed. -/
inductive Pc
  /-- Between two calls. -/
  | idle
  /-- About to load `tail_publish`. -/
  | loadTail (c : PopCall)
  /-- About to load `head_reserve`. -/
  | loadHead (c : PopCall) (tail : ℕ)
  /-- About to load the flags of the header at the head. -/
  | loadFlags (c : PopCall) (tail head : ℕ)
  /-- About to load the size in the header. -/
  | loadSize (c : PopCall) (tail head : ℕ)
  /-- About to claim a chunk by compare-exchange. -/
  | cas (head newHead : ℕ) (k : Claim)
  /-- About to copy byte `i` of the payload. -/
  | copy (c : PopCall) (head newHead size i : ℕ) (out : List UInt8)
  /-- About to load the type in the header. -/
  | loadType (c : PopCall) (head newHead : ℕ) (out : List UInt8)
  /-- About to load the sequence number in the header. -/
  | loadSequence (c : PopCall) (head newHead : ℕ) (out : List UInt8) (type : ℕ)
  /-- Waiting for `head_publish` to reach the chunk. -/
  | awaitTurn (head newHead : ℕ) (k : PopThen)
  /-- About to store `head_publish`. -/
  | publish (head newHead : ℕ) (k : PopThen)

/-- What a consumer may do next. -/
inductive PopLabel
  /-- Call `try_pop`. -/
  | call (c : PopCall)
  /-- Take the next step. -/
  | run
  /-- Let the compare-exchange fail spuriously. -/
  | fail

/-- What a consumer's step reports. -/
inductive PopEvent
  /-- A step inside a call. -/
  | internal
  /-- A call has returned false. -/
  | refused
  /-- A call has returned true, for the record it found at position `head`. -/
  | returned (head : ℕ) (c : PopCall) (res : Popped)

/-- The call that a compare-exchange belongs to. -/
def Claim.call : Claim → PopCall
  | again c => c
  | take c _ => c

namespace Pc

/-- After the load of `head_reserve`: nothing to pop, an end of the ring too short for a header, or
a header to look at. `available` is computed modulo `2^64`. -/
def compareHead (cap : ℕ) (c : PopCall) (tail head : ℕ) : Pc × PopEvent :=
  let remaining := cap - head % cap
  let available := sub64 tail head
  if head = tail then (idle, .refused)
  else if remaining < sizeofRecordHeader then
    if available < remaining then (idle, .refused)
    else (cas head (u64 (head + remaining)) (.again c), .internal)
  else if available < sizeofRecordHeader then (idle, .refused)
  else (loadFlags c tail head, .internal)

/-- After the load of the flags: a wrap record or a record. -/
def examineFlags (cap : ℕ) (c : PopCall) (tail head flags : ℕ) : Pc × PopEvent :=
  let remaining := cap - head % cap
  if flags &&& kWrapFlag ≠ 0 then
    if sub64 tail head < remaining then (idle, .refused)
    else (cas head (u64 (head + remaining)) (.again c), .internal)
  else (loadSize c tail head, .internal)

/-- After the load of the size: the two checks. -/
def examineSize (cap : ℕ) (c : PopCall) (tail head size : ℕ) : Pc × PopEvent :=
  if cap - head % cap < recordSize size then (idle, .refused)
  else if sub64 tail head < recordSize size then (idle, .refused)
  else (cas head (u64 (head + recordSize size)) (.take c size), .internal)

/-- With `i` bytes of the payload copied. -/
def copying (c : PopCall) (head newHead size i : ℕ) (out : List UInt8) : Pc :=
  if i < size then copy c head newHead size i out else loadType c head newHead out

/-- After a compare-exchange that has succeeded. -/
def claimed (head newHead : ℕ) : Claim → Pc
  | .again c => awaitTurn head newHead (.again c)
  | .take c size => copying c head newHead size 0 (resized c.out size)

/-- The compare-exchange. -/
def exchange (m : Shared) (head newHead : ℕ) (k : Claim) : Effect × Pc :=
  if m.control.headReserve = head then (.headReserve newHead, claimed head newHead k)
  else (.none, loadTail k.call)

/-- The result of a call, whose sequence number the shorter overload drops. -/
def result (c : PopCall) (out : List UInt8) (type sequence : ℕ) : Popped :=
  ⟨out, type, if c.wantSequence then some sequence else none⟩

/-- After the store of `head_publish`. -/
def published (head : ℕ) : PopThen → Pc × PopEvent
  | .again c => (loadTail c, .internal)
  | .done c res => (idle, .returned head c res)

/-- One step of `try_pop`: its effect on the shared memory, where the consumer is then, and what it
reports. -/
def step (cap : ℕ) (m : Shared) : Pc → PopLabel → Option (Effect × Pc × PopEvent)
  | idle, .call c => some (.none, loadTail c, .internal)
  | loadTail c, .run => some (.none, loadHead c m.control.tailPublish, .internal)
  | loadHead c tail, .run => some (.none, compareHead cap c tail m.control.headReserve)
  | loadFlags c tail head, .run =>
    some (.none, examineFlags cap c tail head (m.ring.load (head % cap + 6) 2))
  | loadSize c tail head, .run =>
    some (.none, examineSize cap c tail head (m.ring.load (head % cap) 4))
  | cas head newHead k, .run =>
    some ((exchange m head newHead k).1, (exchange m head newHead k).2, .internal)
  | cas _ _ k, .fail => some (.none, loadTail k.call, .internal)
  | copy c head newHead size i out, .run =>
    some (.none, copying c head newHead size (i + 1)
      (out.set i (m.ring (head % cap + sizeofRecordHeader + i))), .internal)
  | loadType c head newHead out, .run =>
    some (.none, loadSequence c head newHead out (m.ring.load (head % cap + 4) 2), .internal)
  | loadSequence c head newHead out type, .run =>
    some (.none, awaitTurn head newHead
      (.done c (result c out type (m.ring.load (head % cap + 8) 8))), .internal)
  | awaitTurn head newHead k, .run =>
    some (.none, if m.control.headPublish = head then publish head newHead k
      else awaitTurn head newHead k, .internal)
  | publish head newHead k, .run => some (.headPublish newHead, published head k)
  | _, _ => none

end Pc

/-- The transitions of `try_pop`, one constructor each, with what the branch taken has found. The
checks that make a call return false are not told apart. -/
inductive PopStep (cap : ℕ) (m : Shared) : Pc → Effect → Pc → PopEvent → Prop
  /-- A call begins. -/
  | call (c : PopCall) : PopStep cap m .idle .none (.loadTail c) .internal
  /-- The load of `tail_publish`. -/
  | loadTail (c : PopCall) :
    PopStep cap m (.loadTail c) .none (.loadHead c m.control.tailPublish) .internal
  /-- A check fails. -/
  | refuse (pc : Pc) : PopStep cap m pc .none .idle .refused
  /-- The load of `head_reserve`, at an end of the ring too short for a header. -/
  | skip (c : PopCall) (tail : ℕ) (h : m.control.headReserve ≠ tail)
    (h' : cap - m.control.headReserve % cap < 16) :
    PopStep cap m (.loadHead c tail) .none (.cas m.control.headReserve
      (u64 (m.control.headReserve + (cap - m.control.headReserve % cap))) (.again c)) .internal
  /-- The load of `head_reserve`, at a header. -/
  | header (c : PopCall) (tail : ℕ) (h : m.control.headReserve ≠ tail)
    (h' : 16 ≤ cap - m.control.headReserve % cap) :
    PopStep cap m (.loadHead c tail) .none (.loadFlags c tail m.control.headReserve) .internal
  /-- The flags of a wrap record. -/
  | wrap (c : PopCall) (tail head : ℕ) (h : m.ring.load (head % cap + 6) 2 &&& kWrapFlag ≠ 0) :
    PopStep cap m (.loadFlags c tail head) .none
      (.cas head (u64 (head + (cap - head % cap))) (.again c)) .internal
  /-- The flags of a record. -/
  | record (c : PopCall) (tail head : ℕ) (h : m.ring.load (head % cap + 6) 2 &&& kWrapFlag = 0) :
    PopStep cap m (.loadFlags c tail head) .none (.loadSize c tail head) .internal
  /-- A size that passes the checks. -/
  | size (c : PopCall) (tail head : ℕ) :
    PopStep cap m (.loadSize c tail head) .none
      (.cas head (u64 (head + recordSize (m.ring.load (head % cap) 4)))
        (.take c (m.ring.load (head % cap) 4))) .internal
  /-- The compare-exchange succeeds. -/
  | claim (head newHead : ℕ) (k : Claim) (h : m.control.headReserve = head) :
    PopStep cap m (.cas head newHead k) (.headReserve newHead) (.claimed head newHead k) .internal
  /-- The compare-exchange fails. -/
  | retry (head newHead : ℕ) (k : Claim) :
    PopStep cap m (.cas head newHead k) .none (.loadTail k.call) .internal
  /-- A byte of the payload. -/
  | copy (c : PopCall) (head newHead size i : ℕ) (out : List UInt8) :
    PopStep cap m (.copy c head newHead size i out) .none
      (.copying c head newHead size (i + 1) (out.set i (m.ring (head % cap + 16 + i)))) .internal
  /-- The type. -/
  | type (c : PopCall) (head newHead : ℕ) (out : List UInt8) :
    PopStep cap m (.loadType c head newHead out) .none
      (.loadSequence c head newHead out (m.ring.load (head % cap + 4) 2)) .internal
  /-- The sequence number. -/
  | sequence (c : PopCall) (head newHead : ℕ) (out : List UInt8) (type : ℕ) :
    PopStep cap m (.loadSequence c head newHead out type) .none
      (.awaitTurn head newHead (.done c (Pc.result c out type (m.ring.load (head % cap + 8) 8))))
      .internal
  /-- It is not yet the consumer's turn. -/
  | wait (head newHead : ℕ) (k : PopThen) :
    PopStep cap m (.awaitTurn head newHead k) .none (.awaitTurn head newHead k) .internal
  /-- It is the consumer's turn. -/
  | turn (head newHead : ℕ) (k : PopThen) (h : m.control.headPublish = head) :
    PopStep cap m (.awaitTurn head newHead k) .none (.publish head newHead k) .internal
  /-- The store of `head_publish`. -/
  | publish (head newHead : ℕ) (k : PopThen) :
    PopStep cap m (.publish head newHead k) (.headPublish newHead) (Pc.published head k).1
      (Pc.published head k).2

/-- Every step of a consumer is one of the transitions. -/
theorem Pc.step_cases {cap : ℕ} {m : Shared} {pc pc' : Pc} {l : PopLabel} {eff : Effect}
    {e : PopEvent} (h : pc.step cap m l = some (eff, pc', e)) : PopStep cap m pc eff pc' e := by
  cases pc <;> cases l <;> simp only [Pc.step, reduceCtorEq] at h
  case idle.call c => cases h; exact .call c
  case loadTail.run c => cases h; exact .loadTail c
  case loadHead.run c tail =>
    simp only [compareHead] at h
    split_ifs at h with h1 h2 h3 h4
    · cases h; exact .refuse _
    · cases h; exact .refuse _
    · cases h; exact .skip c tail h1 h2
    · cases h; exact .refuse _
    · cases h; exact .header c tail h1 (not_lt.mp h2)
  case loadFlags.run c tail head =>
    simp only [examineFlags] at h
    split_ifs at h with h1 h2
    · cases h; exact .refuse _
    · cases h; exact .wrap c tail head h1
    · cases h; exact .record c tail head (not_not.mp h1)
  case loadSize.run c tail head =>
    simp only [examineSize] at h
    split_ifs at h
    · cases h; exact .refuse _
    · cases h; exact .refuse _
    · cases h; exact .size c tail head
  case cas.run head newHead k =>
    simp only [exchange] at h
    split_ifs at h with h1
    · cases h; exact .claim head newHead k h1
    · cases h; exact .retry head newHead k
  case cas.fail head newHead k => cases h; exact .retry head newHead k
  case copy.run c head newHead size i out => cases h; exact .copy c head newHead size i out
  case loadType.run c head newHead out => cases h; exact .type c head newHead out
  case loadSequence.run c head newHead out type => cases h; exact .sequence c head newHead out type
  case awaitTurn.run head newHead k =>
    split_ifs at h with h1
    · cases h; exact .turn head newHead k h1
    · cases h; exact .wait head newHead k
  case publish.run head newHead k =>
    have : PopStep cap m _ _ _ _ := .publish head newHead k
    obtain ⟨rfl, heq⟩ := Prod.mk.inj (Option.some.inj h)
    rwa [heq] at this

/-! ## What the consumers keep -/

/-- What holds unless `head_reserve` has moved from `head`. -/
def IfStill (m : Shared) (head : ℕ) (p : Prop) : Prop :=
  head ≤ m.control.headReserve ∧ (m.control.headReserve = head → p)

/-- The chunk `d` is claimed, and lies between `head` and `newHead`. -/
def Owns (m : Shared) (claimed : List Chunk) (head newHead : ℕ) (d : Chunk) : Prop :=
  ∃ pre post, claimed = pre ++ d :: post ∧ head = m.control.headPublish + span pre ∧
    newHead = head + d.length

/-- What follows the chunk `d`: another pass behind a filler, or the return of a record. -/
def After (d : Chunk) : PopThen → Prop
  | .again _ => d.record? = none
  | .done c res => ∃ r, d = .record r ∧ res.Of c r

namespace Pc

/-- The position of the chunk that a consumer has claimed. -/
def owned? : Pc → Option ℕ
  | copy _ head _ _ _ _ => some head
  | loadType _ head _ _ => some head
  | loadSequence _ head _ _ _ => some head
  | awaitTurn head _ _ => some head
  | publish head _ _ => some head
  | _ => none

/-- What a consumer knows at its place in `try_pop`. -/
def Ok (cap : ℕ) (m : Shared) (claimed ahead : List Chunk) : Pc → Prop
  | idle => True
  | loadTail _ => True
  | loadHead _ _ => True
  | loadFlags _ _ head => IfStill m head (∃ d rest, ahead = d :: rest) ∧ 16 ≤ cap - head % cap
  | loadSize _ _ head => IfStill m head (∃ r rest, ahead = .record r :: rest)
  | cas head newHead (.again _) => IfStill m head (∃ d rest, ahead = d :: rest ∧
      d.record? = none ∧ newHead = head + d.length)
  | cas head newHead (.take _ size) => IfStill m head (∃ r rest, ahead = .record r :: rest ∧
      size = r.payload.length ∧ newHead = head + recordSize r.payload.length)
  | copy c head newHead size i out => i < size ∧ ∃ r, Owns m claimed head newHead (.record r) ∧
      size = r.payload.length ∧ out = r.payload.take i ++ (resized c.out size).drop i
  | loadType c head newHead out => ∃ r, Owns m claimed head newHead (.record r) ∧
      out = r.payload ++ c.out.drop r.payload.length
  | loadSequence c head newHead out type => ∃ r, Owns m claimed head newHead (.record r) ∧
      out = r.payload ++ c.out.drop r.payload.length ∧ type = r.type
  | awaitTurn head newHead k => ∃ d, Owns m claimed head newHead d ∧ After d k
  | publish head newHead k => (∃ d, Owns m claimed head newHead d ∧ After d k) ∧
      head = m.control.headPublish

/-- What a consumer knows survives the steps of others: `head_reserve` does not go back, what is
ahead only grows while it stays, and chunks that are claimed stay so. -/
theorem Ok.transfer {cap : ℕ} {m m' : Shared} {claimed claimed' ahead ahead' : List Chunk} {pc : Pc}
    (h : pc.Ok cap m claimed ahead)
    (hle : m.control.headReserve ≤ m'.control.headReserve)
    (hstill : m'.control.headReserve = m.control.headReserve → ahead <+: ahead')
    (howns : ∀ head newHead d, pc.owned? = some head → Owns m claimed head newHead d →
      Owns m' claimed' head newHead d)
    (hturn : pc.owned? = some m.control.headPublish →
      m'.control.headPublish = m.control.headPublish) :
    pc.Ok cap m' claimed' ahead' := by
  -- What holds of the front of `ahead` unless `head_reserve` moves is kept as long as it does not.
  have hfront : ∀ (head : ℕ) (p : Chunk → Prop),
      IfStill m head (∃ d rest, ahead = d :: rest ∧ p d) →
      IfStill m' head (∃ d rest, ahead' = d :: rest ∧ p d) := by
    rintro head p ⟨hhead, hp⟩
    refine ⟨le_trans hhead hle, fun heq => ?_⟩
    have hsame : m.control.headReserve = head := by omega
    obtain ⟨d, rest, rfl, hd⟩ := hp hsame
    obtain ⟨more, rfl⟩ := hstill (by omega)
    exact ⟨d, rest ++ more, rfl, hd⟩
  have hrecord : ∀ (head : ℕ) (p : Record → Prop),
      IfStill m head (∃ r rest, ahead = .record r :: rest ∧ p r) →
      IfStill m' head (∃ r rest, ahead' = .record r :: rest ∧ p r) := by
    rintro head p ⟨hhead, hp⟩
    have hchunk := hfront head (fun d => ∃ r, d = .record r ∧ p r) ⟨hhead, fun heq => by
      obtain ⟨r, rest, ha, hr⟩ := hp heq
      exact ⟨_, rest, ha, r, rfl, hr⟩⟩
    refine ⟨hchunk.1, fun heq => ?_⟩
    obtain ⟨_, rest, ha, r, rfl, hr⟩ := hchunk.2 heq
    exact ⟨r, rest, ha, hr⟩
  cases pc with
  | idle => trivial
  | loadTail c => trivial
  | loadHead c tail => trivial
  | loadFlags c tail head =>
    have := hfront head (fun _ => True) (by simpa only [and_true] using h.1)
    exact ⟨by simpa only [and_true] using this, h.2⟩
  | loadSize c tail head =>
    have h' : IfStill m head (∃ r rest, ahead = .record r :: rest) := h
    have := hrecord head (fun _ => True) (by simpa only [and_true] using h')
    change IfStill m' head (∃ r rest, ahead' = .record r :: rest)
    simpa only [and_true] using this
  | cas head newHead k =>
    cases k with
    | again c => exact hfront head (fun d => d.record? = none ∧ newHead = head + d.length) h
    | take c size => exact hrecord head (fun r => size = r.payload.length ∧
        newHead = head + recordSize r.payload.length) h
  | copy c head newHead size i out =>
    obtain ⟨hi, r, ho, hrest⟩ := h
    exact ⟨hi, r, howns _ _ _ rfl ho, hrest⟩
  | loadType c head newHead out =>
    obtain ⟨r, ho, hrest⟩ := h
    exact ⟨r, howns _ _ _ rfl ho, hrest⟩
  | loadSequence c head newHead out type =>
    obtain ⟨r, ho, hrest⟩ := h
    exact ⟨r, howns _ _ _ rfl ho, hrest⟩
  | awaitTurn head newHead k =>
    obtain ⟨d, ho, hk⟩ := h
    exact ⟨d, howns _ _ _ rfl ho, hk⟩
  | publish head newHead k =>
    obtain ⟨⟨d, ho, hk⟩, heq⟩ := h
    refine ⟨⟨d, howns _ _ _ rfl ho, hk⟩, ?_⟩
    rw [hturn (by rw [← heq]; rfl)]
    exact heq

/-- A consumer that has claimed a chunk owns it. -/
theorem Ok.owns {cap : ℕ} {m : Shared} {claimed ahead : List Chunk} {pc : Pc} {head : ℕ}
    (h : pc.Ok cap m claimed ahead) (ho : pc.owned? = some head) :
    ∃ newHead d, Owns m claimed head newHead d := by
  cases pc with
  | copy _ _ _ _ _ _ => cases ho; obtain ⟨-, r, hr, -⟩ := h; exact ⟨_, _, hr⟩
  | loadType _ _ _ _ => cases ho; obtain ⟨r, hr, -⟩ := h; exact ⟨_, _, hr⟩
  | loadSequence _ _ _ _ _ => cases ho; obtain ⟨r, hr, -⟩ := h; exact ⟨_, _, hr⟩
  | awaitTurn _ _ _ => cases ho; obtain ⟨d, hd, -⟩ := h; exact ⟨_, _, hd⟩
  | publish _ _ _ => cases ho; obtain ⟨⟨d, hd, -⟩, -⟩ := h; exact ⟨_, _, hd⟩
  | _ => cases ho

/-- A consumer that copies the payload owns the chunk at `head`. -/
@[simp] theorem owned?_copying (c : PopCall) (head newHead size i : ℕ) (out : List UInt8) :
    (copying c head newHead size i out).owned? = some head := by
  unfold copying
  split <;> rfl

/-- A consumer owns a chunk from the compare-exchange on. -/
@[simp] theorem owned?_claimed (head newHead : ℕ) (k : Claim) :
    (claimed head newHead k).owned? = some head := by
  cases k with
  | again c => rfl
  | take c size => exact owned?_copying _ _ _ _ _ _

/-- The copy of a payload, with `i` bytes done. -/
theorem ok_copying {cap : ℕ} {m : Shared} {claimed ahead : List Chunk} {c : PopCall} {r : Record}
    {head newHead i : ℕ} (ho : Owns m claimed head newHead (.record r))
    (hi : i ≤ r.payload.length) :
    (copying c head newHead r.payload.length i
      (r.payload.take i ++ (resized c.out r.payload.length).drop i)).Ok cap m claimed ahead := by
  unfold copying
  split_ifs with hlt
  · exact ⟨hlt, r, ho, rfl, rfl⟩
  · obtain rfl : i = r.payload.length := by omega
    exact ⟨r, ho, take_append_drop_resized _ _⟩

end Pc

/-- The result that a step returns, with the position of its record. -/
def PopEvent.returned? : PopEvent → List (ℕ × PopCall × Popped)
  | returned head c res => [(head, c, res)]
  | _ => []

/-- The invariant of the consumers. What is published falls into three parts: `passed` lies before
`head_publish`, `claimed` between `head_publish` and `head_reserve`, and `ahead` behind it. -/
structure PoolInv (cap : ℕ) (m : Shared) (consumers : ℕ → Pc) (passed claimed ahead : List Chunk)
    (results : List (ℕ × PopCall × Popped)) : Prop where
  /-- The length of what is passed. -/
  span_passed : span passed = m.control.headPublish
  /-- The ring has what is claimed. -/
  stream_claimed : Stream cap m.ring m.control.headPublish claimed m.control.headReserve
  /-- The ring has what is ahead. -/
  stream_ahead : Stream cap m.ring m.control.headReserve ahead m.control.tailPublish
  /-- What every consumer knows. -/
  ok : ∀ i, (consumers i).Ok cap m claimed ahead
  /-- No two consumers have claimed the same chunk. -/
  distinct : ∀ i j head, (consumers i).owned? = some head → (consumers j).owned? = some head → i = j
  /-- Every result is that of a record passed. -/
  results_of : ∀ p ∈ results, ∃ r, (p.1, r) ∈ recordsAt 0 passed ∧ p.2.2.Of p.2.1 r
  /-- The records of results lie before `head_publish`. -/
  results_lt : ∀ p ∈ results, p.1 < m.control.headPublish
  /-- No record is returned twice. -/
  nodup : (results.map Prod.fst).Nodup

namespace PoolInv

variable {cap : ℕ} {m m' : Shared} {consumers : ℕ → Pc} {passed claimed ahead new : List Chunk}
  {results : List (ℕ × PopCall × Popped)} {i : ℕ} {pc' : Pc}

/-- A fresh ring with all consumers idle. -/
theorem fresh (cap : ℕ) : PoolInv cap Shared.fresh (fun _ => .idle) [] [] [] [] where
  span_passed := rfl
  stream_claimed := rfl
  stream_ahead := rfl
  ok := fun _ => trivial
  distinct := by rintro _ _ _ ⟨⟩
  results_of := by simp
  results_lt := by simp
  nodup := List.nodup_nil

/-- The consumers have not passed what is published. -/
theorem headReserve_le (h : PoolInv cap m consumers passed claimed ahead results) :
    m.control.headReserve ≤ m.control.tailPublish := h.stream_ahead.le

/-- The bytes of a claimed chunk are in the ring. -/
theorem at_of_owns (h : PoolInv cap m consumers passed claimed ahead results) {head newHead : ℕ}
    {d : Chunk} (ho : Owns m claimed head newHead d) : d.Fits cap head ∧ d.At cap m.ring head := by
  obtain ⟨pre, post, rfl, rfl, -⟩ := ho
  obtain ⟨mid, h1, h2⟩ := h.stream_claimed.split
  rw [← h1.eq_add_span]
  exact ⟨h2.1, h2.2.1⟩

/-- A claimed chunk lies before `head_reserve`. -/
theorem lt_of_owns (h : PoolInv cap m consumers passed claimed ahead results) {head newHead : ℕ}
    {d : Chunk} (ho : Owns m claimed head newHead d) : head < m.control.headReserve := by
  have hpos := (h.at_of_owns ho).1.length_pos
  obtain ⟨pre, post, rfl, rfl, -⟩ := ho
  have hend := h.stream_claimed.eq_add_span
  rw [span_append, span_cons] at hend
  omega

/-- No two consumers have claimed the same chunk after consumer `i` has moved on, if it has kept its
chunk, has none, or has one that nobody had. -/
theorem distinct_update (h : PoolInv cap m consumers passed claimed ahead results)
    (hnew : ∀ head, pc'.owned? = some head → (consumers i).owned? = some head ∨
      ∀ j, (consumers j).owned? ≠ some head) :
    ∀ j k head, (Function.update consumers i pc' j).owned? = some head →
      (Function.update consumers i pc' k).owned? = some head → j = k := by
  have hother : ∀ j head, j ≠ i → (consumers j).owned? = some head → pc'.owned? ≠ some head := by
    intro j head hj hold hpc
    rcases hnew head hpc with hi | hnone
    · exact hj (h.distinct j i head hold hi)
    · exact hnone j hold
  intro j k head hj hk
  by_cases hji : j = i
  · by_cases hki : k = i
    · rw [hji, hki]
    · subst hji
      rw [Function.update_self] at hj
      rw [Function.update_of_ne hki] at hk
      exact absurd hj (hother k head hki hk)
  · rw [Function.update_of_ne hji] at hj
    by_cases hki : k = i
    · subst hki
      rw [Function.update_self] at hk
      exact absurd hk (hother j head hji hj)
    · rw [Function.update_of_ne hki] at hk
      exact h.distinct j k head hj hk

/-- The steps of the producers keep the invariant: what they publish comes behind what is ahead. -/
theorem producer (h : PoolInv cap m consumers passed claimed ahead results)
    (hv : ProducerView cap m m' new) :
    PoolInv cap m' consumers passed claimed (ahead ++ new) results := by
  have hpub := hv.headPublish_eq
  have hres := hv.headReserve_eq
  have hle := h.stream_claimed.le
  have hle' := h.stream_ahead.le
  refine ⟨by rw [hpub]; exact h.span_passed, ?_, ?_, ?_, h.distinct, h.results_of,
    by rw [hpub]; exact h.results_lt, h.nodup⟩
  · rw [hpub, hres]
    exact h.stream_claimed.frame (hv.agree.mono le_rfl hle')
  · rw [hres]
    exact (h.stream_ahead.frame (hv.agree.mono hle le_rfl)).append hv.stream
  · intro j
    refine (h.ok j).transfer (le_of_eq hres.symm) (fun _ => List.prefix_append _ _) ?_
      (fun _ => hpub)
    rintro head newHead d - ⟨pre, post, hc, hh, hn⟩
    exact ⟨pre, post, hc, by rw [hpub]; exact hh, hn⟩

/-- A step of consumer `i` without effect on the shared memory. -/
theorem of_silent (h : PoolInv cap m consumers passed claimed ahead results)
    (hok : pc'.Ok cap m claimed ahead)
    (hnew : ∀ head, pc'.owned? = some head → (consumers i).owned? = some head) :
    PoolInv cap m (Function.update consumers i pc') passed claimed ahead results where
  span_passed := h.span_passed
  stream_claimed := h.stream_claimed
  stream_ahead := h.stream_ahead
  ok := by
    intro j
    by_cases hj : j = i
    · subst hj
      rw [Function.update_self]
      exact hok
    · rw [Function.update_of_ne hj]
      exact h.ok j
  distinct := h.distinct_update fun head ho => Or.inl (hnew head ho)
  results_of := h.results_of
  results_lt := h.results_lt
  nodup := h.nodup

/-- The compare-exchange that claims a chunk. -/
theorem of_claim (h : PoolInv cap m consumers passed claimed ahead results) {head newHead : ℕ}
    {k : Claim} (hpc : consumers i = .cas head newHead k) (heq : m.control.headReserve = head) :
    ∃ claimed' ahead', claimed' ++ ahead' = claimed ++ ahead ∧
      PoolInv cap ((Effect.headReserve newHead).apply m)
        (Function.update consumers i (.claimed head newHead k)) passed claimed' ahead' results := by
  have hhead : head = m.control.headPublish + span claimed := by
    rw [← heq]
    exact h.stream_claimed.eq_add_span
  -- `head_reserve` has not moved, so the chunk ahead is the one the consumer has looked at.
  obtain ⟨d, rest, ha, hnew, hok⟩ : ∃ d rest, ahead = d :: rest ∧ newHead = head + d.length ∧
      (Pc.claimed head newHead k).Ok cap ((Effect.headReserve newHead).apply m) (claimed ++ [d])
        rest := by
    have hok := h.ok i
    rw [hpc] at hok
    cases k with
    | again c =>
      obtain ⟨d, rest, ha, hnone, hnew⟩ := hok.2 heq
      exact ⟨d, rest, ha, hnew, d, ⟨claimed, [], rfl, hhead, hnew⟩, hnone⟩
    | take c size =>
      obtain ⟨r, rest, ha, rfl, hnew⟩ := hok.2 heq
      exact ⟨.record r, rest, ha, hnew,
        Pc.ok_copying (i := 0) ⟨claimed, [], rfl, hhead, hnew⟩ (Nat.zero_le _)⟩
  have hs := h.stream_ahead
  rw [ha, heq] at hs
  obtain ⟨hfit, hat, hrest⟩ := hs
  have hpos := hfit.length_pos
  have hcl := h.stream_claimed
  rw [heq] at hcl
  refine ⟨claimed ++ [d], rest, by rw [ha]; simp, h.span_passed, ?_, ?_, ?_, ?_, h.results_of,
    h.results_lt, h.nodup⟩
  · change Stream cap m.ring m.control.headPublish (claimed ++ [d]) newHead
    rw [hnew]
    exact hcl.append (.singleton hfit hat)
  · change Stream cap m.ring newHead rest m.control.tailPublish
    rw [hnew]
    exact hrest
  · intro j
    by_cases hj : j = i
    · subst hj
      rw [Function.update_self]
      exact hok
    · rw [Function.update_of_ne hj]
      refine (h.ok j).transfer ?_ ?_ ?_ (fun _ => rfl)
      · change m.control.headReserve ≤ newHead
        omega
      · intro hsame
        change newHead = m.control.headReserve at hsame
        omega
      · rintro head' newHead' d' - ⟨pre, post, rfl, hh, hn⟩
        exact ⟨pre, post ++ [d], by simp, hh, hn⟩
  · -- Chunks that were claimed before lie before `head_reserve`, and the new one starts there.
    refine h.distinct_update fun head' ho => Or.inr fun j hj => ?_
    rw [Pc.owned?_claimed, Option.some.injEq] at ho
    obtain ⟨newHead', d', hown⟩ := (h.ok j).owns hj
    have := h.lt_of_owns hown
    omega

/-- A consumer whose turn it is has claimed the first of the claimed chunks. -/
theorem claimed_eq_cons (h : PoolInv cap m consumers passed claimed ahead results) {newHead : ℕ}
    {d : Chunk} (ho : Owns m claimed m.control.headPublish newHead d) :
    ∃ post, claimed = d :: post ∧ newHead = m.control.headPublish + d.length := by
  obtain ⟨pre, post, hc, hhead, hnew⟩ := ho
  cases pre with
  | nil => exact ⟨post, hc, hnew⟩
  | cons c pre =>
    have hs := h.stream_claimed
    rw [hc] at hs
    have := hs.1.length_pos
    rw [span_cons] at hhead
    omega

/-- The store of `head_publish` behind a claimed chunk. -/
theorem of_publish (h : PoolInv cap m consumers passed claimed ahead results) {head newHead : ℕ}
    {k : PopThen} (hpc : consumers i = .publish head newHead k) :
    ∃ passed' claimed', passed' ++ claimed' = passed ++ claimed ∧
      PoolInv cap ((Effect.headPublish newHead).apply m)
        (Function.update consumers i (Pc.published head k).1) passed' claimed' ahead
        (results ++ (Pc.published head k).2.returned?) ∧
      m.control.headPublish ≤ newHead ∧ newHead ≤ m.control.headReserve := by
  have hok := h.ok i
  rw [hpc] at hok
  obtain ⟨⟨d, hown, hafter⟩, rfl⟩ := hok
  have hpos := (h.at_of_owns hown).1.length_pos
  obtain ⟨post, hc, hnew⟩ := h.claimed_eq_cons hown
  have hs := h.stream_claimed
  rw [hc] at hs
  have hle := hs.2.2.le
  have hmine : (consumers i).owned? = some m.control.headPublish := by rw [hpc]; rfl
  have hspan : span (passed ++ [d]) = newHead := by
    rw [span_append, h.span_passed, span_cons, span_nil, hnew]
    omega
  refine ⟨passed ++ [d], post, by rw [hc]; simp, ⟨hspan, ?_, h.stream_ahead, ?_, ?_, ?_, ?_, ?_⟩,
    by omega, by omega⟩
  · change Stream cap m.ring newHead post m.control.headReserve
    rw [hnew]
    exact hs.2.2
  · intro j
    by_cases hj : j = i
    · subst hj
      rw [Function.update_self]
      cases k <;> trivial
    · rw [Function.update_of_ne hj]
      refine (h.ok j).transfer le_rfl (fun _ => List.prefix_refl _) ?_ ?_
      · -- Another consumer's chunk is not the first of those claimed, and so still claimed.
        rintro head' newHead' d' ho ⟨pre, rest, hsplit, hh, hn⟩
        cases pre with
        | nil =>
          rw [span_nil, Nat.add_zero] at hh
          rw [hh] at ho
          exact absurd (h.distinct j i _ ho hmine) hj
        | cons c pre =>
          rw [hc, List.cons_append] at hsplit
          obtain ⟨rfl, rfl⟩ := List.cons.inj hsplit
          refine ⟨pre, rest, rfl, ?_, hn⟩
          change head' = newHead + span pre
          rw [span_cons] at hh
          omega
      · intro ho
        exact absurd (h.distinct j i _ ho hmine) hj
  · refine h.distinct_update fun head' ho => ?_
    cases k <;> cases ho
  · -- The record passed is the one that is returned.
    intro p hp
    rcases List.mem_append.mp hp with hp | hp
    · obtain ⟨r, hr, hof⟩ := h.results_of p hp
      exact ⟨r, by rw [recordsAt_append]; exact List.mem_append_left _ hr, hof⟩
    · cases k with
      | again c => simp [Pc.published, PopEvent.returned?] at hp
      | done c res =>
        obtain ⟨r, rfl, hof⟩ := hafter
        obtain rfl := List.mem_singleton.mp hp
        refine ⟨r, ?_, hof⟩
        rw [recordsAt_append, h.span_passed, Nat.zero_add]
        exact List.mem_append_right _ (by simp [recordsAt, Chunk.record?])
  · intro p hp
    change p.1 < newHead
    rcases List.mem_append.mp hp with hp | hp
    · have := h.results_lt p hp
      omega
    · cases k with
      | again c => simp [Pc.published, PopEvent.returned?] at hp
      | done c res =>
        obtain rfl := List.mem_singleton.mp hp
        change m.control.headPublish < newHead
        omega
  · -- Earlier results lie before `head_publish`, and this one starts there.
    rw [List.map_append]
    refine List.nodup_append.mpr ⟨h.nodup, by cases k <;> simp [Pc.published, PopEvent.returned?],
      ?_⟩
    intro a ha b hb
    obtain ⟨p, hp, rfl⟩ := List.mem_map.mp ha
    have hlt := h.results_lt p hp
    cases k with
    | again c => simp [Pc.published, PopEvent.returned?] at hb
    | done c res =>
      obtain rfl := List.mem_singleton.mp hb
      omega

/-- The chunk ahead, and that its end has not wrapped. -/
theorem ahead_at (h : PoolInv cap m consumers passed claimed ahead results)
    (hlt : m.control.tailPublish < 2^64) {d : Chunk} {rest : List Chunk} (ha : ahead = d :: rest) :
    d.Fits cap m.control.headReserve ∧ d.At cap m.ring m.control.headReserve ∧
      u64 (m.control.headReserve + d.length) = m.control.headReserve + d.length := by
  have hs := h.stream_ahead
  rw [ha] at hs
  have hle := hs.2.2.le
  exact ⟨hs.1, hs.2.1, u64_of_lt (by omega)⟩

/-- What consumer `i` knows after a step before its compare-exchange, given that it has not loaded
`head_reserve` from an empty ring with an older tail. -/
theorem ok_of_look (h : PoolInv cap m consumers passed claimed ahead results)
    (hlt : m.control.tailPublish < 2^64)
    (hguard : ∀ c tail, consumers i = .loadHead c tail →
      m.control.headReserve = tail ∨ m.control.headReserve < m.control.tailPublish) :
    (∀ c tail, consumers i = .loadHead c tail → m.control.headReserve ≠ tail →
      (cap - m.control.headReserve % cap < 16 → (Pc.cas m.control.headReserve
        (u64 (m.control.headReserve + (cap - m.control.headReserve % cap))) (.again c)).Ok cap m
          claimed ahead) ∧
      (16 ≤ cap - m.control.headReserve % cap →
        (Pc.loadFlags c tail m.control.headReserve).Ok cap m claimed ahead)) := by
  intro c tail hpc hne
  have hfull : m.control.headReserve < m.control.tailPublish := by
    rcases hguard c tail hpc with heq | hfull
    · exact absurd heq hne
    · exact hfull
  obtain ⟨d, rest, ha⟩ := h.stream_ahead.exists_cons (by omega)
  obtain ⟨hfit, -, hu⟩ := h.ahead_at hlt ha
  constructor
  · intro hshort
    obtain ⟨hnone, hlen⟩ := hfit.of_short hshort
    exact ⟨le_rfl, fun _ => ⟨d, rest, ha, hnone, by rw [← hlen]; exact hu⟩⟩
  · intro hroom
    exact ⟨⟨le_rfl, fun _ => ⟨d, rest, ha⟩⟩, hroom⟩

/-- Every step of a consumer keeps the invariant, given that the consumer does not load
`head_reserve` from an empty ring with an older tail. -/
theorem step (h : PoolInv cap m consumers passed claimed ahead results)
    (hlt : m.control.tailPublish < 2^64)
    (hguard : ∀ c tail, consumers i = .loadHead c tail →
      m.control.headReserve = tail ∨ m.control.headReserve < m.control.tailPublish)
    {l : PopLabel} {eff : Effect} {e : PopEvent}
    (hs : (consumers i).step cap m l = some (eff, pc', e)) :
    ∃ passed' claimed' ahead', passed' ++ (claimed' ++ ahead') = passed ++ (claimed ++ ahead) ∧
      PoolInv cap (eff.apply m) (Function.update consumers i pc') passed' claimed' ahead'
        (results ++ e.returned?) ∧
      ConsumerView m (eff.apply m) := by
  have hok := h.ok i
  have hle := h.stream_claimed.le
  have hle' := h.stream_ahead.le
  have hview : ConsumerView m m := ⟨le_rfl, le_trans hle hle', rfl, rfl, rfl, rfl⟩
  -- Most steps have no effect and report nothing.
  have hsilent : ∀ pc, pc.Ok cap m claimed ahead →
      (∀ head, pc.owned? = some head → (consumers i).owned? = some head) →
      ∃ passed' claimed' ahead', passed' ++ (claimed' ++ ahead') = passed ++ (claimed ++ ahead) ∧
        PoolInv cap m (Function.update consumers i pc) passed' claimed' ahead' (results ++ []) ∧
        ConsumerView m m := by
    intro pc hpc hnew
    refine ⟨passed, claimed, ahead, rfl, ?_, hview⟩
    rw [List.append_nil]
    exact h.of_silent hpc hnew
  have hlook := h.ok_of_look hlt hguard
  generalize hpc : consumers i = pc at hs hok hsilent
  cases Pc.step_cases hs with
  | call c => exact hsilent _ trivial (by rintro _ ⟨⟩)
  | loadTail c => exact hsilent _ trivial (by rintro _ ⟨⟩)
  | refuse pc => exact hsilent _ trivial (by rintro _ ⟨⟩)
  | skip c tail hne hshort => exact hsilent _ ((hlook c tail hpc hne).1 hshort) (by rintro _ ⟨⟩)
  | header c tail hne hroom => exact hsilent _ ((hlook c tail hpc hne).2 hroom) (by rintro _ ⟨⟩)
  | wrap c tail head hflag =>
    obtain ⟨⟨hhead, hstill⟩, hroom⟩ := hok
    refine hsilent _ ⟨hhead, fun heq => ?_⟩ (by rintro _ ⟨⟩)
    obtain ⟨d, rest, ha⟩ := hstill heq
    obtain ⟨hfit, hat, hu⟩ := h.ahead_at hlt ha
    rw [heq] at hfit hat hu
    obtain ⟨hnone, hlen⟩ := hat.of_wrapFlag hfit hroom hflag
    exact ⟨d, rest, ha, hnone, by rw [← hlen]; exact hu⟩
  | record c tail head hflag =>
    obtain ⟨⟨hhead, hstill⟩, hroom⟩ := hok
    refine hsilent _ ⟨hhead, fun heq => ?_⟩ (by rintro _ ⟨⟩)
    obtain ⟨d, rest, ha⟩ := hstill heq
    obtain ⟨hfit, hat, -⟩ := h.ahead_at hlt ha
    rw [heq] at hfit hat
    obtain ⟨r, rfl⟩ := hat.of_not_wrapFlag hfit hroom hflag
    exact ⟨r, rest, ha⟩
  | size c tail head =>
    obtain ⟨hhead, hstill⟩ := hok
    refine hsilent _ ⟨hhead, fun heq => ?_⟩ (by rintro _ ⟨⟩)
    obtain ⟨r, rest, ha⟩ := hstill heq
    obtain ⟨hfit, hat, hu⟩ := h.ahead_at hlt ha
    rw [heq] at hfit hat hu
    rw [hat.record_size hfit]
    exact ⟨r, rest, ha, rfl, hu⟩
  | claim head newHead k heq =>
    obtain ⟨claimed', ahead', hsplit, hinv⟩ := h.of_claim hpc heq
    refine ⟨passed, claimed', ahead', by rw [hsplit], ?_, le_rfl, le_trans hle hle', rfl, rfl, rfl,
      rfl⟩
    simpa [PopEvent.returned?] using hinv
  | retry head newHead k => exact hsilent _ trivial (by rintro _ ⟨⟩)
  | copy c head newHead size i out =>
    obtain ⟨hi, r, hown, rfl, rfl⟩ := hok
    obtain ⟨-, hat⟩ := h.at_of_owns hown
    have hlen : i < (resized c.out r.payload.length).length := by simp [resized]; omega
    rw [hat.record_byte hi, set_copied hi hlen]
    refine hsilent _ (Pc.ok_copying hown hi) fun head' ho => ?_
    rwa [Pc.owned?_copying] at ho
  | type c head newHead out =>
    obtain ⟨r, hown, hout⟩ := hok
    obtain ⟨hfit, hat⟩ := h.at_of_owns hown
    exact hsilent _ ⟨r, hown, hout, hat.record_type hfit⟩ fun _ ho => ho
  | sequence c head newHead out type =>
    obtain ⟨r, hown, rfl, rfl⟩ := hok
    obtain ⟨hfit, hat⟩ := h.at_of_owns hown
    rw [hat.record_sequence hfit]
    exact hsilent _ ⟨.record r, hown, r, rfl, rfl, rfl, rfl⟩ fun _ ho => ho
  | wait head newHead k => exact hsilent _ hok fun _ ho => ho
  | turn head newHead k heq => exact hsilent _ ⟨hok, heq.symm⟩ fun _ ho => ho
  | publish head newHead k =>
    obtain ⟨passed', claimed', hsplit, hinv, h1, h2⟩ := h.of_publish hpc
    refine ⟨passed', claimed', ahead, ?_, hinv, h1, le_trans h2 hle', rfl, rfl, rfl, rfl⟩
    rw [← List.append_assoc, hsplit, List.append_assoc]

end PoolInv

end LfRing.Mpmc

import LfRing.Ring.Reader

/-!
# The single producer's `try_push`

`try_push` and `claim` of `src/shared_ring_buffer_spsc.cpp`, as a machine that takes one access to
the shared memory at a time, and stores one byte of the ring at a time.

Unlike the producers of the other two rings, this one reserves nothing. It places one chunk at
`tail_publish`: a skip or a wrap record where the end of the ring has no room, and then, in another
pass of its loop, the record. Every chunk is published on its own, by the store of `tail_publish`
behind its bytes. A producer that dies has published the chunks before, and a successor that comes
in through `claim` starts again at `tail_publish`, over whatever bytes it has left there.

`PushInv` is what holds at every moment of this. `PushInv.step` also gives the consumer's view of a
step, and `Numbering` is the part about sequence numbers.
-/

namespace LfRing.Spsc

/-- The record of a call with the sequence number `n`. -/
def record (a : PushArgs) (n : ℕ) : Record := { a.message with sequence := n }

/-- The decisions of a pass of the loop, from the two counters loaded: the chunk to place at the
tail, or nothing where `try_push` returns false. Where a wrap record is placed a header has room, so
the source's test for that always passes. -/
def place (cap : ℕ) (a : PushArgs) (head tail : ℕ) : Option Chunk :=
  let used := sub64 tail head
  let remaining := cap - tail % cap
  if cap < used then none
  else if remaining < sizeofRecordHeader then
    if cap < u64 (used + remaining) then none else some (.skip remaining)
  else if remaining < a.recordSize then
    if cap < u64 (used + remaining + a.recordSize) then none else some (.wrap remaining)
  else if cap < u64 (used + a.recordSize) then none
  else some (.record (record a 0))

/-- The bytes of a chunk, one store each. -/
def chunkStores (cap tail : ℕ) (c : Chunk) : List Store :=
  (c.stores (tail % cap)).flatMap Store.bytewise

/-- The bytes of the sequence number in the header, one store each. -/
def numberStores (cap tail n : ℕ) : List Store := Store.bytewise ⟨tail % cap + 8, leBytes 8 n⟩

/-- Where the producer is. -/
inductive PushPc
  /-- There is no producer: the last one has died. -/
  | gone
  /-- In `claim`, about to load `tail_publish`. -/
  | claimLoad
  /-- In `claim`, about to store `tail_reserve`. -/
  | claimStore (tail : ℕ)
  /-- Between two calls. -/
  | idle
  /-- About to load `head_publish`. -/
  | loadHead (a : PushArgs)
  /-- About to load `tail_publish`. -/
  | loadTail (a : PushArgs) (head : ℕ)
  /-- About to store a byte of the chunk `c`. -/
  | store (a : PushArgs) (tail : ℕ) (c : Chunk) (st : Store) (todo : List Store)
  /-- About to draw a sequence number. -/
  | fetchSequence (a : PushArgs) (tail : ℕ)
  /-- About to store a byte of the sequence number. -/
  | storeSequence (a : PushArgs) (tail n : ℕ) (st : Store) (todo : List Store)
  /-- About to store `tail_reserve`. -/
  | reserve (a : PushArgs) (tail : ℕ) (c : Chunk)
  /-- About to store `tail_publish`. -/
  | publish (a : PushArgs) (tail : ℕ) (c : Chunk)

/-- What the producer may do next. -/
inductive PushLabel
  /-- Call `try_push`. -/
  | call (a : PushArgs)
  /-- Come in through `claim`, in place of one that has died. -/
  | claim
  /-- Take the next step. -/
  | run
  /-- Die. -/
  | crash

/-- What the producer's step reports. -/
inductive PushEvent
  /-- A step inside a call, or the start of one. -/
  | internal
  /-- A call has returned false. -/
  | refused
  /-- A pass of the loop has decided to place `c` at the tail. -/
  | placed (c : Chunk)
  /-- `tail_publish` has been stored behind `c`. If that is a record, the call has returned true. -/
  | published (c : Chunk)
  /-- The producer has died. -/
  | crashed
  /-- `claim` has returned. -/
  | claimed

namespace PushPc

/-- The start of `try_push`. -/
def enter (cap : ℕ) (a : PushArgs) : PushPc × PushEvent :=
  if a.rejected cap then (idle, .refused) else (loadHead a, .internal)

/-- With all bytes of a chunk stored: a record gets its sequence number. -/
def stored (a : PushArgs) (tail : ℕ) : Chunk → PushPc
  | .record _ => fetchSequence a tail
  | c => reserve a tail c

/-- With the bytes `todo` of a chunk left. -/
def storing (a : PushArgs) (tail : ℕ) (c : Chunk) : List Store → PushPc
  | [] => stored a tail c
  | st :: todo => store a tail c st todo

/-- With the bytes `todo` of the sequence number left. -/
def numbering (a : PushArgs) (tail n : ℕ) : List Store → PushPc
  | [] => reserve a tail (.record (record a n))
  | st :: todo => storeSequence a tail n st todo

/-- The outcome of a pass's decisions. -/
def decided (cap : ℕ) (a : PushArgs) (tail : ℕ) : Option Chunk → PushPc × PushEvent
  | none => (idle, .refused)
  | some c => (storing a tail c (chunkStores cap tail c), .placed c)

/-- Behind the store of `tail_publish`: another pass, or the end of the call. -/
def published (a : PushArgs) : Chunk → PushPc
  | .record _ => idle
  | _ => loadHead a

/-- One step of `try_push` or `claim`: its effect on the shared memory, where the producer is then,
and what it reports. -/
def step (cap : ℕ) (m : Shared) : PushPc → PushLabel → Option (Effect × PushPc × PushEvent)
  | _, .crash => some (.none, gone, .crashed)
  | gone, .claim => some (.none, claimLoad, .internal)
  | claimLoad, .run => some (.none, claimStore m.control.tailPublish, .internal)
  | claimStore tail, .run => some (.tailReserve tail, idle, .claimed)
  | idle, .call a => some (.none, enter cap a)
  | loadHead a, .run => some (.none, loadTail a m.control.headPublish, .internal)
  | loadTail a head, .run =>
    some (.none, decided cap a m.control.tailPublish (place cap a head m.control.tailPublish))
  | store a tail c st todo, .run => some (.ring st, storing a tail c todo, .internal)
  | fetchSequence a tail, .run =>
    some (.sequence (u64 (m.control.sequence + 1)),
      numbering a tail (u64 (m.control.sequence + 1))
        (numberStores cap tail (u64 (m.control.sequence + 1))), .internal)
  | storeSequence a tail n st todo, .run => some (.ring st, numbering a tail n todo, .internal)
  | reserve a tail c, .run => some (.tailReserve (u64 (tail + c.length)),
      publish a tail c, .internal)
  | publish a tail c, .run => some (.tailPublish (u64 (tail + c.length)), published a c,
      .published c)
  | _, _ => none

end PushPc

/-- The transitions of the producer, one constructor each, with what the branch taken has found. -/
inductive PushStep (cap : ℕ) (m : Shared) : PushPc → Effect → PushPc → PushEvent → Prop
  /-- The producer dies. -/
  | crash (pc : PushPc) : PushStep cap m pc .none .gone .crashed
  /-- A new one calls `claim`. -/
  | claim : PushStep cap m .gone .none .claimLoad .internal
  /-- `claim` loads `tail_publish`. -/
  | claimLoad : PushStep cap m .claimLoad .none (.claimStore m.control.tailPublish) .internal
  /-- `claim` stores `tail_reserve` and returns. -/
  | claimed (tail : ℕ) : PushStep cap m (.claimStore tail) (.tailReserve tail) .idle .claimed
  /-- The first two checks refuse the call. -/
  | reject (a : PushArgs) : PushStep cap m .idle .none .idle .refused
  /-- The first two checks let the call pass. -/
  | call (a : PushArgs) (h : ¬ a.rejected cap) : PushStep cap m .idle .none (.loadHead a) .internal
  /-- The load of `head_publish`. -/
  | loadHead (a : PushArgs) :
    PushStep cap m (.loadHead a) .none (.loadTail a m.control.headPublish) .internal
  /-- The load of `tail_publish`, where the ring is too full. -/
  | full (a : PushArgs) (head : ℕ) : PushStep cap m (.loadTail a head) .none .idle .refused
  /-- The load of `tail_publish`, where there is room. -/
  | room (a : PushArgs) (head : ℕ) (c : Chunk)
    (h : place cap a head m.control.tailPublish = some c) :
    PushStep cap m (.loadTail a head) .none
      (.storing a m.control.tailPublish c (chunkStores cap m.control.tailPublish c)) (.placed c)
  /-- A byte of a chunk. -/
  | store (a : PushArgs) (tail : ℕ) (c : Chunk) (st : Store) (todo : List Store) :
    PushStep cap m (.store a tail c st todo) (.ring st) (.storing a tail c todo) .internal
  /-- The sequence number is drawn. -/
  | fetch (a : PushArgs) (tail : ℕ) :
    PushStep cap m (.fetchSequence a tail) (.sequence (u64 (m.control.sequence + 1)))
      (.numbering a tail (u64 (m.control.sequence + 1))
        (numberStores cap tail (u64 (m.control.sequence + 1)))) .internal
  /-- A byte of the sequence number. -/
  | number (a : PushArgs) (tail n : ℕ) (st : Store) (todo : List Store) :
    PushStep cap m (.storeSequence a tail n st todo) (.ring st) (.numbering a tail n todo) .internal
  /-- The store of `tail_reserve`. -/
  | reserve (a : PushArgs) (tail : ℕ) (c : Chunk) :
    PushStep cap m (.reserve a tail c) (.tailReserve (u64 (tail + c.length))) (.publish a tail c)
      .internal
  /-- The store of `tail_publish`. -/
  | publish (a : PushArgs) (tail : ℕ) (c : Chunk) :
    PushStep cap m (.publish a tail c) (.tailPublish (u64 (tail + c.length))) (.published a c)
      (.published c)

/-- Every step of the producer is one of the transitions. -/
theorem PushPc.step_cases {cap : ℕ} {m : Shared} {pc pc' : PushPc} {l : PushLabel} {eff : Effect}
    {e : PushEvent} (h : pc.step cap m l = some (eff, pc', e)) : PushStep cap m pc eff pc' e := by
  cases l with
  | crash =>
    have hcrash : pc.step cap m .crash = some (.none, .gone, .crashed) := by cases pc <;> rfl
    rw [hcrash] at h
    cases h
    exact .crash pc
  | claim =>
    cases pc <;> simp only [step, reduceCtorEq] at h
    cases h
    exact .claim
  | call a =>
    cases pc <;> simp only [step, reduceCtorEq, enter] at h
    split_ifs at h with hrej
    · cases h; exact .reject a
    · cases h; exact .call a hrej
  | run =>
    cases pc <;> simp only [step, reduceCtorEq] at h
    case loadTail a head =>
      cases hplace : place cap a head m.control.tailPublish with
      | none =>
        rw [hplace] at h
        cases h
        exact .full a head
      | some c =>
        rw [hplace] at h
        cases h
        exact .room a head c hplace
    case claimLoad => cases h; exact .claimLoad
    case claimStore tail => cases h; exact .claimed tail
    case loadHead a => cases h; exact .loadHead a
    case store a tail c st todo => cases h; exact .store a tail c st todo
    case fetchSequence a tail => cases h; exact .fetch a tail
    case storeSequence a tail n st todo => cases h; exact .number a tail n st todo
    case reserve a tail c => cases h; exact .reserve a tail c
    case publish a tail c => cases h; exact .publish a tail c

/-- A producer that goes on does not die. -/
theorem PushPc.ne_crashed {cap : ℕ} {m : Shared} {pc pc' : PushPc} {eff : Effect} {e : PushEvent}
    (hs : pc.step cap m .run = some (eff, pc', e)) : e ≠ .crashed := by
  rintro rfl
  cases pc with
  | loadTail a head =>
    rw [PushPc.step] at hs
    cases hplace : place cap a head m.control.tailPublish with
    | none =>
      rw [hplace] at hs
      cases hs
    | some c =>
      rw [hplace] at hs
      cases hs
  | _ => cases hs

/-! ## Where a chunk is placed -/

/-- The end of the ring that a wrap record fills is free. Near the largest capacities the source's
sum may wrap and its test pass by mistake, but not to the wrap record's harm: then the ring has not
yet come around once. -/
theorem wrap_room {cap head tail size : ℕ} (hle : head ≤ tail) (hused : tail - head ≤ cap)
    (hsize : size ≤ 2^33) (hrem : cap - tail % cap < size) (hlt : tail + (cap - tail % cap) < 2^64)
    (htest : ¬ cap < u64 (tail - head + (cap - tail % cap) + size)) :
    tail + (cap - tail % cap) ≤ head + cap := by
  by_cases hsum : tail - head + (cap - tail % cap) + size < 2^64
  · rw [u64_of_lt hsum] at htest
    omega
  · -- The sum wraps only if more than half of all positions are in use, and so in the first round.
    by_cases hround : tail < cap
    · rw [Nat.mod_eq_of_lt hround]
      omega
    · have hmod : tail % cap = tail - cap := by
        rw [Nat.mod_eq_sub_mod (by omega), Nat.mod_eq_of_lt (by omega)]
      rw [hmod] at hlt
      omega

/-- A record takes what its arguments say. -/
theorem length_record {cap : ℕ} {a : PushArgs} (ha : a.Accepted cap) (n : ℕ) :
    (Chunk.record (record a n)).length = a.recordSize := by
  change recordSize a.payload.length = _
  rw [ha.length_payload]
  rfl

/-- What a pass places is a filler or the call's record. -/
theorem kind_of_place {cap head tail : ℕ} {a : PushArgs} {c : Chunk}
    (h : place cap a head tail = some c) :
    c = .record (record a 0) ∨ (c.record? = none ∧ c.length = cap - tail % cap) := by
  unfold place at h
  dsimp only at h
  split_ifs at h <;> cases h
  · exact Or.inr ⟨rfl, rfl⟩
  · exact Or.inr ⟨rfl, rfl⟩
  · exact Or.inl rfl

/-- At the start of the ring a pass places no filler. -/
theorem place_at_start {cap head tail : ℕ} {a : PushArgs} (ha : a.Accepted cap)
    (hzero : tail % cap = 0) :
    place cap a head tail = none ∨ place cap a head tail = some (.record (record a 0)) := by
  have hsize := a.le_recordSize
  have hcap := ha.recordSize_le
  unfold place sizeofRecordHeader
  dsimp only
  rw [hzero, Nat.sub_zero, if_neg (show ¬ cap < 16 by omega),
    if_neg (show ¬ cap < a.recordSize by omega)]
  split_ifs
  · exact Or.inl rfl
  · exact Or.inl rfl
  · exact Or.inr rfl

/-- A chunk is placed where it fits, whatever the counters are. -/
theorem place_fits {cap head tail : ℕ} {a : PushArgs} {c : Chunk} (ha : a.Accepted cap)
    (h : place cap a head tail = some c) : c.Fits cap tail := by
  have hsize := a.le_recordSize
  have hcap := ha.recordSize_le
  have hmod : tail % cap < cap := Nat.mod_lt _ (by omega)
  unfold place at h
  dsimp only at h
  split_ifs at h with hused hshort hfull hwrap hfull hfull
  · cases h
    exact ⟨rfl, by omega, hshort⟩
  · cases h
    exact ⟨rfl, not_lt.mp hshort⟩
  · cases h
    refine ⟨?_, ?_, a.type_lt, by simp [record]⟩
    · have hlen : recordSize (record a 0).payload.length = a.recordSize := length_record ha 0
      rw [hlen]
      omega
    · change a.payload.length < 2^32
      rw [ha.length_payload]
      exact a.size_lt

/-- A chunk is placed where it fits, and not over what the consumer has not passed, provided that
the tail behind it does not wrap. -/
theorem place_spec {cap head tail : ℕ} {a : PushArgs} {c : Chunk} (ha : a.Accepted cap)
    (h : place cap a head tail = some c) (hle : head ≤ tail) (hlt : tail + c.length < 2^64) :
    c.Fits cap tail ∧ tail + c.length ≤ head + cap ∧
      (c = .record (record a 0) ∨ c.record? = none) := by
  refine ⟨place_fits ha h, ?_⟩
  have hmax : a.recordSize ≤ a.size + 23 := recordSize_le a.size_lt
  have hmax' := a.size_lt
  unfold place at h
  dsimp only at h
  rw [sub64_of_le hle (by omega)] at h
  split_ifs at h with hused hshort hfull hwrap hfull hfull
  · cases h
    simp only [Chunk.length] at hlt ⊢
    rw [u64_of_lt (by omega)] at hfull
    exact ⟨by omega, Or.inr rfl⟩
  · cases h
    simp only [Chunk.length] at hlt ⊢
    exact ⟨wrap_room hle (by omega) (by omega) hwrap hlt hfull, Or.inr rfl⟩
  · cases h
    rw [length_record ha] at hlt ⊢
    rw [u64_of_lt (by omega)] at hfull
    exact ⟨by omega, Or.inl rfl⟩

/-! ## What the producer keeps -/

/-- The chunk `c` is being placed at `tail`. -/
structure Placing (cap : ℕ) (m : Shared) (tail : ℕ) (c : Chunk) : Prop where
  /-- It is placed at `tail_publish`. -/
  tail_eq : tail = m.control.tailPublish
  /-- It fits there. -/
  fits : c.Fits cap tail
  /-- It does not reach what the consumer has not passed. -/
  le : tail + c.length ≤ m.control.headPublish + cap
  /-- The tail behind it does not wrap. -/
  lt : tail + c.length < 2^64

/-- The stores of a numbered record, apart from its sequence number, are in the ring. -/
def Unnumbered (cap : ℕ) (ring : Memory) (tail : ℕ) (a : PushArgs) (n : ℕ) : Prop :=
  ∀ x ∈ (Chunk.record (record a n)).stores (tail % cap),
    x.Disjoint ⟨tail % cap + 8, leBytes 8 n⟩ → x.Holds ring

namespace PushPc

/-- What the producer knows at its place. -/
def Ok (cap : ℕ) (m : Shared) : PushPc → Prop
  | gone => True
  | claimLoad => True
  | claimStore _ => True
  | idle => True
  | loadHead a => a.Accepted cap
  | loadTail a head => a.Accepted cap ∧ head ≤ m.control.headPublish
  | store a tail c st todo => a.Accepted cap ∧ Placing cap m tail c ∧
      (c = .record (record a 0) ∨ c.record? = none) ∧
      Store.Progress m.ring (chunkStores cap tail c) (st :: todo)
  | fetchSequence a tail => a.Accepted cap ∧ Placing cap m tail (.record (record a 0)) ∧
      (Chunk.record (record a 0)).At cap m.ring tail
  | storeSequence a tail n st todo => a.Accepted cap ∧
      Placing cap m tail (.record (record a n)) ∧ Unnumbered cap m.ring tail a n ∧
      Store.Progress m.ring (numberStores cap tail n) (st :: todo)
  | reserve a tail c => a.Accepted cap ∧ Placing cap m tail c ∧ c.At cap m.ring tail
  | publish a tail c => a.Accepted cap ∧ Placing cap m tail c ∧ c.At cap m.ring tail

/-- The length of the chunk that is being placed. -/
def underway : PushPc → ℕ
  | store _ _ c _ _ => c.length
  | fetchSequence a _ => (Chunk.record (record a 0)).length
  | storeSequence a _ n _ _ => (Chunk.record (record a n)).length
  | reserve _ _ c => c.length
  | publish _ _ c => c.length
  | _ => 0

/-- The length is the same whichever bytes are left. -/
theorem underway_storing {a : PushArgs} {tail : ℕ} {c : Chunk} (todo : List Store)
    (hc : c = .record (record a 0) ∨ c.record? = none) :
    (storing a tail c todo).underway = c.length := by
  cases todo with
  | cons st todo => rfl
  | nil =>
    rcases hc with rfl | hnone
    · rfl
    · cases c with
      | record r => cases hnone
      | _ => rfl

/-- The length does not depend on the sequence number. -/
theorem underway_numbering (a : PushArgs) (tail n : ℕ) (todo : List Store) :
    (numbering a tail n todo).underway = (Chunk.record (record a 0)).length := by
  cases todo <;> rfl

/-- The bytes of a chunk are stored in turn, and when none is left the ring has the chunk. -/
theorem ok_storing {cap : ℕ} {m : Shared} {a : PushArgs} {tail : ℕ} {c : Chunk}
    {todo : List Store} (ha : a.Accepted cap) (hp : Placing cap m tail c)
    (hc : c = .record (record a 0) ∨ c.record? = none)
    (h : Store.Progress m.ring (chunkStores cap tail c) todo) :
    (storing a tail c todo).Ok cap m := by
  cases todo with
  | cons st todo => exact ⟨ha, hp, hc, h⟩
  | nil =>
    have hat : c.At cap m.ring tail := Store.holds_of_flatMap_bytewise h.holds
    rcases hc with rfl | hnone
    · exact ⟨ha, hp, hat⟩
    · cases c with
      | record r => cases hnone
      | _ => exact ⟨ha, hp, hat⟩

/-- The bytes of the sequence number are stored in turn, and when none is left the ring has the
numbered record. -/
theorem ok_numbering {cap : ℕ} {m : Shared} {a : PushArgs} {tail n : ℕ} {todo : List Store}
    (ha : a.Accepted cap) (hp : Placing cap m tail (.record (record a n)))
    (hrest : Unnumbered cap m.ring tail a n)
    (h : Store.Progress m.ring (numberStores cap tail n) todo) :
    (numbering a tail n todo).Ok cap m := by
  cases todo with
  | cons st todo => exact ⟨ha, hp, hrest, h⟩
  | nil =>
    refine ⟨ha, hp, fun x hx => ?_⟩
    rcases Chunk.mem_stores_sequence (r := record a 0) hx with rfl | ⟨-, hd⟩
    · exact Store.holds_of_bytewise h.holds
    · exact hrest x hx hd

/-- What the producer knows survives the consumer's steps. -/
theorem Ok.advance {cap : ℕ} {m m' : Shared} {pc : PushPc} (h : pc.Ok cap m)
    (hhead : m.control.headPublish ≤ m'.control.headPublish)
    (htail : m'.control.tailPublish = m.control.tailPublish) (hring : m'.ring = m.ring) :
    pc.Ok cap m' := by
  have hplacing : ∀ {tail c}, Placing cap m tail c → Placing cap m' tail c := by
    intro tail c hp
    have := hp.le
    exact ⟨hp.tail_eq.trans htail.symm, hp.fits, by omega, hp.lt⟩
  cases pc with
  | loadTail a head => exact ⟨h.1, le_trans h.2 hhead⟩
  | store a tail c st todo =>
    obtain ⟨ha, hp, hc, hprog⟩ := h
    exact ⟨ha, hplacing hp, hc, by rw [hring]; exact hprog⟩
  | fetchSequence a tail =>
    obtain ⟨ha, hp, hat⟩ := h
    exact ⟨ha, hplacing hp, by rw [hring]; exact hat⟩
  | storeSequence a tail n st todo =>
    obtain ⟨ha, hp, hrest, hprog⟩ := h
    exact ⟨ha, hplacing hp, by rw [hring]; exact hrest, by rw [hring]; exact hprog⟩
  | reserve a tail c =>
    obtain ⟨ha, hp, hat⟩ := h
    exact ⟨ha, hplacing hp, by rw [hring]; exact hat⟩
  | publish a tail c =>
    obtain ⟨ha, hp, hat⟩ := h
    exact ⟨ha, hplacing hp, by rw [hring]; exact hat⟩
  | _ => exact h

end PushPc

namespace PushEvent

/-- The bytes that a step sets out to place. -/
def bytes : PushEvent → ℕ
  | placed c => c.length
  | _ => 0

/-- The chunk that a step publishes. -/
def chunk? : PushEvent → List Chunk
  | published c => [c]
  | _ => []

end PushEvent

/-- The invariant of the producer's side, where `bytes` is the length of all chunks that have been
placed, including those that were lost with their producer. -/
structure PushInv (cap : ℕ) (m : Shared) (pc : PushPc) (bytes : ℕ) : Prop where
  /-- The head is not ahead of the tail. -/
  head_le : m.control.headPublish ≤ m.control.tailPublish
  /-- What is published fits the ring. -/
  tail_le : m.control.tailPublish ≤ m.control.headPublish + cap
  /-- The tail counts what was placed, apart from what is under way or was lost. -/
  bytes_le : m.control.tailPublish + pc.underway ≤ bytes
  /-- No counter has wrapped. -/
  bytes_lt : bytes < 2^64
  /-- What the producer knows. -/
  ok : pc.Ok cap m

namespace PushInv

variable {cap : ℕ} {m m' : Shared} {pc pc' : PushPc} {bytes : ℕ}

/-- A fresh ring with its producer between two calls. -/
theorem fresh (cap : ℕ) : PushInv cap Shared.fresh .idle 0 :=
  ⟨le_rfl, Nat.zero_le _, le_rfl, by norm_num, trivial⟩

/-- The consumer's steps keep the producer's invariant. -/
theorem advance (h : PushInv cap m pc bytes) (hv : ConsumerView m m') :
    PushInv cap m' pc bytes := by
  have hle := hv.le_headPublish
  have hhead := hv.headPublish_le
  have htail := hv.tailPublish_eq
  have h1 := h.tail_le
  have h2 := h.bytes_le
  refine ⟨by omega, by omega, by omega, h.bytes_lt, ?_⟩
  exact h.ok.advance hle htail hv.ring_eq

/-- A step that leaves the ring, the head and `tail_publish` alone. -/
theorem of_quiet (h : PushInv cap m pc bytes) {eff : Effect} {e : PushEvent}
    (h1 : (eff.apply m).control.headPublish = m.control.headPublish)
    (h2 : (eff.apply m).control.headReserve = m.control.headReserve)
    (h3 : (eff.apply m).control.tailPublish = m.control.tailPublish)
    (h4 : (eff.apply m).ring = m.ring) (hchunk : e.chunk? = [])
    (hbytes : m.control.tailPublish + pc'.underway ≤ bytes + e.bytes)
    (hlt : bytes + e.bytes < 2^64) (hok : pc'.Ok cap (eff.apply m)) :
    PushInv cap (eff.apply m) pc' (bytes + e.bytes) ∧
      ProducerView cap m (eff.apply m) e.chunk? := by
  refine ⟨⟨?_, ?_, ?_, hlt, hok⟩, ?_⟩
  · rw [h1, h3]
    exact h.head_le
  · rw [h1, h3]
    exact h.tail_le
  · rw [h3]
    exact hbytes
  · rw [hchunk]
    exact .of_eq h1 h2 h3 h4

/-- The store of a byte of the chunk that is being placed. -/
theorem of_store (h : PushInv cap m pc bytes) {tail : ℕ} {c : Chunk} {st : Store}
    (hp : Placing cap m tail c) (hst : st.Covers cap tail (tail + c.length))
    (hbytes : pc'.underway = pc.underway) (hok : pc'.Ok cap ((Effect.ring st).apply m)) :
    PushInv cap ((Effect.ring st).apply m) pc' bytes ∧
      ProducerView cap m ((Effect.ring st).apply m) [] := by
  have hle := h.head_le
  refine ⟨⟨h.head_le, h.tail_le, ?_, h.bytes_lt, hok⟩, ⟨rfl, rfl, ?_, rfl⟩⟩
  · rw [hbytes]
    exact h.bytes_le
  · -- The store lies behind the tail and less than one round ahead of the head.
    have htail := hp.tail_eq
    exact hst.agreeOn m.ring (by omega) hp.le le_rfl h.tail_le (Or.inl (by omega))

/-- The store of `tail_publish` behind a chunk. -/
theorem of_publish (h : PushInv cap m pc bytes) {tail : ℕ} {c : Chunk} (hp : Placing cap m tail c)
    (hat : c.At cap m.ring tail) (hbytes : pc.underway = c.length) (hunder : pc'.underway = 0)
    (hok : pc'.Ok cap ((Effect.tailPublish (u64 (tail + c.length))).apply m)) :
    PushInv cap ((Effect.tailPublish (u64 (tail + c.length))).apply m) pc' bytes ∧
      ProducerView cap m ((Effect.tailPublish (u64 (tail + c.length))).apply m) [c] := by
  have htail := hp.tail_eq
  have hle := h.head_le
  have hb := h.bytes_le
  rw [u64_of_lt hp.lt] at hok ⊢
  refine ⟨⟨?_, hp.le, ?_, h.bytes_lt, hok⟩, ⟨rfl, rfl, .refl _ _ _ _, ?_⟩⟩
  · change m.control.headPublish ≤ tail + c.length
    omega
  · change tail + c.length + pc'.underway ≤ bytes
    omega
  · rw [← htail]
    exact .singleton hp.fits hat

/-- The first byte left of a chunk is stored. -/
theorem of_chunkStore {a : PushArgs} {tail : ℕ} {c : Chunk} {st : Store} {todo : List Store}
    (h : PushInv cap m (.store a tail c st todo) bytes) :
    PushInv cap ((Effect.ring st).apply m) (.storing a tail c todo) bytes ∧
      ProducerView cap m ((Effect.ring st).apply m) [] := by
  obtain ⟨ha, hp, hc, hprog⟩ := h.ok
  obtain ⟨whole, hwhole, hbyte⟩ := List.mem_flatMap.mp (hprog.mem List.mem_cons_self)
  refine h.of_store hp ((hp.fits.covers hwhole).bytewise hbyte) (PushPc.underway_storing todo hc) ?_
  refine PushPc.ok_storing ha ⟨hp.tail_eq, hp.fits, hp.le, hp.lt⟩ hc ?_
  exact hprog.next (Store.flatMap_bytewise_pairwise (c.stores_pairwise _))

/-- The first byte left of a sequence number is stored. -/
theorem of_numberStore {a : PushArgs} {tail n : ℕ} {st : Store} {todo : List Store}
    (h : PushInv cap m (.storeSequence a tail n st todo) bytes) :
    PushInv cap ((Effect.ring st).apply m) (.numbering a tail n todo) bytes ∧
      ProducerView cap m ((Effect.ring st).apply m) [] := by
  obtain ⟨ha, hp, hrest, hprog⟩ := h.ok
  have hbyte := hprog.mem List.mem_cons_self
  have hwhole : (⟨tail % cap + 8, leBytes 8 n⟩ : Store) ∈
      (Chunk.record (record a n)).stores (tail % cap) := by
    simp [Chunk.stores, RecordHeader.stores, record]
  refine h.of_store hp ((hp.fits.covers hwhole).bytewise hbyte) (PushPc.underway_numbering ..) ?_
  refine PushPc.ok_numbering ha ⟨hp.tail_eq, hp.fits, hp.le, hp.lt⟩ ?_
    (hprog.next (Store.bytewise_pairwise _))
  -- The other fields and the payload do not meet the sequence number.
  intro x hx hd
  exact (hrest x hx hd).apply_of_disjoint (hd.bytewise hbyte)

/-- The sequence number is drawn. -/
theorem ok_fetch {a : PushArgs} {tail : ℕ} (h : PushInv cap m (.fetchSequence a tail) bytes) {n : ℕ}
    (hn : n < 2^64) :
    (PushPc.numbering a tail n (numberStores cap tail n)).Ok cap ((Effect.sequence n).apply m) := by
  obtain ⟨ha, hp, hat⟩ := h.ok
  have hplacing : Placing cap ((Effect.sequence n).apply m) tail (.record (record a n)) :=
    ⟨hp.tail_eq, ⟨hp.fits.1, hp.fits.2.1, hp.fits.2.2.1, hn⟩, hp.le, hp.lt⟩
  refine PushPc.ok_numbering ha hplacing ?_ (.start _ _)
  intro x hx hd
  rcases Chunk.mem_stores_sequence (r := record a 0) hx with rfl | ⟨hx', -⟩
  · simp [Store.Disjoint] at hd
  · exact hat x hx'

/-- Every step of the producer keeps the invariant, and to the consumer it is the publication of a
chunk or nothing. -/
theorem step (h : PushInv cap m pc bytes) {l : PushLabel} {eff : Effect} {e : PushEvent}
    (hs : pc.step cap m l = some (eff, pc', e)) (hlt : bytes + e.bytes < 2^64) :
    PushInv cap (eff.apply m) pc' (bytes + e.bytes) ∧
      ProducerView cap m (eff.apply m) e.chunk? := by
  have hok := h.ok
  have hbytes := h.bytes_le
  have htail : m.control.tailPublish ≤ bytes := by omega
  cases PushPc.step_cases hs with
  | crash pc => exact h.of_quiet rfl rfl rfl rfl rfl htail hlt trivial
  | claim => exact h.of_quiet rfl rfl rfl rfl rfl htail hlt trivial
  | claimLoad => exact h.of_quiet rfl rfl rfl rfl rfl htail hlt trivial
  | claimed tail => exact h.of_quiet rfl rfl rfl rfl rfl htail hlt trivial
  | reject a => exact h.of_quiet rfl rfl rfl rfl rfl htail hlt trivial
  | call a hrej =>
    exact h.of_quiet rfl rfl rfl rfl rfl htail hlt (PushArgs.accepted_of_not_rejected hrej)
  | loadHead a => exact h.of_quiet rfl rfl rfl rfl rfl htail hlt ⟨hok, le_rfl⟩
  | full a head => exact h.of_quiet rfl rfl rfl rfl rfl htail hlt trivial
  | room a head c hplace =>
    obtain ⟨ha, hhead⟩ := hok
    have hle := h.head_le
    have hend : m.control.tailPublish + c.length < 2^64 := lt_of_le_of_lt (by
      change _ ≤ bytes + c.length
      omega) hlt
    obtain ⟨hfits, hroom, hc⟩ := place_spec ha hplace (by omega) hend
    have hplacing : Placing cap m m.control.tailPublish c := ⟨rfl, hfits, by omega, hend⟩
    refine h.of_quiet rfl rfl rfl rfl rfl ?_ hlt
      (PushPc.ok_storing ha hplacing hc (.start _ _))
    rw [PushPc.underway_storing _ hc]
    exact Nat.add_le_add_right htail _
  | store a tail c st todo => exact h.of_chunkStore
  | fetch a tail =>
    refine h.of_quiet rfl rfl rfl rfl rfl ?_ hlt (h.ok_fetch (u64_lt _))
    rw [PushPc.underway_numbering]
    exact hbytes
  | number a tail n st todo => exact h.of_numberStore
  | reserve a tail c =>
    obtain ⟨ha, hp, hat⟩ := hok
    exact h.of_quiet rfl rfl rfl rfl rfl hbytes hlt
      ⟨ha, ⟨hp.tail_eq, hp.fits, hp.le, hp.lt⟩, hat⟩
  | publish a tail c =>
    obtain ⟨ha, hp, hat⟩ := hok
    refine h.of_publish hp hat rfl ?_ ?_
    · cases c <;> rfl
    · cases c with
      | record r => trivial
      | _ => exact ha

end PushInv

/-! ## Sequence numbers -/

namespace PushEvent

/-- The record that a step commits. -/
def committed? : PushEvent → List Record
  | published (.record r) => [r]
  | _ => []

/-- Whether the step is the producer's death. -/
def isCrash : PushEvent → Bool
  | crashed => true
  | _ => false

end PushEvent

/-- The numbers that a chunk has to draw. -/
def draws : Chunk → ℕ
  | .record _ => 1
  | _ => 0

namespace PushPc

/-- The numbers that are still to be drawn for the chunk being placed. -/
def undrawn : PushPc → ℕ
  | store _ _ c _ _ => draws c
  | fetchSequence _ _ => 1
  | _ => 0

/-- The number of the record being placed, if it is drawn. -/
def number? : PushPc → Option ℕ
  | storeSequence _ _ n _ _ => some n
  | reserve _ _ c => c.record?.map Record.sequence
  | publish _ _ c => c.record?.map Record.sequence
  | _ => none

/-- Before its stores are made, a chunk has all its numbers to draw. -/
@[simp] theorem undrawn_storing (a : PushArgs) (tail : ℕ) (c : Chunk) (todo : List Store) :
    (storing a tail c todo).undrawn = draws c := by
  cases todo with
  | nil => cases c <;> rfl
  | cons st todo => rfl

/-- Before its stores are made, a record has no number. -/
@[simp] theorem number?_storing (a : PushArgs) (tail : ℕ) (c : Chunk) (todo : List Store) :
    (storing a tail c todo).number? = none := by
  cases todo with
  | nil => cases c <;> rfl
  | cons st todo => rfl

/-- Once the number is drawn there is none left to draw. -/
@[simp] theorem undrawn_numbering (a : PushArgs) (tail n : ℕ) (todo : List Store) :
    (numbering a tail n todo).undrawn = 0 := by
  cases todo <;> rfl

/-- The number that is stored is the one drawn. -/
@[simp] theorem number?_numbering (a : PushArgs) (tail n : ℕ) (todo : List Store) :
    (numbering a tail n todo).number? = some n := by
  cases todo <;> rfl

end PushPc

/-- A record that is placed has some length. -/
theorem draws_le_length {cap head tail : ℕ} {a : PushArgs} {c : Chunk}
    (h : place cap a head tail = some c) : draws c ≤ c.length := by
  have hlen : a.payload.length < 2^32 :=
    lt_of_le_of_lt (List.length_take_le _ _) a.size_lt
  have hrecord : 16 + a.payload.length ≤ (Chunk.record (record a 0)).length :=
    le_recordSize hlen
  unfold place at h
  dsimp only at h
  split_ifs at h
  · cases h
    exact Nat.zero_le _
  · cases h
    exact Nat.zero_le _
  · cases h
    exact le_trans (by simp only [draws]; omega) hrecord

/-- The numbers of the records committed go up. As long as no producer has died, none is left
out. -/
structure Numbering (m : Shared) (pc : PushPc) (bytes : ℕ) (numbers : List ℕ) (crashed : Bool) :
    Prop where
  /-- A number was drawn for records placed only. -/
  bound : m.control.sequence + pc.undrawn ≤ bytes
  /-- The numbers go up. -/
  sorted : numbers.Pairwise (· < ·)
  /-- They were drawn. -/
  le : ∀ k ∈ numbers, k ≤ m.control.sequence
  /-- The number drawn for the record being placed is the last one, and it is new. -/
  drawn : ∀ n, pc.number? = some n → n = m.control.sequence ∧ ∀ k ∈ numbers, k < n
  /-- As long as no producer has died, all numbers drawn are those of records committed, and of the
  one being placed. -/
  plain : crashed = false → m.control.sequence = numbers.length + pc.number?.toList.length ∧
    numbers = List.range' 1 numbers.length

namespace Numbering

variable {cap : ℕ} {m m' : Shared} {pc pc' : PushPc} {bytes : ℕ} {numbers : List ℕ} {crashed : Bool}

/-- A fresh ring with its producer between two calls. -/
theorem fresh : Numbering Shared.fresh .idle 0 [] false :=
  ⟨le_rfl, .nil, by simp, by rintro _ ⟨⟩, fun _ => ⟨rfl, rfl⟩⟩

/-- The consumer has no part in the numbers. -/
theorem advance (h : Numbering m pc bytes numbers crashed)
    (hseq : m'.control.sequence = m.control.sequence) : Numbering m' pc bytes numbers crashed := by
  refine ⟨?_, h.sorted, ?_, ?_, ?_⟩
  · rw [hseq]
    exact h.bound
  · rw [hseq]
    exact h.le
  · rw [hseq]
    exact h.drawn
  · rw [hseq]
    exact h.plain

/-- A step that neither draws a number nor commits a record nor is a death. -/
theorem of_quiet (h : Numbering m pc bytes numbers crashed) {e : PushEvent}
    (hseq : m'.control.sequence = m.control.sequence) (hnumber : pc'.number? = pc.number?)
    (hundrawn : pc'.undrawn ≤ pc.undrawn + e.bytes) (hnone : e.committed? = [])
    (hcrash : e.isCrash = false) :
    Numbering m' pc' (bytes + e.bytes) (numbers ++ e.committed?.map Record.sequence)
      (crashed || e.isCrash) := by
  have hb := h.bound
  rw [hnone, List.map_nil, List.append_nil, hcrash, Bool.or_false]
  refine ⟨by omega, h.sorted, ?_, ?_, ?_⟩
  · rw [hseq]
    exact h.le
  · rw [hseq, hnumber]
    exact h.drawn
  · rw [hseq, hnumber]
    exact h.plain

/-- The producer dies, and what it has drawn is lost. -/
theorem of_crash (h : Numbering m pc bytes numbers crashed) :
    Numbering m .gone bytes (numbers ++ []) (crashed || true) := by
  have hb := h.bound
  rw [List.append_nil, Bool.or_true]
  exact ⟨le_trans (Nat.le_add_right _ _) hb, h.sorted, h.le, by rintro _ ⟨⟩, by rintro ⟨⟩⟩

/-- A number is drawn. -/
theorem of_fetch {a : PushArgs} {tail : ℕ} {todo : List Store}
    (h : Numbering m (.fetchSequence a tail) bytes numbers crashed) (hlt : bytes < 2^64) :
    Numbering ((Effect.sequence (u64 (m.control.sequence + 1))).apply m)
      (.numbering a tail (u64 (m.control.sequence + 1)) todo) bytes numbers crashed := by
  have hb : m.control.sequence + 1 ≤ bytes := h.bound
  rw [u64_of_lt (by omega)]
  have hseq : ((Effect.sequence (m.control.sequence + 1)).apply m).control.sequence =
    m.control.sequence + 1 := rfl
  refine ⟨?_, h.sorted, ?_, ?_, ?_⟩
  · rw [hseq, PushPc.undrawn_numbering]
    exact hb
  · rw [hseq]
    exact fun k hk => Nat.le_succ_of_le (h.le k hk)
  · rw [hseq, PushPc.number?_numbering]
    rintro n ⟨⟩
    exact ⟨rfl, fun k hk => Nat.lt_succ_of_le (h.le k hk)⟩
  · rw [hseq, PushPc.number?_numbering]
    intro hplain
    obtain ⟨hcount, hrange⟩ := h.plain hplain
    exact ⟨congrArg (· + 1) hcount, hrange⟩

/-- A record is committed with its number. -/
theorem of_commit {a : PushArgs} {tail : ℕ} {r : Record} {v : ℕ}
    (h : Numbering m (.publish a tail (.record r)) bytes numbers crashed) :
    Numbering ((Effect.tailPublish v).apply m) .idle bytes (numbers ++ [r.sequence]) crashed := by
  obtain ⟨hn, hnew⟩ := h.drawn r.sequence rfl
  have hseq : ((Effect.tailPublish v).apply m).control.sequence = m.control.sequence := rfl
  refine ⟨h.bound, ?_, ?_, by rintro _ ⟨⟩, ?_⟩
  · refine List.pairwise_append.mpr ⟨h.sorted, List.pairwise_singleton _ _, ?_⟩
    intro k hk n hn'
    rw [List.mem_singleton.mp hn']
    exact hnew k hk
  · intro k hk
    rw [hseq]
    rcases List.mem_append.mp hk with hk | hk
    · exact h.le k hk
    · rw [List.mem_singleton.mp hk]
      exact le_of_eq hn
  · intro hplain
    obtain ⟨hcount, hrange⟩ := h.plain hplain
    have hone : m.control.sequence = numbers.length + 1 := hcount
    have hlen : (numbers ++ [r.sequence]).length = numbers.length + 1 := by simp
    refine ⟨by rw [hseq, hlen]; exact hone, ?_⟩
    -- The next number is the one behind the range.
    rw [hlen, List.range'_1_concat, ← hrange, hn, hone, Nat.add_comm]

/-- Every step of the producer keeps the numbers in order. -/
theorem step (h : Numbering m pc bytes numbers crashed) {l : PushLabel} {eff : Effect}
    {e : PushEvent} (hs : pc.step cap m l = some (eff, pc', e)) (hlt : bytes + e.bytes < 2^64) :
    Numbering (eff.apply m) pc' (bytes + e.bytes) (numbers ++ e.committed?.map Record.sequence)
      (crashed || e.isCrash) := by
  cases PushPc.step_cases hs with
  | crash pc => exact h.of_crash
  | room a head c hplace =>
    refine h.of_quiet rfl (PushPc.number?_storing ..) ?_ rfl rfl
    rw [PushPc.undrawn_storing]
    exact le_trans (draws_le_length hplace) (Nat.le_add_left _ _)
  | store a tail c st todo =>
    exact h.of_quiet rfl (PushPc.number?_storing ..)
      (le_of_eq (PushPc.undrawn_storing ..)) rfl rfl
  | fetch a tail =>
    change Numbering _ _ bytes (numbers ++ []) (crashed || false)
    rw [List.append_nil, Bool.or_false]
    exact h.of_fetch hlt
  | number a tail n st todo =>
    refine h.of_quiet rfl (PushPc.number?_numbering ..) ?_ rfl rfl
    rw [PushPc.undrawn_numbering]
    exact Nat.zero_le _
  | publish a tail c =>
    cases c with
    | record r =>
      change Numbering _ _ bytes (numbers ++ [r.sequence]) (crashed || false)
      rw [Bool.or_false]
      exact h.of_commit
    | _ => exact h.of_quiet rfl rfl (Nat.zero_le _) rfl rfl
  | _ => exact h.of_quiet rfl rfl (Nat.zero_le _) rfl rfl

end Numbering

end LfRing.Spsc

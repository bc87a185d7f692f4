import LfRing.Ring.Stream

/-!
# The producers' `try_push`

`detail::try_push` of `include/lf_ring/ring_writer.hpp`, which `SharedRingBuffer` and
`SharedRingBufferMPMC` share, as a machine that takes one access to the shared memory at a time.

A producer loads `head_publish` and `tail_reserve`, computes what to reserve (`reserve`), and takes
the reservation with a compare-exchange on `tail_reserve`, which may also fail spuriously. Then it
stores the wrap record, if one is needed, the header and the payload, field by field and byte by
byte (`Reservation.stores`), waits until `tail_publish` reaches its reservation, draws a sequence
number, stores it in the header, and publishes the reservation.

The second half of the file is the geometry of one reservation. `Placed` is what `reserve` ensures.
From it follow that the stores cover positions of the reservation only, that they are pairwise
disjoint, and that together they put the reservation's chunks into the ring.
-/

namespace LfRing

/-- The arguments of `try_push(data, size, type)`. The caller promises that a pointer that is not
null points to at least `size` bytes. -/
structure PushArgs where
  /-- The bytes that `data` points to, or nothing for a null pointer. -/
  data : Option (List UInt8)
  /-- The number of bytes to push. -/
  size : ℕ
  /-- The type of the message. -/
  type : ℕ
  /-- `size` is a `std::uint32_t`. -/
  size_lt : size < 2^32
  /-- `type` is a `std::uint16_t`. -/
  type_lt : type < 2^16
  /-- The caller's promise. -/
  size_le : ∀ bs, data = some bs → size ≤ bs.length

namespace PushArgs

/-- The arguments that pass on all that `data` points to. The overloads and the callers that have a
length of another type cast it to `std::uint32_t`. -/
def ofBytes (data : Option (List UInt8)) (type : UInt16) : PushArgs where
  data := data
  size := (data.getD []).length % 2^32
  type := type.toNat
  size_lt := Nat.mod_lt _ (by norm_num)
  type_lt := type.toNat_lt
  size_le := by
    rintro bs rfl
    exact Nat.mod_le _ _

/-- The bytes that are copied into the ring. -/
def payload (a : PushArgs) : List UInt8 := (a.data.getD []).take a.size

/-- The message that is pushed. -/
def message (a : PushArgs) : Message := ⟨a.payload, a.type⟩

/-- The space that the record takes. -/
def recordSize (a : PushArgs) : ℕ := LfRing.recordSize a.size

/-- The two checks before anything shared is read: a null pointer with a size, and a record that is
larger than the ring. -/
def rejected (cap : ℕ) (a : PushArgs) : Bool :=
  (a.data.isNone && a.size != 0) || cap < a.recordSize

end PushArgs

/-- A reservation: the locals of `try_push` after its compare-exchange has succeeded. -/
structure Reservation where
  /-- The arguments of the call. -/
  args : PushArgs
  /-- `start`, the value of `tail_reserve` that the reservation begins at. -/
  start : ℕ
  /-- `padding`, the bytes left at the end of the ring. -/
  padding : ℕ
  /-- `needs_wrap_record`. -/
  needsWrapRecord : Bool

namespace Reservation

/-- `total`, the length of the reservation. -/
def total (r : Reservation) : ℕ := r.padding + r.args.recordSize

/-- Where the reservation ends. -/
def stop (r : Reservation) : ℕ := r.start + r.total

/-- The position of the record, behind the padding. -/
def recordStart (r : Reservation) : ℕ := r.start + r.padding

/-- `pos` when the header is written: zero behind padding, and where the reservation starts
otherwise. -/
def recordPos (cap : ℕ) (r : Reservation) : ℕ := if 0 < r.padding then 0 else r.start % cap

/-- The stores between the compare-exchange and the wait: the wrap record, the header with its
sequence number still zero, and the payload. -/
def stores (cap : ℕ) (r : Reservation) : List Store :=
  (if r.needsWrapRecord ∧ sizeofRecordHeader ≤ r.padding then
      RecordHeader.stores ⟨0, 0, kWrapFlag, 0⟩ (r.start % cap)
    else []) ++
    (RecordHeader.stores ⟨r.args.size, r.args.type, 0, 0⟩ (r.recordPos cap) ++
      payloadStores (r.recordPos cap) r.args.payload)

/-- The store of the sequence number `n` in the header. -/
def sequenceStore (cap : ℕ) (r : Reservation) (n : ℕ) : Store := ⟨r.recordPos cap + 8, leBytes 8 n⟩

/-- The record that is published with the sequence number `n`. -/
def record (r : Reservation) (n : ℕ) : Record := { r.args.message with sequence := n }

/-- The chunks that the reservation adds to the stream. -/
def chunks (r : Reservation) (n : ℕ) : List Chunk :=
  (if r.padding = 0 then []
    else if r.needsWrapRecord then [.wrap r.padding] else [.skip r.padding]) ++
      [.record (r.record n)]

end Reservation

/-- What the loop's body would reserve at the tail it has loaded. The end of the ring is padded
where the record does not fit before it, with a wrap record where a header does. `remaining` cannot
wrap. -/
def place (cap : ℕ) (a : PushArgs) (tail : ℕ) : Reservation :=
  let remaining := cap - tail % cap
  if remaining < sizeofRecordHeader then ⟨a, tail, remaining, false⟩
  else if remaining < a.recordSize then ⟨a, tail, remaining, true⟩
  else ⟨a, tail, 0, false⟩

/-- The space checks of the loop's body, from the two values it has loaded: what to reserve, or
nothing where `try_push` returns false. `total` cannot wrap, as the padding is shorter than a
record. -/
def reserve (cap : ℕ) (a : PushArgs) (head tail : ℕ) : Option Reservation :=
  let used := sub64 tail head
  if cap < used then none
  else if cap < u64 (used + (place cap a tail).total) then none
  else some (place cap a tail)

/-- Where a producer is in `try_push`. -/
inductive PushPc
  /-- Between two calls. -/
  | idle
  /-- About to load `head_publish`. -/
  | loadHead (a : PushArgs)
  /-- About to load `tail_reserve`, with the head it has loaded. -/
  | loadTail (a : PushArgs) (head : ℕ)
  /-- About to reserve `r` by compare-exchange. -/
  | cas (r : Reservation)
  /-- About to make the store `st`, with `todo` behind it. -/
  | store (r : Reservation) (st : Store) (todo : List Store)
  /-- Waiting for `tail_publish` to reach the reservation. -/
  | awaitTurn (r : Reservation)
  /-- About to draw a sequence number. -/
  | fetchSequence (r : Reservation)
  /-- About to store the sequence number in the header. -/
  | storeSequence (r : Reservation) (n : ℕ)
  /-- About to store `tail_publish`. -/
  | publish (r : Reservation) (n : ℕ)

/-- A producer with the stores `todo` left. -/
def PushPc.storing (r : Reservation) : List Store → PushPc
  | [] => .awaitTurn r
  | st :: todo => .store r st todo

/-- What a producer may do next. -/
inductive PushLabel
  /-- Call `try_push`. -/
  | call (a : PushArgs)
  /-- Take the next step. -/
  | run
  /-- Let the compare-exchange fail spuriously. -/
  | fail

/-- What a producer's step reports. -/
inductive PushEvent
  /-- A call has begun. -/
  | called
  /-- A call has returned false. -/
  | refused
  /-- A load, a failed compare-exchange, or the drawing of a sequence number. -/
  | internal
  /-- The compare-exchange has won the reservation. -/
  | reserved (r : Reservation)
  /-- A store to the ring, on behalf of the reservation. -/
  | stored (r : Reservation) (st : Store)
  /-- The reservation has been published with the sequence number `n`, and the call has returned
  true. -/
  | published (r : Reservation) (n : ℕ)

/-- The entry of `try_push`. -/
def PushPc.enter (cap : ℕ) (a : PushArgs) : PushPc × PushEvent :=
  if a.rejected cap then (.idle, .refused) else (.loadHead a, .called)

/-- The outcome of the space checks. -/
def PushPc.checked : Option Reservation → PushPc × PushEvent
  | none => (.idle, .refused)
  | some r => (.cas r, .internal)

/-- One step of `detail::try_push`: its effect on the shared memory, where the producer is then, and
what it reports. -/
def PushPc.step (cap : ℕ) (m : Shared) : PushPc → PushLabel → Option (Effect × PushPc × PushEvent)
  | .idle, .call a => some (.none, enter cap a)
  | .loadHead a, .run => some (.none, .loadTail a m.control.headPublish, .internal)
  | .loadTail a head, .run => some (.none, checked (reserve cap a head m.control.tailReserve))
  | .cas r, .run =>
    if m.control.tailReserve = r.start then
      some (.tailReserve (u64 (r.start + r.total)), .storing r (r.stores cap), .reserved r)
    else some (.none, .loadHead r.args, .internal)
  | .cas r, .fail => some (.none, .loadHead r.args, .internal)
  | .store r st todo, .run => some (.ring st, .storing r todo, .stored r st)
  | .awaitTurn r, .run =>
    some (.none, if m.control.tailPublish = r.start then .fetchSequence r else .awaitTurn r,
      .internal)
  | .fetchSequence r, .run =>
    some (.sequence (u64 (m.control.sequence + 1)),
      .storeSequence r (u64 (m.control.sequence + 1)), .internal)
  | .storeSequence r n, .run =>
    some (.ring (r.sequenceStore cap n), .publish r n, .stored r (r.sequenceStore cap n))
  | .publish r n, .run => some (.tailPublish (u64 (r.start + r.total)), .idle, .published r n)
  | _, _ => none

/-- The transitions of `try_push`, one by one. -/
inductive PushStep (cap : ℕ) (m : Shared) : PushPc → Effect → PushPc → PushEvent → Prop
  /-- The first two checks refuse the call. -/
  | reject (a : PushArgs) : PushStep cap m .idle .none .idle .refused
  /-- The first two checks let the call pass. -/
  | call (a : PushArgs) (h : ¬ a.rejected cap) : PushStep cap m .idle .none (.loadHead a) .called
  /-- The load of `head_publish`. -/
  | loadHead (a : PushArgs) :
    PushStep cap m (.loadHead a) .none (.loadTail a m.control.headPublish) .internal
  /-- The load of `tail_reserve`, where the ring is too full. -/
  | full (a : PushArgs) (head : ℕ) : PushStep cap m (.loadTail a head) .none .idle .refused
  /-- The load of `tail_reserve`, where there is room. -/
  | room (a : PushArgs) (head : ℕ) (r : Reservation)
    (h : LfRing.reserve cap a head m.control.tailReserve = some r) :
    PushStep cap m (.loadTail a head) .none (.cas r) .internal
  /-- The compare-exchange succeeds. -/
  | reserve (r : Reservation) (h : m.control.tailReserve = r.start) :
    PushStep cap m (.cas r) (.tailReserve (u64 (r.start + r.total))) (.storing r (r.stores cap))
      (.reserved r)
  /-- The compare-exchange fails. -/
  | retry (r : Reservation) : PushStep cap m (.cas r) .none (.loadHead r.args) .internal
  /-- A store of the wrap record, the header or the payload. -/
  | store (r : Reservation) (st : Store) (todo : List Store) :
    PushStep cap m (.store r st todo) (.ring st) (.storing r todo) (.stored r st)
  /-- It is not yet the producer's turn. -/
  | wait (r : Reservation) : PushStep cap m (.awaitTurn r) .none (.awaitTurn r) .internal
  /-- It is the producer's turn. -/
  | turn (r : Reservation) (h : m.control.tailPublish = r.start) :
    PushStep cap m (.awaitTurn r) .none (.fetchSequence r) .internal
  /-- The sequence number is drawn. -/
  | fetch (r : Reservation) :
    PushStep cap m (.fetchSequence r) (.sequence (u64 (m.control.sequence + 1)))
      (.storeSequence r (u64 (m.control.sequence + 1))) .internal
  /-- The sequence number is stored. -/
  | number (r : Reservation) (n : ℕ) :
    PushStep cap m (.storeSequence r n) (.ring (r.sequenceStore cap n)) (.publish r n)
      (.stored r (r.sequenceStore cap n))
  /-- The reservation is published. -/
  | publish (r : Reservation) (n : ℕ) :
    PushStep cap m (.publish r n) (.tailPublish (u64 (r.start + r.total))) .idle (.published r n)

/-- Every step of a producer is one of the transitions. -/
theorem PushPc.step_cases {cap : ℕ} {m : Shared} {pc pc' : PushPc} {l : PushLabel} {eff : Effect}
    {e : PushEvent} (h : pc.step cap m l = some (eff, pc', e)) : PushStep cap m pc eff pc' e := by
  cases pc <;> cases l <;> simp only [PushPc.step, reduceCtorEq] at h
  case idle.call a =>
    simp only [enter] at h
    split_ifs at h with hrej
    · cases h
      exact .reject a
    · cases h
      exact .call a hrej
  case loadHead.run a =>
    cases h
    exact .loadHead a
  case loadTail.run a head =>
    cases hres : reserve cap a head m.control.tailReserve with
    | none =>
      rw [hres] at h
      cases h
      exact .full a head
    | some r =>
      rw [hres] at h
      cases h
      exact .room a head r hres
  case cas.run r =>
    split_ifs at h with htail
    · cases h
      exact .reserve r htail
    · cases h
      exact .retry r
  case cas.fail r =>
    cases h
    exact .retry r
  case store.run r st todo =>
    cases h
    exact .store r st todo
  case awaitTurn.run r =>
    cases h
    split_ifs with hturn
    · exact .turn r hturn
    · exact .wait r
  case fetchSequence.run r =>
    cases h
    exact .fetch r
  case storeSequence.run r n =>
    cases h
    exact .number r n
  case publish.run r n =>
    cases h
    exact .publish r n

/-! ## The geometry of a reservation -/

/-- The arguments of a call that has passed the first two checks. -/
structure PushArgs.Accepted (cap : ℕ) (a : PushArgs) : Prop where
  /-- All the bytes asked for are there. -/
  length_payload : a.payload.length = a.size
  /-- The record is not larger than the ring. -/
  recordSize_le : a.recordSize ≤ cap

/-- A call that is not rejected has its bytes and is not larger than the ring. -/
theorem PushArgs.accepted_of_not_rejected {cap : ℕ} {a : PushArgs} (h : ¬ a.rejected cap) :
    a.Accepted cap := by
  simp only [rejected, Bool.or_eq_true, Bool.and_eq_true, Option.isNone_iff_eq_none, bne_iff_ne,
    ne_eq, decide_eq_true_eq, not_or, not_and, not_not, not_lt] at h
  obtain ⟨hdata, hsize⟩ := h
  refine ⟨?_, hsize⟩
  unfold payload
  rw [List.length_take]
  cases hd : a.data with
  | none => simp [hdata hd]
  | some bs =>
    have := a.size_le bs hd
    simp only [Option.getD_some]
    omega

/-- A record is at least its header long. -/
theorem PushArgs.le_recordSize (a : PushArgs) : 16 + a.size ≤ a.recordSize :=
  LfRing.le_recordSize a.size_lt

/-- The lengths and the padding of a reservation fit the ring: it is not longer than the ring, and
the padding is there exactly when the record does not fit before the end of the ring, with a wrap
record exactly when a header does. -/
structure Reservation.Placed (cap : ℕ) (r : Reservation) : Prop where
  /-- The arguments passed the first checks. -/
  accepted : r.args.Accepted cap
  /-- The reservation is not longer than the ring. -/
  total_le : r.total ≤ cap
  /-- The three ways to place a record. -/
  padding_cases : (r.padding = 0 ∧ r.args.recordSize ≤ cap - r.start % cap) ∨
    (r.padding = cap - r.start % cap ∧ r.padding < 16 ∧ r.needsWrapRecord = false) ∨
    (r.padding = cap - r.start % cap ∧ 16 ≤ r.padding ∧ r.needsWrapRecord = true)

/-- What is placed at a tail starts there, for the arguments given. -/
theorem place_start (cap : ℕ) (a : PushArgs) (tail : ℕ) :
    (place cap a tail).args = a ∧ (place cap a tail).start = tail := by
  unfold place
  dsimp only
  split_ifs <;> exact ⟨rfl, rfl⟩

/-- What is reserved at a tail starts there, for the arguments given. -/
theorem reserve_start {cap head tail : ℕ} {a : PushArgs} {r : Reservation}
    (h : reserve cap a head tail = some r) : r.args = a ∧ r.start = tail := by
  unfold reserve at h
  dsimp only at h
  split_ifs at h
  cases h
  exact place_start cap a tail

/-- What is placed at a tail and is not longer than the ring fits the ring. -/
theorem placed_place {cap : ℕ} {a : PushArgs} (tail : ℕ) (ha : a.Accepted cap)
    (htotal : (place cap a tail).total ≤ cap) : (place cap a tail).Placed cap := by
  obtain ⟨hargs, hstart⟩ := place_start cap a tail
  refine ⟨by rwa [hargs], htotal, ?_⟩
  rw [hargs, hstart]
  unfold place sizeofRecordHeader
  dsimp only
  split_ifs with h1 h2
  · exact Or.inr (Or.inl ⟨rfl, h1, rfl⟩)
  · exact Or.inr (Or.inr ⟨rfl, by simpa using h1, rfl⟩)
  · exact Or.inl ⟨rfl, by simpa using h2⟩

/-- What `reserve` returns is placed in the ring and ends at most one capacity behind the head it
was given, provided that neither counter wraps. -/
theorem reserve_spec {cap head tail : ℕ} {a : PushArgs} {r : Reservation} (ha : a.Accepted cap)
    (h : reserve cap a head tail = some r) (hle : head ≤ tail) (hstop : tail + r.total < 2^64) :
    r.Placed cap ∧ r.stop ≤ head + cap := by
  have hstart := (reserve_start h).2
  unfold reserve at h
  dsimp only at h
  split_ifs at h with hused htotal
  simp only [Option.some.injEq] at h
  subst h
  rw [sub64_of_le hle (by omega)] at hused htotal
  rw [u64_of_lt (by omega)] at htotal
  refine ⟨placed_place tail ha (by omega), ?_⟩
  unfold Reservation.stop
  rw [hstart]
  omega

namespace Reservation.Placed

variable {cap : ℕ} {r : Reservation}

/-- A reservation is at least one header long. -/
theorem total_pos (r : Reservation) : 16 ≤ r.total := by
  have := r.args.le_recordSize
  unfold total
  omega

/-- A ring that holds a reservation is not empty. -/
theorem cap_pos (h : r.Placed cap) : 0 < cap := by
  have := total_pos r
  have := h.total_le
  omega

/-- The record stands where the code writes it. -/
theorem recordPos_eq (h : r.Placed cap) : r.recordPos cap = r.recordStart % cap := by
  unfold recordPos recordStart
  split_ifs with hp
  · rcases h.padding_cases with h0 | h1 | h1
    · omega
    · rw [h1.1, add_sub_mod_self h.cap_pos]
    · rw [h1.1, add_sub_mod_self h.cap_pos]
  · rw [show r.padding = 0 by omega, Nat.add_zero]

/-- The record does not cross the end of the ring. -/
theorem record_fits (h : r.Placed cap) {n : ℕ} (hn : n < 2^64) :
    (Chunk.record (r.record n)).Fits cap r.recordStart := by
  have hlen := h.accepted.length_payload
  have hsz := r.args.size_lt
  refine ⟨?_, by simp only [record, PushArgs.message]; omega, r.args.type_lt, hn⟩
  simp only [record, PushArgs.message]
  rw [hlen, ← h.recordPos_eq]
  change r.recordPos cap + r.args.recordSize ≤ cap
  have hpos := Nat.mod_lt r.start h.cap_pos
  have hrec := h.accepted.recordSize_le
  unfold recordPos
  split_ifs with hp
  · omega
  · rcases h.padding_cases with h0 | h1 | h1 <;> omega

/-- The stores of the record, before it has a sequence number, are those of a record chunk. -/
theorem stores_eq (h : r.Placed cap) : r.stores cap =
    (if r.needsWrapRecord ∧ sizeofRecordHeader ≤ r.padding then
      (Chunk.wrap r.padding).stores (r.start % cap) else []) ++
    (Chunk.record (r.record 0)).stores (r.recordStart % cap) := by
  unfold stores
  rw [h.recordPos_eq]
  simp only [Chunk.stores, record, PushArgs.message, h.accepted.length_payload]

/-- The padding of a wrap record is a chunk of the stream. -/
theorem wrap_fits (h : r.Placed cap) (hw : r.needsWrapRecord ∧ sizeofRecordHeader ≤ r.padding) :
    (Chunk.wrap r.padding).Fits cap r.start := by
  obtain ⟨hneed, hlen⟩ := hw
  unfold sizeofRecordHeader at hlen
  rcases h.padding_cases with h0 | h1 | h1
  · omega
  · omega
  · exact ⟨h1.1, h1.2.1⟩

/-- Every store of the reservation covers positions of the reservation. -/
theorem covers (h : r.Placed cap) {st : Store} (hst : st ∈ r.stores cap) :
    st.Covers cap r.start r.stop := by
  rw [h.stores_eq] at hst
  rcases List.mem_append.mp hst with hst | hst
  · split_ifs at hst with hw
    · refine ((h.wrap_fits hw).covers hst).mono le_rfl ?_
      unfold stop total
      simp only [Chunk.length]
      omega
    · simp at hst
  · refine ((h.record_fits (n := 0) (by norm_num)).covers hst).mono ?_ ?_
    · unfold recordStart
      omega
    · simp only [Chunk.length, record, PushArgs.message, h.accepted.length_payload]
      unfold stop total recordStart PushArgs.recordSize
      omega

/-- The store of the sequence number covers positions of the reservation. -/
theorem sequenceStore_covers (h : r.Placed cap) (n : ℕ) :
    (r.sequenceStore cap n).Covers cap r.start r.stop := by
  have hfit := (h.record_fits (n := 0) (by norm_num)).add_length_le
  simp only [Chunk.length, record, PushArgs.message, h.accepted.length_payload] at hfit
  have hrec := r.args.le_recordSize
  unfold PushArgs.recordSize at hrec
  unfold sequenceStore
  rw [h.recordPos_eq]
  have hst : (⟨r.recordStart % cap + 8, leBytes 8 n⟩ : Store).Covers cap r.recordStart
      (r.recordStart + recordSize r.args.size) :=
    Store.covers_of_fits hfit (by rw [length_leBytes]; omega) (by simp)
  refine hst.mono ?_ ?_
  · unfold recordStart
    omega
  · unfold stop total recordStart PushArgs.recordSize
    omega

/-- The stores of a reservation do not overlap. -/
theorem stores_pairwise (h : r.Placed cap) : (r.stores cap).Pairwise Store.Disjoint := by
  rw [h.stores_eq]
  refine List.pairwise_append.mpr ⟨?_, Chunk.stores_pairwise _ _, ?_⟩
  · split_ifs
    · exact Chunk.stores_pairwise _ _
    · exact List.Pairwise.nil
  · intro st hst st' hst'
    split_ifs at hst with hw
    · have hrec := (h.record_fits (n := 0) (by norm_num)).covers hst'
      refine ((h.wrap_fits hw).covers hst).disjoint (h := r.start) hrec le_rfl le_rfl ?_
      have htotal := h.total_le
      simp only [Chunk.length, record, PushArgs.message, h.accepted.length_payload]
      unfold total PushArgs.recordSize at htotal
      unfold recordStart
      omega
    · simp at hst

/-- The padding as a stream of its own. -/
theorem padding_stream (h : r.Placed cap) {ring : Memory}
    (hst : ∀ st ∈ r.stores cap, st.Holds ring) :
    Stream cap ring r.start (if r.padding = 0 then []
      else if r.needsWrapRecord then [.wrap r.padding] else [.skip r.padding]) r.recordStart := by
  rw [h.stores_eq] at hst
  unfold recordStart
  rcases h.padding_cases with h0 | h1 | h1
  · rw [if_pos h0.1, h0.1]
    rfl
  · have hpos := Nat.mod_lt r.start h.cap_pos
    rw [if_neg (by omega), if_neg (by simp [h1.2.2])]
    exact Stream.singleton ⟨h1.1, by omega, h1.2.1⟩ (by simp [Chunk.At, Chunk.stores])
  · have hw : r.needsWrapRecord ∧ sizeofRecordHeader ≤ r.padding := ⟨h1.2.2, h1.2.1⟩
    rw [if_neg (by omega), if_pos h1.2.2]
    refine Stream.singleton (h.wrap_fits hw) fun st hin => hst st ?_
    rw [if_pos hw]
    exact List.mem_append_left _ hin

/-- Once all stores are made, storing the sequence number puts the chunks of the reservation into
the ring. -/
theorem stream (h : r.Placed cap) {ring : Memory} (hst : ∀ st ∈ r.stores cap, st.Holds ring)
    {n : ℕ} (hn : n < 2^64) :
    Stream cap ((r.sequenceStore cap n).apply ring) r.start (r.chunks n) r.stop := by
  have hfit := h.record_fits hn
  have hpad := h.padding_stream hst
  have hlen : r.recordStart + (Chunk.record (r.record n)).length = r.stop := by
    simp only [Chunk.length, record, PushArgs.message, h.accepted.length_payload]
    unfold stop total recordStart PushArgs.recordSize
    omega
  have hseq : (r.sequenceStore cap n).Covers cap r.recordStart r.stop := by
    rw [← hlen]
    refine hfit.covers ?_
    unfold sequenceStore
    rw [h.recordPos_eq]
    simp [Chunk.stores, RecordHeader.stores, record]
  unfold chunks
  refine Stream.append (e := r.recordStart) (hpad.frame ?_) ?_
  · refine hseq.agreeOn (h := r.start) _ ?_ ?_ le_rfl ?_ (Or.inl le_rfl)
    · unfold recordStart
      omega
    · have := h.total_le
      unfold stop
      omega
    · have := h.total_le
      unfold total at this
      unfold recordStart
      omega
  · rw [← hlen]
    refine Stream.singleton hfit fun st hin => ?_
    rcases Chunk.mem_stores_sequence (r := r.record 0) hin with rfl | ⟨hin', hdis⟩
    · unfold sequenceStore
      rw [h.recordPos_eq]
      exact Store.holds_apply _ _
    · refine (hst st ?_).apply_of_disjoint ?_
      · rw [h.stores_eq]
        exact List.mem_append_right _ hin'
      · unfold sequenceStore
        rw [h.recordPos_eq]
        exact hdis

end Reservation.Placed

end LfRing

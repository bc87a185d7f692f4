import Mathlib.Data.Nat.Bitwise
import LfRing.Library.Bytes

/-!
# The shared memory layout

The constants, the record header and the control block of `include/lf_ring/ring_layout.hpp`, and the
shared memory that the operations of every ring and of `SharedLatest` work on. `std::size_t` and
`std::uint64_t` are natural numbers below `2^64`, and `u64` and `sub64` are their wrapping
arithmetic.

Threads and processes touch the shared memory one access at a time: a step reads it, and then has at
most one `Effect` on it.
-/

namespace LfRing

/-! ## 64-bit arithmetic -/

/-- The value of a sum in 64-bit unsigned arithmetic. -/
def u64 (n : ℕ) : ℕ := n % 2^64

/-- The difference of two 64-bit values in 64-bit unsigned arithmetic. -/
def sub64 (a b : ℕ) : ℕ := (a + 2^64 - b) % 2^64

/-- A sum below `2^64` does not wrap. -/
theorem u64_of_lt {n : ℕ} (h : n < 2^64) : u64 n = n := Nat.mod_eq_of_lt h

/-- A reduced value is below `2^64`. -/
theorem u64_lt (n : ℕ) : u64 n < 2^64 := Nat.mod_lt _ (by norm_num)

/-- A difference of 64-bit values that does not borrow is exact. -/
theorem sub64_of_le {a b : ℕ} (h : b ≤ a) (ha : a < 2^64) : sub64 a b = a - b := by
  unfold sub64
  omega

/-- The difference of two counters is that of their positions. -/
theorem sub64_u64 {p q : ℕ} (hle : q ≤ p) (hlt : p < q + 2^64) : sub64 (u64 p) (u64 q) = p - q := by
  unfold sub64 u64
  omega

/-- Counters are equal only at the same position. -/
theorem u64_eq_iff {p q : ℕ} (hle : q ≤ p) (hlt : p < q + 2^64) : u64 q = u64 p ↔ q = p := by
  unfold u64
  omega

/-- The counter behind a position's. -/
theorem u64_succ (p : ℕ) : u64 (u64 p + 1) = u64 (p + 1) := by
  unfold u64
  omega

/-! ## Constants and records -/

/-- `kAlignment`, the alignment of records and of the ring's capacity. -/
def kAlignment : ℕ := 8

/-- `kWrapFlag`, set in the flags of a wrap record. -/
def kWrapFlag : ℕ := 0x1

/-- `kFlagMPSC`, the mode of a `SharedRingBuffer`'s file. -/
def kFlagMPSC : ℕ := 0x1

/-- `kFlagMPMC`, the mode of a `SharedRingBufferMPMC`'s file. -/
def kFlagMPMC : ℕ := 0x2

/-- `kFlagSPSC`, the mode of a `SharedRingBufferSPSC`'s file. -/
def kFlagSPSC : ℕ := 0x4

/-- `align_up` on `std::size_t`, for an alignment that is a power of two. -/
def alignUp (value alignment : ℕ) : ℕ :=
  u64 (value + alignment - 1) &&& (2^64 - 1 - (alignment - 1))

/-- Clearing the three low bits of a 64-bit value rounds it down to a multiple of eight. -/
theorem and_not_seven {x : ℕ} (hx : x < 2^64) : x &&& (2^64 - 1 - 7) = x / 8 * 8 := by
  have hmask : 2^64 - 1 - 7 = (2^61 - 1) <<< 3 := by decide
  have hround : x / 8 * 8 = (x >>> 3) <<< 3 := by
    rw [Nat.shiftLeft_eq, Nat.shiftRight_eq_div_pow]
  rw [hmask, hround]
  apply Nat.eq_of_testBit_eq
  intro i
  rw [Nat.testBit_and, Nat.testBit_shiftLeft, Nat.testBit_shiftLeft, Nat.testBit_two_pow_sub_one,
    Nat.testBit_shiftRight]
  by_cases h3 : 3 ≤ i
  · by_cases h64 : i < 64
    · simp [h3, show i - 3 < 61 by omega]
    · rw [Nat.testBit_lt_two_pow (lt_of_lt_of_le hx (Nat.pow_le_pow_right (by norm_num)
        (by omega))), show 3 + (i - 3) = i by omega,
        Nat.testBit_lt_two_pow (lt_of_lt_of_le hx (Nat.pow_le_pow_right (by norm_num) (by omega)))]
      simp
  · simp [h3]

/-- Rounding up to the records' alignment, where the sum does not wrap. -/
theorem alignUp_kAlignment {v : ℕ} (h : v + 7 < 2^64) :
    alignUp v kAlignment = (v + 7) / 8 * 8 := by
  unfold alignUp kAlignment
  rw [show v + 8 - 1 = v + 7 by omega, u64_of_lt h]
  exact and_not_seven h

/-- `RecordHeader`: the sixteen bytes before a record's payload. -/
structure RecordHeader where
  /-- The length of the payload, 32 bits. -/
  size : ℕ
  /-- The message type, 16 bits. -/
  type : ℕ
  /-- The flags, 16 bits. -/
  flags : ℕ
  /-- The sequence number, 64 bits. -/
  sequence : ℕ

/-- `sizeof(RecordHeader)`, asserted in the source. -/
def sizeofRecordHeader : ℕ := 16

/-- The space a record with `size` bytes of payload takes,
`align_up(sizeof(RecordHeader) + size, kAlignment)`. -/
def recordSize (size : ℕ) : ℕ := alignUp (sizeofRecordHeader + size) kAlignment

/-- The stores of a header's four fields at position `pos` of the ring, in the order of the source,
which is also the order of their addresses. -/
def RecordHeader.stores (h : RecordHeader) (pos : ℕ) : List Store :=
  [⟨pos, leBytes 4 h.size⟩, ⟨pos + 4, leBytes 2 h.type⟩, ⟨pos + 6, leBytes 2 h.flags⟩,
    ⟨pos + 8, leBytes 8 h.sequence⟩]

/-- The stores of a payload's bytes after the header at `pos`, one byte each. -/
def payloadStores (pos : ℕ) (payload : List UInt8) : List Store :=
  payload.mapIdx fun i b => ⟨pos + sizeofRecordHeader + i, [b]⟩

/-- The size of a record in plain arithmetic. -/
theorem recordSize_eq {size : ℕ} (h : size < 2^32) : recordSize size = (size + 23) / 8 * 8 := by
  unfold recordSize sizeofRecordHeader
  rw [alignUp_kAlignment (by omega), show 16 + size + 7 = size + 23 by omega]

/-- A record has room for its header and payload. -/
theorem le_recordSize {size : ℕ} (h : size < 2^32) : 16 + size ≤ recordSize size := by
  rw [recordSize_eq h]
  omega

/-- A record is at most seven bytes longer than its header and payload. -/
theorem recordSize_le {size : ℕ} (h : size < 2^32) : recordSize size ≤ size + 23 := by
  rw [recordSize_eq h]
  omega

/-! ## The shared memory -/

/-- `ControlBlock`: the five counters that all processes share. -/
structure ControlBlock where
  /-- The consumers' reservation counter of a ring; the heartbeat of a `SharedLatest`. -/
  headReserve : ℕ
  /-- How far the consumers have freed the ring. -/
  headPublish : ℕ
  /-- The producers' reservation counter. -/
  tailReserve : ℕ
  /-- How far the producers have published; the notification counter of a `SharedLatest`. -/
  tailPublish : ℕ
  /-- The record sequence of a ring; the seqlock counter of a `SharedLatest`. -/
  sequence : ℕ
deriving DecidableEq, Repr

/-- What the processes share: the control block and the bytes of the ring. -/
structure Shared where
  /-- The control block. -/
  control : ControlBlock
  /-- The bytes of the ring region, by their offset. -/
  ring : Memory

/-- The one write that a step may make to the shared memory. -/
inductive Effect
  /-- The step writes nothing. -/
  | none
  /-- A store to `head_reserve`. -/
  | headReserve (v : ℕ)
  /-- A store to `head_publish`. -/
  | headPublish (v : ℕ)
  /-- A store to `tail_reserve`. -/
  | tailReserve (v : ℕ)
  /-- A store to `tail_publish`. -/
  | tailPublish (v : ℕ)
  /-- A store to `sequence`. -/
  | sequence (v : ℕ)
  /-- A store to the ring. -/
  | ring (st : Store)

/-- The shared memory after a step's effect. -/
def Effect.apply (m : Shared) : Effect → Shared
  | .none => m
  | .headReserve v => { m with control := { m.control with headReserve := v } }
  | .headPublish v => { m with control := { m.control with headPublish := v } }
  | .tailReserve v => { m with control := { m.control with tailReserve := v } }
  | .tailPublish v => { m with control := { m.control with tailPublish := v } }
  | .sequence v => { m with control := { m.control with sequence := v } }
  | .ring st => { m with ring := st.apply m.ring }

/-- The store of one byte. -/
theorem ring_apply_byte (m : Shared) (a : ℕ) (x : UInt8) (b : ℕ) :
    ((Effect.ring ⟨a, [x]⟩).apply m).ring b = if b = a then x else m.ring b := by
  simp only [Effect.apply, Store.apply, Memory.write, List.length_singleton]
  by_cases hb : b = a
  · subst hb
    simp
  · rw [if_neg (by omega), if_neg hb]

/-- The shared memory that `create_mapping` leaves: all bytes and counters zero. -/
def Shared.fresh : Shared where
  control := ⟨0, 0, 0, 0, 0⟩
  ring := fun _ => 0

end LfRing

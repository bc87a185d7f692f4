import LfRing.Library.Circular
import LfRing.Mapping

/-!
# The slots of an `SPSCQueue`

The template parameters of `include/lf_ring/spsc_queue.hpp` and the arithmetic of its two counters.
The counters are 64-bit values that only ever go up by one, and may wrap. The queue takes their
difference in wrapping arithmetic, and finds the slot of a counter with a mask.

In the proofs a counter stands for a position, a natural number that does not wrap. `Capacity`
divides `2^64`, so the slot of a position is its residue modulo `Capacity` (`slot_u64`), across the
wrap too. Positions less than `Capacity` apart have slots that share no byte (`apart_of_window`).

The last two need the slots' offsets to be exact, that is, `Capacity * sizeof(T)` must not exceed
`2^64` (`Fits`). Nothing in the source asserts this.
-/

namespace LfRing.Queue

/-- The parameters of `SPSCQueue<T, Capacity>`, as its assertions let them be. -/
structure Geometry where
  /-- `Capacity`. -/
  capacity : ℕ
  /-- `sizeof(T)`. -/
  sizeofT : ℕ
  /-- The assertion on `Capacity`. -/
  powerOfTwo : 0 < capacity ∧ capacity &&& (capacity - 1) = 0
  /-- `Capacity` is a `std::size_t`. -/
  capacity_lt : capacity < 2^64

namespace Geometry

variable (g : Geometry)

/-- `kMask`. -/
def kMask : ℕ := g.capacity - 1

/-- `Capacity * sizeof(T)`, the bytes asked of the mapping. -/
def bytes : ℕ := u64 (g.capacity * g.sizeofT)

/-- Where the slot of a counter starts in the ring, `(t & kMask) * sizeof(T)`. -/
def slot (t : ℕ) : ℕ := u64 ((t &&& g.kMask) * g.sizeofT)

/-- All slots fit into the 64-bit range of offsets. -/
def Fits : Prop := g.capacity * g.sizeofT ≤ 2^64

/-- The slots of two counters share no byte. -/
def Apart (t t' : ℕ) : Prop :=
  g.slot t + g.sizeofT ≤ g.slot t' ∨ g.slot t' + g.sizeofT ≤ g.slot t

/-- `Capacity` is a power of two with an exponent below 64. -/
theorem exists_capacity_eq : ∃ k < 64, g.capacity = 2^k := by
  obtain ⟨hpos, hand⟩ := g.powerOfTwo
  obtain ⟨k, hk⟩ := (Nat.and_sub_one_eq_zero_iff_isPowerOfTwo (by omega)).mp hand
  refine ⟨k, ?_, hk⟩
  have hlt := g.capacity_lt
  rw [hk] at hlt
  exact (Nat.pow_lt_pow_iff_right (by norm_num)).mp hlt

/-- `Capacity` divides the range of the counters. -/
theorem capacity_dvd : g.capacity ∣ 2^64 := by
  obtain ⟨k, hk, heq⟩ := g.exists_capacity_eq
  rw [heq]
  exact Nat.pow_dvd_pow 2 hk.le

/-- The mask takes a counter modulo `Capacity`. -/
theorem and_kMask (t : ℕ) : t &&& g.kMask = t % g.capacity := by
  obtain ⟨k, -, heq⟩ := g.exists_capacity_eq
  rw [kMask, heq, Nat.and_two_pow_sub_one_eq_mod]

variable {g}

/-- The slot of a position, whether or not the counter has wrapped. -/
theorem slot_u64 (h : g.Fits) (p : ℕ) : g.slot (u64 p) = p % g.capacity * g.sizeofT := by
  have hmod : u64 p % g.capacity = p % g.capacity := Nat.mod_mod_of_dvd p g.capacity_dvd
  rw [slot, and_kMask, hmod]
  rcases Nat.eq_zero_or_pos g.sizeofT with hzero | hpos
  · rw [hzero]
    rfl
  · apply u64_of_lt
    calc p % g.capacity * g.sizeofT < g.capacity * g.sizeofT :=
          Nat.mul_lt_mul_of_pos_right (Nat.mod_lt _ g.powerOfTwo.1) hpos
      _ ≤ 2^64 := h

/-- Slots with different numbers share no byte. -/
theorem mul_apart {i j n : ℕ} (h : i < j) : i * n + n ≤ j * n := by
  rw [← Nat.succ_mul]
  exact Nat.mul_le_mul_right n h

/-- Two positions of a window of `Capacity` positions have slots that share no byte. -/
theorem apart_of_window (h : g.Fits) {q p p' : ℕ} (hp : q ≤ p) (hp' : p < q + g.capacity)
    (hq : q ≤ p') (hq' : p' < q + g.capacity) (hne : p ≠ p') : g.Apart (u64 p) (u64 p') := by
  rw [Apart, slot_u64 h, slot_u64 h]
  rcases Nat.lt_trichotomy (p % g.capacity) (p' % g.capacity) with hlt | heq | hgt
  · exact Or.inl (mul_apart hlt)
  · exact absurd (eq_of_mod_eq hp hp' hq hq' heq) hne
  · exact Or.inr (mul_apart hgt)

end Geometry

end LfRing.Queue

import Mathlib.Data.Nat.ModEq
import LfRing.Library.Bytes

/-!
# Circular addressing

Positions in an endless stream are kept in a buffer of `c` bytes by reducing them modulo `c`. As
long as the positions in use lie in one window of `c` consecutive ones, distinct positions have
distinct addresses (`eq_of_mod_eq`). A range of positions that does not cross the end of the buffer
is a range of addresses (`add_mod_of_fits`).

`AgreeOn` compares two memories on the addresses of a range of positions, and `Store.Covers` says
that a store writes the addresses of positions in a given range. A store that covers positions of a
window changes no address of the window's other positions (`Store.Covers.agreeOn`).
-/

namespace LfRing

/-- Two positions in one window with the same address are the same. -/
theorem eq_of_mod_eq {c h v w : ℕ} (hv : h ≤ v) (hv' : v < h + c) (hw : h ≤ w) (hw' : w < h + c)
    (heq : v % c = w % c) : v = w := by
  rcases Nat.lt_trichotomy v w with hlt | rfl | hgt
  · have hdvd : c ∣ w - v := (Nat.modEq_iff_dvd' hlt.le).mp heq
    have := Nat.le_of_dvd (by omega) hdvd
    omega
  · rfl
  · have hdvd : c ∣ v - w := (Nat.modEq_iff_dvd' hgt.le).mp heq.symm
    have := Nat.le_of_dvd (by omega) hdvd
    omega

/-- The addresses of positions that do not cross the end of the buffer are consecutive. -/
theorem add_mod_of_fits {c o n k : ℕ} (hfit : o % c + n ≤ c) (hk : k < n) :
    (o + k) % c = o % c + k := by
  rw [Nat.add_mod, Nat.mod_eq_of_lt (show k < c by omega), Nat.mod_eq_of_lt (by omega)]

/-- The positions that reach the end of the buffer are followed by address zero. -/
theorem add_sub_mod_self {c o : ℕ} (hc : 0 < c) : (o + (c - o % c)) % c = 0 := by
  have hlt := Nat.mod_lt o hc
  have hdiv := Nat.div_add_mod o c
  have hsum : o + (c - o % c) = c * (o / c + 1) := by rw [Nat.mul_add]; omega
  rw [hsum, Nat.mul_mod_right]

/-- The two memories agree on the addresses of the positions from `a` up to `b`. -/
def AgreeOn (c : ℕ) (m m' : Memory) (a b : ℕ) : Prop :=
  ∀ v, a ≤ v → v < b → m' (v % c) = m (v % c)

/-- A memory agrees with itself. -/
theorem AgreeOn.refl (c : ℕ) (m : Memory) (a b : ℕ) : AgreeOn c m m a b := fun _ _ _ => rfl

/-- Agreement on a range is agreement on its parts. -/
theorem AgreeOn.mono {c : ℕ} {m m' : Memory} {a b a' b' : ℕ} (h : AgreeOn c m m' a b)
    (ha : a ≤ a') (hb : b' ≤ b) : AgreeOn c m m' a' b' :=
  fun v h1 h2 => h v (by omega) (by omega)

/-- Positions in the range that do not cross the end of the buffer have their bytes in common. -/
theorem AgreeOn.apply {c : ℕ} {m m' : Memory} {a b o n : ℕ} (h : AgreeOn c m m' a b)
    (ha : a ≤ o) (hb : o + n ≤ b) (hfit : o % c + n ≤ c) :
    ∀ x, o % c ≤ x → x < o % c + n → m' x = m x := by
  intro x h1 h2
  have hx : (o + (x - o % c)) % c = x := by
    rw [add_mod_of_fits hfit (by omega)]
    omega
  rw [← hx]
  exact h _ (by omega) (by omega)

namespace Store

/-- The store writes the addresses of one or more consecutive positions between `a` and `b`, without
crossing the end of the buffer. -/
def Covers (c a b : ℕ) (st : Store) : Prop :=
  0 < st.bytes.length ∧
    ∃ o, a ≤ o ∧ o + st.bytes.length ≤ b ∧ st.addr = o % c ∧ o % c + st.bytes.length ≤ c

/-- A store that covers positions of a range covers positions of a larger one. -/
theorem Covers.mono {c a b a' b' : ℕ} {st : Store} (h : st.Covers c a b) (ha : a' ≤ a)
    (hb : b ≤ b') : st.Covers c a' b' := by
  obtain ⟨h0, o, h1, h2, h3, h4⟩ := h
  exact ⟨h0, o, by omega, by omega, h3, h4⟩

/-- The store at offset `k` of a run of `n` positions that does not cross the end of the buffer. -/
theorem covers_of_fits {c o n k : ℕ} {bs : List UInt8} (hfit : o % c + n ≤ c)
    (hk : k + bs.length ≤ n) (hpos : 0 < bs.length) :
    (Store.mk (o % c + k) bs).Covers c o (o + n) := by
  refine ⟨hpos, o + k, by omega, by simp only; omega, ?_, ?_⟩
  · rw [add_mod_of_fits hfit (by omega)]
  · rw [add_mod_of_fits hfit (by omega)]
    simp only
    omega

/-- Such a store does not reach beyond the buffer. -/
theorem Covers.addr_add_le {c a b : ℕ} {st : Store} (h : st.Covers c a b) :
    st.addr + st.bytes.length ≤ c := by
  obtain ⟨-, o, -, -, haddr, hle⟩ := h
  rwa [haddr]

/-- A byte of a store covers one of its positions. -/
theorem Covers.bytewise {c a b : ℕ} {st x : Store} (h : st.Covers c a b) (hx : x ∈ st.bytewise) :
    x.Covers c a b := by
  obtain ⟨i, y, hi, rfl⟩ := mem_bytewise hx
  obtain ⟨-, o, h1, h2, h3, h4⟩ := h
  rw [h3]
  have hone : (Store.mk (o % c + i) [y]).Covers c o (o + st.bytes.length) :=
    covers_of_fits h4 (by simp only [List.length_singleton]; omega) (by simp)
  exact hone.mono h1 h2

/-- A store that covers positions between `a` and `b` of a window leaves alone the window's other
positions. -/
theorem Covers.agreeOn {c a b h : ℕ} {st : Store} (hc : st.Covers c a b) (m : Memory)
    (ha : h ≤ a) (hb : b ≤ h + c) {a' b' : ℕ} (ha' : h ≤ a') (hb' : b' ≤ h + c)
    (hdis : b' ≤ a ∨ b ≤ a') : AgreeOn c m (st.apply m) a' b' := by
  obtain ⟨-, o, h1, h2, h3, h4⟩ := hc
  intro v hv hv'
  apply Memory.write_of_not_mem
  by_contra hin
  rw [h3] at hin
  -- The address lies in the store, so its position is one of the store's.
  have hk : (o + (v % c - o % c)) % c = v % c := by
    rw [add_mod_of_fits h4 (by omega)]
    omega
  have := eq_of_mod_eq (h := h) (by omega) (by omega) (by omega) (by omega) hk
  omega

/-- The bytes of a store are kept by a memory that agrees on the positions it covers. -/
theorem Holds.of_agreeOn {c a b : ℕ} {m m' : Memory} {st : Store} (h : Holds m st)
    (hc : st.Covers c a b) (hag : AgreeOn c m m' a b) : Holds m' st := by
  obtain ⟨-, o, h1, h2, h3, h4⟩ := hc
  apply h.congr
  rw [h3]
  exact hag.apply h1 h2 h4

/-- Stores that cover separate positions of one window are disjoint. -/
theorem Covers.disjoint {c a b a' b' h : ℕ} {st st' : Store} (hc : st.Covers c a b)
    (hc' : st'.Covers c a' b') (ha : h ≤ a) (hba : b ≤ a') (hb' : b' ≤ h + c) :
    st.Disjoint st' := by
  obtain ⟨-, o, h1, h2, h3, h4⟩ := hc
  obtain ⟨h0', o', h1', h2', h3', h4'⟩ := hc'
  unfold Disjoint
  rw [h3, h3']
  by_contra hmeet
  -- The larger of the two first addresses belongs to both stores.
  rcases Nat.le_total (o % c) (o' % c) with hle | hle
  · have hk : (o + (o' % c - o % c)) % c = o' % c := by
      rw [add_mod_of_fits h4 (by omega)]
      omega
    have := eq_of_mod_eq (h := h) (by omega) (by omega) (by omega) (by omega) hk
    omega
  · have hk : o % c = (o' + (o % c - o' % c)) % c := by
      rw [add_mod_of_fits h4' (by omega)]
      omega
    have := eq_of_mod_eq (h := h) (by omega) (by omega) (by omega) (by omega) hk
    omega

end Store

end LfRing

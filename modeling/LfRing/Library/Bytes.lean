import Mathlib.Tactic.Common
import Mathlib.Tactic.Ring

/-!
# Byte memory

A memory is a function from addresses to bytes. Words of several bytes are little-endian. A `Store`
is one write of consecutive bytes, and `Store.Holds` says that a memory still has them. A store
does not disturb the bytes of a disjoint one (`Store.Holds.apply_of_disjoint`), which is all that
code writing separate fields one after the other needs.
-/

namespace LfRing

/-- A byte-addressed memory. -/
abbrev Memory := ℕ → UInt8

/-- The `n` low bytes of `v`, least significant first. -/
def leBytes : ℕ → ℕ → List UInt8
  | 0, _ => []
  | n + 1, v => UInt8.ofNat v :: leBytes n (v / 256)

/-- The value of a list of bytes, least significant first. -/
def leVal : List UInt8 → ℕ
  | [] => 0
  | b :: bs => b.toNat + 256 * leVal bs

/-- A block of one byte. -/
def oneByte (x : UInt8) : { bytes : List UInt8 // bytes.length = 1 } := ⟨[x], rfl⟩

/-- A block of two bytes. -/
def bytePair (x y : UInt8) : { bytes : List UInt8 // bytes.length = 2 } := ⟨[x, y], rfl⟩

/-- The encoding has as many bytes as asked for. -/
@[simp] theorem length_leBytes (n v : ℕ) : (leBytes n v).length = n := by
  induction n generalizing v with
  | zero => rfl
  | succ n ih => simp [leBytes, ih]

/-- The decoding of an encoding is the value, reduced to the width of the encoding. -/
theorem leVal_leBytes (n v : ℕ) : leVal (leBytes n v) = v % 256 ^ n := by
  induction n generalizing v with
  | zero => simp [leBytes, leVal, Nat.mod_one]
  | succ n ih =>
    rw [leBytes, leVal, ih, pow_succ', Nat.mod_mul]
    simp

/-- A value that fits the encoding is decoded exactly. -/
theorem leVal_leBytes_of_lt {n v : ℕ} (h : v < 256 ^ n) : leVal (leBytes n v) = v := by
  rw [leVal_leBytes, Nat.mod_eq_of_lt h]

/-- As many bytes are worth less than the next power. -/
theorem leVal_lt (bs : List UInt8) : leVal bs < 256 ^ bs.length := by
  induction bs with
  | nil => decide
  | cons b bs ih =>
    have hb := b.toNat_lt
    rw [leVal, List.length_cons, pow_succ]
    omega

/-- A list that agrees with a memory up to `j` and is given its byte there agrees up to `j + 1`. -/
theorem getD_set_upTo {out : List UInt8} {j : ℕ} {m : Memory} (hj : j < out.length)
    (h : ∀ b < j, out.getD b 0 = m b) : ∀ b < j + 1, (out.set j (m j)).getD b 0 = m b := by
  intro b hb
  rw [List.getD_eq_getElem?_getD, List.getElem?_set]
  split_ifs with hjb
  · rw [← hjb]
    rfl
  · rw [← List.getD_eq_getElem?_getD]
    exact h b (by omega)

namespace Memory

/-- The `n` bytes from address `a` on. -/
def read (m : Memory) (a n : ℕ) : List UInt8 := (List.range n).map fun i => m (a + i)

/-- The `n`-byte word at address `a`. -/
def load (m : Memory) (a n : ℕ) : ℕ := leVal (m.read a n)

/-- The memory with the bytes `bs` written from address `a` on. -/
def write (m : Memory) (a : ℕ) (bs : List UInt8) : Memory :=
  fun x => if a ≤ x ∧ x < a + bs.length then bs.getD (x - a) 0 else m x

/-- As many bytes are read as asked for. -/
@[simp] theorem length_read (m : Memory) (a n : ℕ) : (m.read a n).length = n := by
  simp [read]

/-- A word is below the range of its bytes. -/
theorem load_lt (m : Memory) (a n : ℕ) : m.load a n < 256 ^ n := by
  have h := leVal_lt (m.read a n)
  rwa [length_read] at h

/-- The bytes read are those of the memory. -/
theorem getElem?_read {m : Memory} {a n i : ℕ} (h : i < n) :
    (m.read a n)[i]? = some (m (a + i)) := by
  simp [read, h]

/-- Two memories that agree on a range of addresses read the same there. -/
theorem read_congr {m m' : Memory} {a n : ℕ} (h : ∀ x, a ≤ x → x < a + n → m' x = m x) :
    m'.read a n = m.read a n := by
  unfold read
  apply List.map_congr_left
  intro i hi
  exact h _ (by omega) (by have := List.mem_range.mp hi; omega)

/-- A write leaves the addresses outside it alone. -/
theorem write_of_not_mem {m : Memory} {a : ℕ} {bs : List UInt8} {x : ℕ}
    (h : x < a ∨ a + bs.length ≤ x) : m.write a bs x = m x := by
  unfold write
  rw [if_neg (by omega)]

/-- What was written is read back. -/
theorem read_write (m : Memory) (a : ℕ) (bs : List UInt8) :
    (m.write a bs).read a bs.length = bs := by
  apply List.ext_getElem?
  intro i
  by_cases h : i < bs.length
  · rw [getElem?_read h, write, if_pos (by omega), List.getElem?_eq_getElem h]
    simp [h]
  · rw [List.getElem?_eq_none (by rw [length_read]; omega), List.getElem?_eq_none (by omega)]

end Memory

/-- One write of consecutive bytes. -/
structure Store where
  /-- The address of the first byte. -/
  addr : ℕ
  /-- The bytes written. -/
  bytes : List UInt8

namespace Store

/-- The memory after the write. -/
def apply (st : Store) (m : Memory) : Memory := m.write st.addr st.bytes

/-- The memory has the bytes of the store. -/
def Holds (m : Memory) (st : Store) : Prop := m.read st.addr st.bytes.length = st.bytes

/-- The two stores have no address in common. -/
def Disjoint (st st' : Store) : Prop :=
  st.addr + st.bytes.length ≤ st'.addr ∨ st'.addr + st'.bytes.length ≤ st.addr

/-- Disjointness does not depend on the order of the two stores. -/
theorem Disjoint.symm {st st' : Store} (h : st.Disjoint st') : st'.Disjoint st := Or.symm h

/-- After a store, the memory has its bytes. -/
theorem holds_apply (st : Store) (m : Memory) : Holds (st.apply m) st :=
  Memory.read_write m st.addr st.bytes

/-- A store leaves the bytes of a disjoint one in place. -/
theorem Holds.apply_of_disjoint {m : Memory} {st st' : Store} (h : Holds m st)
    (hd : st.Disjoint st') : Holds (st'.apply m) st := by
  unfold Holds at h ⊢
  rw [← h, Memory.length_read]
  apply Memory.read_congr
  intro x h1 h2
  apply Memory.write_of_not_mem
  unfold Disjoint at hd
  omega

/-- The bytes of a store depend only on the addresses it covers. -/
theorem Holds.congr {m m' : Memory} {st : Store} (h : Holds m st)
    (heq : ∀ x, st.addr ≤ x → x < st.addr + st.bytes.length → m' x = m x) : Holds m' st := by
  unfold Holds at h ⊢
  rw [← h, Memory.length_read]
  exact Memory.read_congr heq

/-- A word that a memory still has is loaded back. -/
theorem Holds.load_eq {m : Memory} {a n v : ℕ} (h : Holds m ⟨a, leBytes n v⟩) (hv : v < 256 ^ n) :
    m.load a n = v := by
  unfold Holds at h
  simp only [length_leBytes] at h
  rw [Memory.load, h, leVal_leBytes_of_lt hv]

/-! ## Lists of stores, one at a time

Straight-line code that fills a region is a list of stores. Other code may run between two of them,
so what is known at each point is only that the stores already made still hold. -/

/-- The stores `todo` are what is left of the list `all`, and the memory has the bytes of the
others. -/
def Progress (m : Memory) (all todo : List Store) : Prop :=
  ∃ made, all = made ++ todo ∧ ∀ st ∈ made, Holds m st

/-- Nothing is claimed before the first store. -/
theorem Progress.start (m : Memory) (all : List Store) : Progress m all all :=
  ⟨[], rfl, by simp⟩

/-- After the last store, the memory has the bytes of all of them. -/
theorem Progress.holds {m : Memory} {all : List Store} (h : Progress m all []) :
    ∀ st ∈ all, Holds m st := by
  obtain ⟨made, rfl, hm⟩ := h
  simpa using hm

/-- The next of a list of pairwise disjoint stores keeps the ones before it. -/
theorem Progress.next {m : Memory} {all todo : List Store} {st : Store}
    (hd : all.Pairwise Disjoint) (h : Progress m all (st :: todo)) :
    Progress (st.apply m) all todo := by
  obtain ⟨made, rfl, hm⟩ := h
  refine ⟨made ++ [st], by simp, ?_⟩
  intro st' hst'
  rcases List.mem_append.mp hst' with hin | hin
  · have hdis := (List.pairwise_append.mp hd).2.2 st' hin st (by simp)
    exact (hm st' hin).apply_of_disjoint hdis
  · rw [List.mem_singleton.mp hin]
    exact holds_apply st m

/-- Code that keeps the bytes of every store of the list keeps the progress made. -/
theorem Progress.frame {m m' : Memory} {all todo : List Store} (h : Progress m all todo)
    (hkeep : ∀ st ∈ all, Holds m st → Holds m' st) : Progress m' all todo := by
  obtain ⟨made, rfl, hm⟩ := h
  exact ⟨made, rfl, fun st hst => hkeep st (by simp [hst]) (hm st hst)⟩

/-- What is left to store is part of the list. -/
theorem Progress.mem {m : Memory} {all todo : List Store} (h : Progress m all todo) {st : Store}
    (hst : st ∈ todo) : st ∈ all := by
  obtain ⟨made, rfl, -⟩ := h
  simp [hst]

/-! ## Byte by byte -/

/-- A store, taken apart into stores of one byte each. -/
def bytewise (st : Store) : List Store := st.bytes.mapIdx fun i b => ⟨st.addr + i, [b]⟩

/-- What a store of one byte among them looks like. -/
theorem mem_bytewise {st x : Store} (h : x ∈ st.bytewise) :
    ∃ i b, i < st.bytes.length ∧ x = ⟨st.addr + i, [b]⟩ := by
  obtain ⟨i, hi, rfl⟩ := List.mem_mapIdx.mp h
  exact ⟨i, st.bytes[i], hi, rfl⟩

/-- A memory that has every byte of a store has the store. -/
theorem holds_of_bytewise {m : Memory} {st : Store} (h : ∀ x ∈ st.bytewise, Holds m x) :
    Holds m st := by
  apply List.ext_getElem (Memory.length_read _ _ _)
  intro i hi hi'
  have hx := h ⟨st.addr + i, [st.bytes[i]]⟩ (List.mem_mapIdx.mpr ⟨i, hi', rfl⟩)
  simp only [Holds, Memory.read, List.length_singleton, List.range_one, List.map_cons,
    List.map_nil, Nat.add_zero, List.cons.injEq, and_true] at hx
  simp only [Memory.read, List.getElem_map, List.getElem_range]
  exact hx

/-- What is disjoint from a store is disjoint from its bytes. -/
theorem Disjoint.bytewise {st st' x : Store} (h : st.Disjoint st') (hx : x ∈ st'.bytewise) :
    st.Disjoint x := by
  obtain ⟨i, b, hi, rfl⟩ := mem_bytewise hx
  unfold Disjoint at h ⊢
  simp only [List.length_singleton]
  omega

/-- The bytes of a store are disjoint. -/
theorem bytewise_pairwise (st : Store) : st.bytewise.Pairwise Disjoint := by
  rw [Store.bytewise, List.pairwise_iff_getElem]
  intro i j hi hj hij
  simp only [List.getElem_mapIdx, Disjoint, List.length_singleton]
  omega

/-- The bytes of disjoint stores are disjoint. -/
theorem flatMap_bytewise_pairwise {sts : List Store} (h : sts.Pairwise Disjoint) :
    (sts.flatMap bytewise).Pairwise Disjoint := by
  rw [List.pairwise_flatMap]
  refine ⟨fun st _ => st.bytewise_pairwise, h.imp ?_⟩
  intro st st' hd x hx y hy
  exact ((hd.symm.bytewise hx).symm).bytewise hy

/-- A memory that has every byte of a list of stores has the stores. -/
theorem holds_of_flatMap_bytewise {m : Memory} {sts : List Store}
    (h : ∀ x ∈ sts.flatMap bytewise, Holds m x) : ∀ st ∈ sts, Holds m st :=
  fun st hst => holds_of_bytewise fun x hx => h x (List.mem_flatMap.mpr ⟨st, hst, hx⟩)

/-! ## All of a list of stores -/

/-- The memory with all the stores made, one after the other. -/
def applyAll (sts : List Store) (m : Memory) : Memory := sts.foldl (fun m st => st.apply m) m

/-- No stores leave the memory as it is. -/
@[simp] theorem applyAll_nil (m : Memory) : applyAll [] m = m := rfl

/-- The first store comes first. -/
@[simp] theorem applyAll_cons (st : Store) (sts : List Store) (m : Memory) :
    applyAll (st :: sts) m = applyAll sts (st.apply m) := rfl

/-- The stores of two lists are made one list after the other. -/
theorem applyAll_append (sts sts' : List Store) (m : Memory) :
    applyAll (sts ++ sts') m = applyAll sts' (applyAll sts m) :=
  List.foldl_append ..

/-- Its bytes one by one are the store. -/
theorem applyAll_bytewise (st : Store) (m : Memory) : applyAll st.bytewise m = st.apply m := by
  obtain ⟨a, bs⟩ := st
  change applyAll (bs.mapIdx fun i b => ⟨a + i, [b]⟩) m = m.write a bs
  induction bs generalizing a m with
  | nil =>
    funext x
    simp [Memory.write]
  | cons b bs ih =>
    have hshift : (bs.mapIdx fun i b => (⟨a + (i + 1), [b]⟩ : Store)) =
        bs.mapIdx fun i b => ⟨a + 1 + i, [b]⟩ := by
      simp only [Nat.add_assoc, Nat.add_comm 1]
    rw [List.mapIdx_cons, applyAll_cons, hshift, ih]
    funext x
    simp only [Store.apply, Memory.write, List.length_cons, List.length_nil, Nat.add_zero]
    by_cases hx : x = a
    · subst hx
      simp
    · by_cases hin : a + 1 ≤ x ∧ x < a + 1 + bs.length
      · have hnext : x - a = x - (a + 1) + 1 := by omega
        rw [if_pos hin, if_pos (by omega), hnext, List.getD_cons_succ]
      · rw [if_neg hin, if_neg (by omega), if_neg (by omega)]

/-- The bytes of all stores one by one are the stores. -/
theorem applyAll_flatMap_bytewise (sts : List Store) (m : Memory) :
    applyAll (sts.flatMap bytewise) m = applyAll sts m := by
  induction sts generalizing m with
  | nil => rfl
  | cons st sts ih => rw [List.flatMap_cons, applyAll_append, applyAll_bytewise, ih, applyAll_cons]

/-- With disjoint stores made, the memory has the bytes of all of them. -/
theorem holds_applyAll {sts : List Store} (h : sts.Pairwise Disjoint) (m : Memory) :
    ∀ st ∈ sts, Holds (applyAll sts m) st := by
  have hprogress : ∀ (todo : List Store) (m : Memory), Progress m sts todo →
      Progress (applyAll todo m) sts [] := by
    intro todo
    induction todo with
    | nil => exact fun _ hp => hp
    | cons st todo ih => exact fun m hp => ih _ (hp.next h)
  exact (hprogress sts m (.start m sts)).holds

end Store

end LfRing

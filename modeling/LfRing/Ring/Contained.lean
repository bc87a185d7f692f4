import LfRing.Mapping
import LfRing.Ring.Calls

/-!
# Popping a ring that no producer would have left like that

`try_pop` of the three rings on arbitrary bytes and counters, as another process may have left them.
All three check the size that they find in a header against the end of the ring and against the tail
before they look at the payload, so nothing is read outside the ring (`read?`).

Where a header has no room, or has the wrap flag, the loops skip the rest of the ring. Only
`SharedRingBufferMPMC` compares what it skips with the tail. In the other two the head moves past
the tail if the rest of the ring is longer than what is published, and since the tail is then never
met, the loop may go on for as long as it finds wrap flags. `contained_iff` says exactly when it
does not: the first skip ends before the tail or at it, and is not followed by another one.
-/

namespace LfRing

/-! ## Distances on the ring of counters -/

section Distances

variable {a b k n : ℕ}

/-- The counter `k` ahead of another one is `k` ahead of it. -/
theorem sub64_u64_add (hb : b < 2^64) (hk : k < 2^64) : sub64 (u64 (b + k)) b = k := by
  unfold sub64 u64
  omega

/-- Moving on by no more than the distance to `a` makes the distance smaller by as much. -/
theorem sub64_sub64 (ha : a < 2^64) (hb : b < 2^64) (hn : n < 2^64)
    (h : sub64 n b ≤ sub64 a b) : sub64 a n = sub64 a b - sub64 n b := by
  unfold sub64 at h ⊢
  omega

/-- What does not go past `a` in two moves does not go past it. -/
theorem sub64_le_trans {o : ℕ} (ha : a < 2^64) (hb : b < 2^64) (hn : n < 2^64) (ho : o < 2^64)
    (h : sub64 b o ≤ sub64 a o) (h' : sub64 n b ≤ sub64 a b) : sub64 n o ≤ sub64 a o := by
  unfold sub64 at h h' ⊢
  omega

end Distances

/-- The start of the next lap of the ring, `head + remaining`. -/
def nextLap (cap head : ℕ) : ℕ := u64 (head + (cap - head % cap))

/-- The loop of `try_pop` passes over the rest of the ring at `head`: there is no room for a header,
or the header there has the wrap flag. -/
def Skips (cap : ℕ) (ring : Memory) (head : ℕ) : Prop :=
  cap - head % cap < sizeofRecordHeader ∨ ring.load (head % cap + 6) 2 &&& kWrapFlag ≠ 0

/-- The loop ends at `head`: it has met the tail, or looks at a record. -/
def EndsAt (cap : ℕ) (m : Shared) (head : ℕ) : Prop :=
  head = m.control.tailPublish ∨ ¬ Skips cap m.ring head

/-- What the loop skips at `head` is published, and the loop ends behind it. -/
def SkipsFit (cap : ℕ) (m : Shared) (head : ℕ) : Prop :=
  EndsAt cap m head ∨
    (cap - head % cap ≤ sub64 m.control.tailPublish head ∧ EndsAt cap m (nextLap cap head))

section Laps

variable {cap head tail : ℕ}

/-- A lap is left by what remains of it. -/
theorem sub64_nextLap (hcap : cap < 2^64) (hhead : head < 2^64) :
    sub64 (nextLap cap head) head = cap - head % cap :=
  sub64_u64_add hhead (by omega)

/-- Behind what was skipped there is never as much published as another skip would need. -/
theorem sub64_lt_of_nextLap (hcap : 0 < cap) (hhead : head < 2^64) (htail : tail < 2^64)
    (hused : sub64 tail head ≤ cap) (hfit : cap - head % cap ≤ sub64 tail head) :
    sub64 tail (nextLap cap head) < cap - nextLap cap head % cap := by
  have hmod := Nat.mod_lt head hcap
  have hlt : sub64 tail head < 2^64 := Nat.mod_lt _ (by norm_num)
  have hlap : sub64 (nextLap cap head) head = cap - head % cap := sub64_u64_add hhead (by omega)
  have hrest : sub64 tail (nextLap cap head) = sub64 tail head - (cap - head % cap) := by
    rw [← hlap]
    exact sub64_sub64 htail hhead (u64_lt _) (by omega)
  rw [hrest]
  by_cases hwrap : head + (cap - head % cap) < 2^64
  · rw [nextLap, u64_of_lt hwrap, add_sub_mod_self hcap]
    omega
  · -- The counter wraps, into the first lap, and behind what was skipped less is left of that one.
    have hnext : nextLap cap head = head + (cap - head % cap) - 2^64 := by
      unfold nextLap u64
      omega
    have hsmall : nextLap cap head % cap = nextLap cap head := Nat.mod_eq_of_lt (by omega)
    rw [hsmall]
    omega

end Laps

/-- The store of `head` moves the head, and not past the tail. -/
def Moves (m : Shared) (head : ℕ) : Prop :=
  head < 2^64 ∧ 0 < sub64 head m.control.headPublish ∧
    sub64 head m.control.headPublish ≤ sub64 m.control.tailPublish m.control.headPublish

/-- As much is published at `head` as a record with a payload of `size` bytes takes. -/
def SizeFits (m : Shared) (head size : ℕ) : Prop :=
  size < 2^32 ∧ recordSize size ≤ sub64 m.control.tailPublish head

/-- Behind such a record the head has not passed the tail. -/
theorem SizeFits.moves {size : ℕ} {m : Shared} (h : SizeFits m m.control.headPublish size)
    (hhead : m.control.headPublish < 2^64) :
    Moves m (u64 (m.control.headPublish + recordSize size)) := by
  obtain ⟨hsize, hle⟩ := h
  have hpos := le_recordSize hsize
  have hlt : sub64 m.control.tailPublish m.control.headPublish < 2^64 := Nat.mod_lt _ (by norm_num)
  have hmove := sub64_u64_add hhead (lt_of_le_of_lt hle hlt)
  exact ⟨u64_lt _, by omega, by omega⟩

/-- What the loop skips is more than nothing, and if it is published the head does not pass the
tail. -/
theorem moves_nextLap {cap : ℕ} {m : Shared} (hcap : 0 < cap) (hcap' : cap < 2^64)
    (hhead : m.control.headPublish < 2^64)
    (hfit : cap - m.control.headPublish % cap ≤
      sub64 m.control.tailPublish m.control.headPublish) :
    Moves m (nextLap cap m.control.headPublish) := by
  have hmod := Nat.mod_lt m.control.headPublish hcap
  have hmove := sub64_nextLap hcap' hhead
  exact ⟨u64_lt _, by omega, by omega⟩

/-! ## The single consumer -/

namespace PopPc

/-- The bytes of the ring that the next step loads: the first one, and how many. -/
def read? (cap : ℕ) : PopPc → Option (ℕ × ℕ)
  | loadFlags _ _ head => some (head % cap + 6, 2)
  | loadSize _ _ head => some (head % cap, 4)
  | copy _ head _ i _ => some (head % cap + sizeofRecordHeader + i, 1)
  | loadType _ head _ _ => some (head % cap + 4, 2)
  | loadSequence _ head _ _ _ => some (head % cap + 8, 8)
  | _ => none

/-- What has been checked before the bytes are loaded. -/
def Checked (cap : ℕ) : PopPc → Prop
  | loadFlags _ _ head => 16 ≤ cap - head % cap
  | loadSize _ _ head => 16 ≤ cap - head % cap
  | copy _ head size i _ => i < size ∧ size < 2^32 ∧ recordSize size ≤ cap - head % cap
  | loadType _ head size _ => size < 2^32 ∧ recordSize size ≤ cap - head % cap
  | loadSequence _ head size _ _ => size < 2^32 ∧ recordSize size ≤ cap - head % cap
  | _ => True

/-- So they lie in the ring. -/
theorem Checked.read_le {cap : ℕ} {pc : PopPc} (h : pc.Checked cap) {a n : ℕ}
    (hread : pc.read? cap = some (a, n)) : a + n ≤ cap := by
  cases pc with
  | loadFlags c tail head =>
    cases hread
    have hroom : 16 ≤ cap - head % cap := h
    omega
  | loadSize c tail head =>
    cases hread
    have hroom : 16 ≤ cap - head % cap := h
    omega
  | copy c head size i out =>
    cases hread
    obtain ⟨hi, hsize, hfit⟩ := h
    have hrecord := le_recordSize hsize
    unfold sizeofRecordHeader
    omega
  | loadType c head size out =>
    cases hread
    obtain ⟨hsize, hfit⟩ := h
    have hrecord := le_recordSize hsize
    omega
  | loadSequence c head size out type =>
    cases hread
    obtain ⟨hsize, hfit⟩ := h
    have hrecord := le_recordSize hsize
    omega
  | _ => cases hread

/-- The copy of a payload, with `i` bytes done. -/
theorem checked_copying {cap head size i : ℕ} {c : PopCall} {out : List UInt8} (hsize : size < 2^32)
    (hfit : recordSize size ≤ cap - head % cap) : (copying c head size i out).Checked cap := by
  unfold copying
  split_ifs with hi
  · exact ⟨hi, hsize, hfit⟩
  · exact ⟨hsize, hfit⟩

/-- The stores of the head load nothing. -/
theorem checked_advance {cap : ℕ} (order : HeadOrder) (head : ℕ) (k : PopThen) :
    (advance order head k).Checked cap := by
  cases order <;> exact trivial

/-- Every step checks what the next one loads, whatever is in the shared memory. -/
theorem Checked.step {order : HeadOrder} {cap : ℕ} {m : Shared} {pc pc' : PopPc} {l : PopLabel}
    {eff : Effect} {e : PopEvent} (h : pc.Checked cap)
    (hs : pc.step order cap m l = some (eff, pc', e)) : pc'.Checked cap := by
  cases step_cases hs with
  | skip c tail hne hshort => exact checked_advance _ _ _
  | wrap c tail head hflag => exact checked_advance _ _ _
  | type c head size out hwant => exact checked_advance _ _ _
  | sequence c head size out type => exact checked_advance _ _ _
  | header c tail hne hroom => exact hroom
  | record c tail head hflag => exact h
  | size c tail head =>
    -- Only a size that passes the two checks leads to the copy.
    cases l with
    | call c => cases hs
    | run =>
      rw [PopPc.step, examineSize] at hs
      split_ifs at hs with hend hfew
      · simp only [Option.some.injEq, Prod.mk.injEq, reduceCtorEq, and_false] at hs
      · simp only [Option.some.injEq, Prod.mk.injEq, reduceCtorEq, and_false] at hs
      · exact checked_copying (m.ring.load_lt _ 4) (not_lt.mp hend)
  | copy c head size i out => exact checked_copying h.2.1 h.2.2
  | typeThen c head size out hwant => exact h
  | publish head k last => cases k <;> cases last <;> trivial
  | reserve head k last => cases k <;> cases last <;> trivial
  | _ => trivial

/-- What is known in a call that skips nothing but what is published. -/
def Tame (cap : ℕ) (m : Shared) : PopPc → Prop
  | idle => True
  | loadTail _ => SkipsFit cap m m.control.headPublish
  | loadHead _ tail => tail = m.control.tailPublish ∧ SkipsFit cap m m.control.headPublish
  | loadFlags _ tail head => tail = m.control.tailPublish ∧ head = m.control.headPublish ∧
      head ≠ tail ∧ SkipsFit cap m head
  | loadSize _ tail head => tail = m.control.tailPublish ∧ head = m.control.headPublish
  | copy _ head size _ _ => head = m.control.headPublish ∧ SizeFits m head size
  | loadType _ head size _ => head = m.control.headPublish ∧ SizeFits m head size
  | loadSequence _ head size _ _ => head = m.control.headPublish ∧ SizeFits m head size
  | publish head (.again _) _ => Moves m head ∧ EndsAt cap m head
  | publish head (.done _ _) _ => Moves m head
  | reserve head (.again _) false => Moves m head ∧ EndsAt cap m head
  | reserve head (.done _ _) false => Moves m head
  | reserve _ (.again _) true => SkipsFit cap m m.control.headPublish
  | reserve _ (.done _ _) true => True

section Tame

variable {order : HeadOrder} {cap : ℕ} {m : Shared}

/-- The stores behind what was skipped. -/
theorem tame_advance_again {head : ℕ} {c : PopCall} (h : Moves m head) (hend : EndsAt cap m head) :
    (advance order head (.again c)).Tame cap m := by
  cases order <;> exact ⟨h, hend⟩

/-- The stores behind a record. -/
theorem tame_advance_done {head : ℕ} {c : PopCall} {res : Popped} (h : Moves m head) :
    (advance order head (.done c res)).Tame cap m := by
  cases order <;> exact h

/-- The copy of a payload, with `i` bytes done. -/
theorem tame_copying {size : ℕ} {c : PopCall} (i : ℕ) (out : List UInt8)
    (h : SizeFits m m.control.headPublish size) :
    (copying c m.control.headPublish size i out).Tame cap m := by
  unfold copying
  split_ifs
  · exact ⟨rfl, h⟩
  · exact ⟨rfl, h⟩

/-- What is skipped at the head is published. -/
theorem tame_skip {c : PopCall} (hcap : 0 < cap) (hcap' : cap < 2^64)
    (hhead : m.control.headPublish < 2^64)
    (hne : m.control.headPublish ≠ m.control.tailPublish)
    (hskips : Skips cap m.ring m.control.headPublish)
    (hfit : SkipsFit cap m m.control.headPublish) :
    (advance order (nextLap cap m.control.headPublish) (.again c)).Tame cap m := by
  obtain (heq | hnot) | ⟨hle, hend⟩ := hfit
  · exact absurd heq hne
  · exact absurd hskips hnot
  · exact tame_advance_again (moves_nextLap hcap hcap' hhead hle) hend

/-- Every step of the call keeps this. -/
theorem Tame.step {pc pc' : PopPc} {eff : Effect} {e : PopEvent} (h : pc.Tame cap m)
    (hcap : 0 < cap) (hcap' : cap < 2^64) (hhead : m.control.headPublish < 2^64)
    (hs : pc.step order cap m .run = some (eff, pc', e)) : pc'.Tame cap (eff.apply m) := by
  cases step_cases hs with
  | call c => cases hs
  | loadTail c => exact ⟨rfl, h⟩
  | empty c tail heq => trivial
  | skip c tail hne hshort =>
    obtain ⟨rfl, hfit⟩ := h
    exact tame_skip hcap hcap' hhead hne (Or.inl hshort) hfit
  | header c tail hne hroom => exact ⟨h.1, rfl, hne, h.2⟩
  | wrap c tail head hflag =>
    obtain ⟨rfl, rfl, hne, hfit⟩ := h
    exact tame_skip hcap hcap' hhead hne (Or.inr hflag) hfit
  | record c tail head hflag => exact ⟨h.1, h.2.1⟩
  | badSize c tail head hbad => trivial
  | size c tail head =>
    obtain ⟨rfl, rfl⟩ := h
    rw [PopPc.step, examineSize] at hs
    split_ifs at hs with hend hfew
    · simp only [Option.some.injEq, Prod.mk.injEq, reduceCtorEq, and_false] at hs
    · simp only [Option.some.injEq, Prod.mk.injEq, reduceCtorEq, and_false] at hs
    · exact tame_copying 0 _ ⟨m.ring.load_lt _ 4, not_lt.mp hfew⟩
  | copy c head size i out =>
    obtain ⟨rfl, hfit⟩ := h
    exact tame_copying (i + 1) _ hfit
  | type c head size out hwant =>
    obtain ⟨rfl, hfit⟩ := h
    exact tame_advance_done (hfit.moves hhead)
  | typeThen c head size out hwant => exact h
  | sequence c head size out type =>
    obtain ⟨rfl, hfit⟩ := h
    exact tame_advance_done (hfit.moves hhead)
  | publish head k last =>
    -- The new head is where the loop ends, if it goes on.
    cases k with
    | again c => cases last <;> exact Or.inl h.2
    | done c res => cases last <;> trivial
  | reserve head k last =>
    cases k with
    | again c => cases last <;> exact h
    | done c res => cases last <;> exact h

end Tame

end PopPc

/-! ## The many consumers -/

namespace Mpmc.Pc

/-- The bytes of the ring that the next step loads: the first one, and how many. -/
def read? (cap : ℕ) : Pc → Option (ℕ × ℕ)
  | loadFlags _ _ head => some (head % cap + 6, 2)
  | loadSize _ _ head => some (head % cap, 4)
  | copy _ head _ _ i _ => some (head % cap + sizeofRecordHeader + i, 1)
  | loadType _ head _ _ => some (head % cap + 4, 2)
  | loadSequence _ head _ _ _ => some (head % cap + 8, 8)
  | _ => none

/-- A consumer that is alone has claimed from the head to `newHead`, and not past the tail. -/
def Claims (m : Shared) (head newHead : ℕ) : Prop :=
  head = m.control.headPublish ∧ m.control.headReserve = newHead ∧ Moves m newHead

/-- What is known in a call that runs alone. -/
def Tame (cap : ℕ) (m : Shared) : Pc → Prop
  | idle => True
  | loadTail _ => m.control.headReserve = m.control.headPublish
  | loadHead _ tail => m.control.headReserve = m.control.headPublish ∧
      tail = m.control.tailPublish
  | loadFlags _ tail head => m.control.headReserve = m.control.headPublish ∧
      tail = m.control.tailPublish ∧ head = m.control.headPublish ∧ 16 ≤ cap - head % cap
  | loadSize _ tail head => m.control.headReserve = m.control.headPublish ∧
      tail = m.control.tailPublish ∧ head = m.control.headPublish ∧ 16 ≤ cap - head % cap
  | cas head newHead (.again _) => m.control.headReserve = m.control.headPublish ∧
      head = m.control.headPublish ∧ Moves m newHead
  | cas head newHead (.take _ size) => m.control.headReserve = m.control.headPublish ∧
      head = m.control.headPublish ∧ Moves m newHead ∧ size < 2^32 ∧
      recordSize size ≤ cap - head % cap
  | copy _ head newHead size i _ => Claims m head newHead ∧ i < size ∧ size < 2^32 ∧
      recordSize size ≤ cap - head % cap
  | loadType _ head newHead _ => Claims m head newHead ∧ 16 ≤ cap - head % cap
  | loadSequence _ head newHead _ _ => Claims m head newHead ∧ 16 ≤ cap - head % cap
  | awaitTurn head newHead _ => Claims m head newHead
  | publish head newHead _ => Claims m head newHead

section Tame

variable {cap : ℕ} {m : Shared}

/-- What is loaded next lies in the ring. -/
theorem Tame.read_le {pc : Pc} (h : pc.Tame cap m) {a n : ℕ} (hread : pc.read? cap = some (a, n)) :
    a + n ≤ cap := by
  cases pc with
  | loadFlags c tail head =>
    cases hread
    have hroom := h.2.2.2
    omega
  | loadSize c tail head =>
    cases hread
    have hroom := h.2.2.2
    omega
  | copy c head newHead size i out =>
    cases hread
    obtain ⟨-, hi, hsize, hfit⟩ := h
    have hrecord := le_recordSize hsize
    unfold sizeofRecordHeader
    omega
  | loadType c head newHead out =>
    cases hread
    have hroom := h.2
    omega
  | loadSequence c head newHead out type =>
    cases hread
    have hroom := h.2
    omega
  | _ => cases hread

/-- A consumer that is alone inside a call is not hindered. -/
theorem Tame.unhindered {pc : Pc} (h : pc.Tame cap m) (hpc : pc ≠ .idle) : pc.Unhindered m := by
  cases pc with
  | idle => exact hpc rfl
  | cas head newHead k =>
    cases k with
    | again c => exact h.1.trans h.2.1.symm
    | take c size => exact h.1.trans h.2.1.symm
  | copy c head newHead size i out => exact h.2.1
  | awaitTurn head newHead k => exact h.1.symm
  | _ => trivial

/-- The copy of a payload, with `i` bytes done. -/
theorem tame_copying {head newHead size : ℕ} {c : PopCall} (i : ℕ) (out : List UInt8)
    (h : Claims m head newHead) (hsize : size < 2^32) (hfit : recordSize size ≤ cap - head % cap) :
    (copying c head newHead size i out).Tame cap m := by
  unfold copying
  split_ifs with hi
  · exact ⟨h, hi, hsize, hfit⟩
  · have hrecord := le_recordSize hsize
    exact ⟨h, by omega⟩

/-- What is skipped at the head is published, as it has been compared with the tail. -/
theorem tame_skip {c : PopCall} (hcap : 0 < cap) (hcap' : cap < 2^64)
    (hhead : m.control.headPublish < 2^64)
    (hres : m.control.headReserve = m.control.headPublish)
    (hfit : cap - m.control.headPublish % cap ≤
      sub64 m.control.tailPublish m.control.headPublish) :
    (cas m.control.headPublish (nextLap cap m.control.headPublish) (.again c)).Tame cap m :=
  ⟨hres, rfl, moves_nextLap hcap hcap' hhead hfit⟩

/-- Every step of the call keeps this. -/
theorem Tame.step {pc pc' : Pc} {l : PopLabel} {eff : Effect} {e : PopEvent} (h : pc.Tame cap m)
    (hcap : 0 < cap) (hcap' : cap < 2^64) (hhead : m.control.headPublish < 2^64) (hl : Inside l)
    (hs : pc.step cap m l = some (eff, pc', e)) : pc'.Tame cap (eff.apply m) := by
  cases pc with
  | idle => rcases hl with rfl | rfl <;> cases hs
  | loadTail c =>
    rcases hl with rfl | rfl <;> cases hs
    exact ⟨h, rfl⟩
  | loadHead c tail =>
    obtain ⟨hres, rfl⟩ := h
    rcases hl with rfl | rfl
    · rw [Pc.step, hres, compareHead] at hs
      split_ifs at hs with hempty hshort hfew hfew
      · cases hs; trivial
      · cases hs; trivial
      · cases hs
        exact tame_skip hcap hcap' hhead hres (not_lt.mp hfew)
      · cases hs; trivial
      · cases hs
        exact ⟨hres, rfl, rfl, not_lt.mp hshort⟩
    · cases hs
  | loadFlags c tail head =>
    obtain ⟨hres, rfl, rfl, hroom⟩ := h
    rcases hl with rfl | rfl
    · rw [Pc.step, examineFlags] at hs
      split_ifs at hs with hflag hfew
      · cases hs; trivial
      · cases hs
        exact tame_skip hcap hcap' hhead hres (not_lt.mp hfew)
      · cases hs
        exact ⟨hres, rfl, rfl, hroom⟩
    · cases hs
  | loadSize c tail head =>
    obtain ⟨hres, rfl, rfl, hroom⟩ := h
    rcases hl with rfl | rfl
    · rw [Pc.step, examineSize] at hs
      split_ifs at hs with hend hfew
      · cases hs; trivial
      · cases hs; trivial
      · cases hs
        have hsize := m.ring.load_lt (m.control.headPublish % cap) 4
        exact ⟨hres, rfl, SizeFits.moves ⟨hsize, not_lt.mp hfew⟩ hhead, hsize, not_lt.mp hend⟩
    · cases hs
  | cas head newHead k =>
    -- The compare-exchange succeeds, or it fails spuriously and the loop starts again.
    cases k with
    | again c =>
      obtain ⟨hres, rfl, hmoves⟩ := h
      rcases hl with rfl | rfl
      · rw [Pc.step, exchange, if_pos hres] at hs
        cases hs
        exact ⟨rfl, rfl, hmoves⟩
      · cases hs
        exact hres
    | take c size =>
      obtain ⟨hres, rfl, hmoves, hsize, hfit⟩ := h
      rcases hl with rfl | rfl
      · rw [Pc.step, exchange, if_pos hres] at hs
        cases hs
        exact tame_copying 0 _ ⟨rfl, rfl, hmoves⟩ hsize hfit
      · cases hs
        exact hres
  | copy c head newHead size i out =>
    obtain ⟨hclaims, -, hsize, hfit⟩ := h
    rcases hl with rfl | rfl <;> cases hs
    exact tame_copying (i + 1) _ hclaims hsize hfit
  | loadType c head newHead out =>
    rcases hl with rfl | rfl <;> cases hs
    exact h
  | loadSequence c head newHead out type =>
    rcases hl with rfl | rfl <;> cases hs
    exact h.1
  | awaitTurn head newHead k =>
    rcases hl with rfl | rfl
    · rw [Pc.step, if_pos h.1.symm] at hs
      cases hs
      exact h
    · cases hs
  | publish head newHead k =>
    rcases hl with rfl | rfl
    · obtain ⟨rfl, heq⟩ := Prod.mk.inj (Option.some.inj hs)
      obtain ⟨rfl, rfl⟩ := Prod.mk.inj heq
      cases k with
      | again c => exact h.2.1
      | done c res => trivial
    · cases hs

end Tame

end Mpmc.Pc

/-! ## What it means to be contained -/

/-- A call of `try_pop` on the memory `m` is contained, where the consumer has the memory to itself,
is at `enter` when it begins and at `idle` when it ends, takes the steps `next`, in which a
compare-exchange fails spuriously or not, and loads the bytes `read?` of the ring. At every moment
of the call, whichever compare-exchanges have failed spuriously:

* the bytes loaded next lie in the ring;
* the head has not passed the tail since the call began, and the next step does not move it past the
  tail;
* the steps that are left, without another spurious failure, come to the end of the call. -/
def Contained {π ι ε : Type} (M : Machine (Shared × π) ι ε) (enter : PopCall → π) (idle : π)
    (next : Bool → ι) (read? : π → Option (ℕ × ℕ)) (cap : ℕ) (m : Shared) : Prop :=
  ∀ c es s, M.Path (fun l => ∃ b, l = next b) (m, enter c) es s →
    (∀ a n, read? s.2 = some (a, n) → a + n ≤ cap) ∧
    sub64 s.1.control.headPublish m.control.headPublish ≤
      sub64 m.control.tailPublish m.control.headPublish ∧
    (∀ b s' e, M.step s (next b) = some (s', e) →
      sub64 s'.1.control.headPublish s.1.control.headPublish ≤
        sub64 m.control.tailPublish s.1.control.headPublish) ∧
    ∃ es' m', M.Path (· = next false) s es' (m', idle)

/-- For the rings with one consumer. -/
def PopContained (order : HeadOrder) (cap : ℕ) (m : Shared) : Prop :=
  Contained (popMachine order cap Shared.fresh) .loadTail .idle (fun _ => .run)
    (PopPc.read? cap) cap m

/-- For the one with many. -/
def Mpmc.PopContained (cap : ℕ) (m : Shared) : Prop :=
  Contained (popMachine cap Shared.fresh) .loadTail .idle popNext (Pc.read? cap) cap m

/-- For each of the rings. -/
def RingMode.PopContained (cap : ℕ) (m : Shared) : RingMode → Prop
  | mpsc => LfRing.PopContained .publishFirst cap m
  | mpmc => Mpmc.PopContained cap m
  | spsc => LfRing.PopContained .reserveFirst cap m

/-- A call is contained if there is an invariant from which it follows: that what is loaded lies in
the ring, that the head does not pass the tail, and that a step that does not fail makes a measure
smaller. -/
theorem Contained.of_invariant {π ι ε : Type} {M : Machine (Shared × π) ι ε} {enter : PopCall → π}
    {idle : π} {next : Bool → ι} {read? : π → Option (ℕ × ℕ)} {cap : ℕ} {m : Shared}
    (I : Shared × π → Prop) (μ : Shared × π → ℕ ×ₗ ℕ) (hstart : ∀ c, I (m, enter c))
    (hread : ∀ s, I s → ∀ a n, read? s.2 = some (a, n) → a + n ≤ cap)
    (hhead : ∀ s, I s → sub64 s.1.control.headPublish m.control.headPublish ≤
      sub64 m.control.tailPublish m.control.headPublish)
    (hstep : ∀ s b s' e, I s → M.step s (next b) = some (s', e) → I s' ∧
      sub64 s'.1.control.headPublish s.1.control.headPublish ≤
        sub64 m.control.tailPublish s.1.control.headPublish)
    (hnext : ∀ s, I s → s.2 ≠ idle → ∃ s' e, M.step s (next false) = some (s', e) ∧ μ s' < μ s) :
    Contained M enter idle next read? cap m := by
  intro c es s hp
  have hI : I s := by
    refine hp.invariant (fun s _ => I s) ?_ (hstart c)
    rintro s es l s' e ⟨b, rfl⟩ h hs
    exact (hstep s b s' e h hs).1
  have hend : ∃ es' s', M.Path (· = next false) s es' s' ∧ s'.2 = idle ∧ I s' := by
    refine Machine.exists_path μ (fun s _ => I s) (fun s => s.2 = idle) ?_ hI
    intro s es h hne
    obtain ⟨s', e, hs, hlt⟩ := hnext s h hne
    exact ⟨next false, s', e, rfl, hs, (hstep s false s' e h hs).1, hlt⟩
  obtain ⟨es', ⟨m', pc'⟩, hp', rfl, -⟩ := hend
  exact ⟨hread s hI, hhead s hI, fun b s' e hs => (hstep s b s' e hI hs).2, es', m', hp'⟩

/-- The counters in a call on the memory `m₀` that is contained. -/
structure Onward (m₀ m : Shared) : Prop where
  /-- The tail stays where it is. -/
  tail_eq : m.control.tailPublish = m₀.control.tailPublish
  /-- It is a 64-bit value. -/
  tail_lt : m₀.control.tailPublish < 2^64
  /-- The head was one. -/
  start_lt : m₀.control.headPublish < 2^64
  /-- It is one. -/
  head_lt : m.control.headPublish < 2^64
  /-- It has not passed the tail. -/
  le : sub64 m.control.headPublish m₀.control.headPublish ≤
    sub64 m₀.control.tailPublish m₀.control.headPublish

namespace Onward

variable {m₀ m : Shared}

/-- At the start of the call. -/
theorem refl (hhead : m.control.headPublish < 2^64) (htail : m.control.tailPublish < 2^64) :
    Onward m m where
  tail_eq := rfl
  tail_lt := htail
  start_lt := hhead
  head_lt := hhead
  le := by
    unfold sub64
    omega

/-- Behind the store of a head that does not pass the tail. -/
theorem moves {head : ℕ} (h : Onward m₀ m) (hmoves : Moves m head) :
    Onward m₀ ((Effect.headPublish head).apply m) := by
  obtain ⟨hlt, -, hle⟩ := hmoves
  rw [h.tail_eq] at hle
  exact ⟨h.tail_eq, h.tail_lt, h.start_lt, hlt,
    sub64_le_trans h.tail_lt h.head_lt hlt h.start_lt h.le hle⟩

/-- The distance to the tail gets smaller with it. -/
theorem distance_lt {head : ℕ} (h : Onward m₀ m) (hmoves : Moves m head) :
    sub64 m.control.tailPublish head < sub64 m.control.tailPublish m.control.headPublish := by
  obtain ⟨hlt, hpos, hle⟩ := hmoves
  have htail : m.control.tailPublish < 2^64 := by
    rw [h.tail_eq]
    exact h.tail_lt
  rw [sub64_sub64 htail h.head_lt hlt hle]
  omega

/-- A head that stays does not pass the tail. -/
theorem stays (h : Onward m₀ m) : sub64 m.control.headPublish m.control.headPublish ≤
    sub64 m₀.control.tailPublish m.control.headPublish := by
  have hhead := h.head_lt
  unfold sub64
  omega

end Onward

/-! ## One consumer -/

section OneConsumer

variable {order : HeadOrder} {cap : ℕ} {m₀ m : Shared} {pc pc' : PopPc} {eff : Effect}
  {e : PopEvent}

/-- The store of `head_publish` does not move the head past the tail. -/
theorem PopPc.Tame.moves {head : ℕ} {k : PopThen} {last : Bool}
    (h : (PopPc.publish head k last).Tame cap m) : Moves m head := by
  cases k with
  | again c => exact h.1
  | done c res => exact h

/-- A step of the call keeps the head from passing the tail. -/
theorem Onward.pop_step (h : Onward m₀ m) (hpc : pc.Tame cap m)
    (hs : pc.step order cap m .run = some (eff, pc', e)) :
    Onward m₀ (eff.apply m) ∧
      sub64 (eff.apply m).control.headPublish m.control.headPublish ≤
        sub64 m₀.control.tailPublish m.control.headPublish := by
  have hquiet : Onward m₀ m ∧ sub64 m.control.headPublish m.control.headPublish ≤
      sub64 m₀.control.tailPublish m.control.headPublish := ⟨h, h.stays⟩
  cases PopPc.step_cases hs with
  | publish head k last =>
    have hmoves := hpc.moves
    refine ⟨h.moves hmoves, ?_⟩
    rw [← h.tail_eq]
    exact hmoves.2.2
  | reserve head k last =>
    exact ⟨⟨h.tail_eq, h.tail_lt, h.start_lt, h.head_lt, h.le⟩, h.stays⟩
  | _ => exact hquiet

/-- A call is contained that skips nothing but what is published. -/
theorem contained_of_skipsFit (order : HeadOrder) (hcap : 0 < cap) (hcap' : cap < 2^64)
    (hhead : m.control.headPublish < 2^64) (htail : m.control.tailPublish < 2^64)
    (hfit : SkipsFit cap m m.control.headPublish) : PopContained order cap m := by
  refine .of_invariant (fun s => Onward m s.1 ∧ s.2.Tame cap s.1 ∧ s.2.Checked cap)
    (fun s => s.2.measure (sub64 s.1.control.tailPublish s.1.control.headPublish))
    (fun _ => ⟨.refl hhead htail, hfit, trivial⟩) (fun _ h _ _ hread => h.2.2.read_le hread)
    (fun _ h => h.1.le) ?_ ?_
  · rintro s b s' e ⟨hon, htame, hcheck⟩ hs
    obtain ⟨eff, hpc, heq⟩ := popMachine_step hs
    obtain ⟨hon', hle⟩ := hon.pop_step htame hpc
    rw [heq]
    exact ⟨⟨hon', htame.step hcap hcap' hon.head_lt hpc, hcheck.step hpc⟩, hle⟩
  · rintro ⟨m₁, pc⟩ ⟨hon, htame, hcheck⟩ hne
    obtain ⟨eff, pc', e, hs⟩ := PopPc.enabled order cap m₁ hne
    refine ⟨(eff.apply m₁, pc'), e, by simp [popMachine, hs], ?_⟩
    refine PopPc.measure_lt (fun c => sub64 c.tailPublish c.headPublish) (fun _ => rfl) ?_ ?_ hs
    · rintro c head size i out rfl
      exact hcheck.1
    · rintro head k last rfl
      exact hon.distance_lt htame.moves

/-- Where the loop skips, it comes to a store of `head_publish` at the next lap, and then to another
pass. -/
theorem exists_skip (order : HeadOrder) (c : PopCall)
    (hne : m.control.headPublish ≠ m.control.tailPublish)
    (hskips : Skips cap m.ring m.control.headPublish) :
    ∃ es m₁ last es' m₂,
      (popMachine order cap Shared.fresh).Path (fun l => ∃ _ : Bool, l = .run) (m, .loadTail c) es
        (m₁, .publish (nextLap cap m.control.headPublish) (.again c) last) ∧
      m₁.control.headPublish = m.control.headPublish ∧
      (popMachine order cap Shared.fresh).Path (fun l => ∃ _ : Bool, l = .run) (m, .loadTail c) es'
        (m₂, .loadTail c) ∧
      m₂.control.headPublish = nextLap cap m.control.headPublish ∧
      m₂.control.tailPublish = m.control.tailPublish ∧ m₂.ring = m.ring := by
  have hpath : ∀ {m₁ : Shared} {pc pc' : PopPc} {eff : Effect} {e : PopEvent},
      pc.step order cap m₁ .run = some (eff, pc', e) →
      (popMachine order cap Shared.fresh).Path (fun l => ∃ _ : Bool, l = .run) (m₁, pc) [e]
        (eff.apply m₁, pc') := by
    intro m₁ pc pc' eff e hs
    exact .single .run ⟨false, rfl⟩ (by simp [popMachine, hs])
  generalize hlap : nextLap cap m.control.headPublish = lap
  -- The loop comes to the first of the two stores.
  obtain ⟨es, hfirst⟩ : ∃ es, (popMachine order cap Shared.fresh).Path
      (fun l => ∃ _ : Bool, l = .run) (m, .loadTail c) es (m, .advance order lap (.again c)) := by
    have htail : PopPc.step order cap m (.loadTail c) .run =
        some (.none, .loadHead c m.control.tailPublish, .loadedTail) := rfl
    by_cases hshort : cap - m.control.headPublish % cap < sizeofRecordHeader
    · have hskip : PopPc.step order cap m (.loadHead c m.control.tailPublish) .run =
          some (.none, .advance order lap (.again c), .internal) := by
        rw [PopPc.step, PopPc.compareHead, if_neg hne, if_pos hshort, ← hlap]
        rfl
      exact ⟨_, (hpath htail).trans (hpath hskip)⟩
    · have hheader : PopPc.step order cap m (.loadHead c m.control.tailPublish) .run =
          some (.none, .loadFlags c m.control.tailPublish m.control.headPublish, .internal) := by
        rw [PopPc.step, PopPc.compareHead, if_neg hne, if_neg hshort]
      have hwrap : PopPc.step order cap m
          (.loadFlags c m.control.tailPublish m.control.headPublish) .run =
          some (.none, .advance order lap (.again c), .internal) := by
        rw [PopPc.step, PopPc.examineFlags, if_pos (hskips.resolve_left hshort), ← hlap]
        rfl
      exact ⟨_, ((hpath htail).trans (hpath hheader)).trans (hpath hwrap)⟩
  cases order with
  | publishFirst =>
    have hpub : ∀ m, PopPc.step .publishFirst cap m (.publish lap (.again c) false) .run =
        some (.headPublish lap, .reserve lap (.again c) true, .internal) := fun _ => rfl
    have hres : ∀ m, PopPc.step .publishFirst cap m (.reserve lap (.again c) true) .run =
        some (.headReserve lap, .loadTail c, .internal) := fun _ => rfl
    exact ⟨es, m, false, _, _, hfirst, rfl, (hfirst.trans (hpath (hpub _))).trans (hpath (hres _)),
      rfl, rfl, rfl⟩
  | reserveFirst =>
    have hres : ∀ m, PopPc.step .reserveFirst cap m (.reserve lap (.again c) false) .run =
        some (.headReserve lap, .publish lap (.again c) true, .internal) := fun _ => rfl
    have hpub : ∀ m, PopPc.step .reserveFirst cap m (.publish lap (.again c) true) .run =
        some (.headPublish lap, .loadTail c, .internal) := fun _ => rfl
    exact ⟨_, _, true, _, _, hfirst.trans (hpath (hres _)), rfl,
      (hfirst.trans (hpath (hres _))).trans (hpath (hpub _)), rfl, rfl, rfl⟩

/-- In a call that is contained, what the loop skips is published, wherever it has come to. -/
theorem le_of_contained (h : PopContained order cap m) (hcap' : cap < 2^64) {c : PopCall}
    {es : List PopEvent} {m₁ : Shared}
    (hp : (popMachine order cap Shared.fresh).Path (fun l => ∃ _ : Bool, l = .run)
      (m, .loadTail c) es (m₁, .loadTail c))
    (hhead : m₁.control.headPublish < 2^64)
    (htail : m₁.control.tailPublish = m.control.tailPublish)
    (hne : m₁.control.headPublish ≠ m₁.control.tailPublish)
    (hskips : Skips cap m₁.ring m₁.control.headPublish) :
    cap - m₁.control.headPublish % cap ≤
      sub64 m₁.control.tailPublish m₁.control.headPublish := by
  obtain ⟨es', m₂, last, -, -, hp', hhead', -⟩ :=
    exists_skip order c hne hskips
  obtain ⟨-, -, hmove, -⟩ := h c _ _ (hp.trans hp')
  have hs : (popMachine order cap Shared.fresh).step
      (m₂, .publish (nextLap cap m₁.control.headPublish) (.again c) last) .run =
      some (((Effect.headPublish (nextLap cap m₁.control.headPublish)).apply m₂,
        (PopPc.published (nextLap cap m₁.control.headPublish) (.again c) last).1),
        (PopPc.published (nextLap cap m₁.control.headPublish) (.again c) last).2) := rfl
  have hle := hmove false _ _ hs
  dsimp only [Effect.apply] at hle
  rwa [hhead', sub64_nextLap hcap' hhead, ← htail] at hle

end OneConsumer

/-- A call is contained only if it skips nothing but what is published, and not twice. -/
theorem skipsFit_of_contained {order : HeadOrder} {cap : ℕ} {m : Shared} (hcap : 0 < cap)
    (hcap' : cap < 2^64) (hhead : m.control.headPublish < 2^64)
    (htail : m.control.tailPublish < 2^64)
    (hused : sub64 m.control.tailPublish m.control.headPublish ≤ cap)
    (h : PopContained order cap m) : SkipsFit cap m m.control.headPublish := by
  by_cases hend : EndsAt cap m m.control.headPublish
  · exact Or.inl hend
  obtain ⟨hne, hskips⟩ := not_or.mp hend
  have hfit := le_of_contained h hcap' (c := ⟨[], false⟩) .refl hhead rfl hne (not_not.mp hskips)
  refine Or.inr ⟨hfit, ?_⟩
  by_contra hend'
  obtain ⟨hne', hskips'⟩ := not_or.mp hend'
  -- The second skip would be published too, but there is never as much.
  obtain ⟨-, -, -, es, m₁, -, -, hp, hhead₁, htail₁, hring₁⟩ :=
    exists_skip order ⟨[], false⟩ hne (not_not.mp hskips)
  have hfit' : cap - nextLap cap m.control.headPublish % cap ≤
      sub64 m.control.tailPublish (nextLap cap m.control.headPublish) := by
    rw [← hhead₁, ← htail₁]
    refine le_of_contained h hcap' hp ?_ htail₁ ?_ ?_
    · rw [hhead₁]
      exact u64_lt _
    · rw [hhead₁, htail₁]
      exact hne'
    · rw [hhead₁, hring₁]
      exact not_not.mp hskips'
  have hlt := sub64_lt_of_nextLap hcap hhead htail hused hfit
  omega

/-! ## Many consumers -/

namespace Mpmc

variable {cap : ℕ} {m₀ m : Shared} {pc pc' : Pc} {l : PopLabel} {eff : Effect} {e : PopEvent}

/-- A step of the call keeps the head from passing the tail. -/
theorem onward_step (h : Onward m₀ m) (hpc : pc.Tame cap m)
    (hs : pc.step cap m l = some (eff, pc', e)) :
    Onward m₀ (eff.apply m) ∧
      sub64 (eff.apply m).control.headPublish m.control.headPublish ≤
        sub64 m₀.control.tailPublish m.control.headPublish := by
  have hquiet : Onward m₀ m ∧ sub64 m.control.headPublish m.control.headPublish ≤
      sub64 m₀.control.tailPublish m.control.headPublish := ⟨h, h.stays⟩
  cases Pc.step_cases hs with
  | publish head newHead k =>
    have hmoves : Moves m newHead := hpc.2.2
    refine ⟨h.moves hmoves, ?_⟩
    rw [← h.tail_eq]
    exact hmoves.2.2
  | claim head newHead k hstill =>
    exact ⟨⟨h.tail_eq, h.tail_lt, h.start_lt, h.head_lt, h.le⟩, h.stays⟩
  | _ => exact hquiet

/-- Every call is contained. -/
theorem contained (hcap : 0 < cap) (hcap' : cap < 2^64) (hhead : m.control.headPublish < 2^64)
    (htail : m.control.tailPublish < 2^64) (hres : m.control.headReserve = m.control.headPublish) :
    PopContained cap m := by
  refine .of_invariant (fun s => Onward m s.1 ∧ s.2.Tame cap s.1)
    (fun s => s.2.measure (sub64 s.1.control.tailPublish s.1.control.headPublish))
    (fun _ => ⟨.refl hhead htail, hres⟩) (fun _ h _ _ hread => h.2.read_le hread)
    (fun _ h => h.1.le) ?_ ?_
  · rintro s b s' e ⟨hon, htame⟩ hs
    obtain ⟨eff, hpc, heq⟩ := popMachine_step hs
    obtain ⟨hon', hle⟩ := onward_step hon htame hpc
    rw [heq]
    exact ⟨⟨hon', htame.step hcap hcap' hon.head_lt ((inside_iff _).mpr ⟨b, rfl⟩) hpc⟩, hle⟩
  · rintro ⟨m₁, pc⟩ ⟨hon, htame⟩ hne
    obtain ⟨eff, pc', e, hs⟩ := Pc.enabled cap m₁ hne
    refine ⟨(eff.apply m₁, pc'), e, by simp [popMachine, popNext, hs], ?_⟩
    refine Pc.measure_lt (fun c => sub64 c.tailPublish c.headPublish) (fun _ => rfl)
      (htame.unhindered hne) ?_ hs
    rintro head newHead k rfl
    exact hon.distance_lt htame.2.2

end Mpmc

/-! ## Exactly when -/

/-- Popping a malformed ring is contained exactly when nothing is skipped but what is published. For
each of the rings, every capacity, arbitrary bytes and arbitrary counters with no more than the
capacity in between, a call of `try_pop` that runs alone terminates, loads only bytes of the ring,
and does not move the head past the tail, if and only if the ring is a `SharedRingBufferMPMC`, or
what the loop skips at the head, if anything, is published, and what comes behind it is not skipped
as well. -/
theorem contained_iff (mode : RingMode) {cap : ℕ} (m : Shared) (hcap : 0 < cap) (hcap' : cap < 2^64)
    (hhead : m.control.headPublish < 2^64) (htail : m.control.tailPublish < 2^64)
    (hres : m.control.headReserve = m.control.headPublish)
    (hused : sub64 m.control.tailPublish m.control.headPublish ≤ cap) :
    mode.PopContained cap m ↔ mode = .mpmc ∨ SkipsFit cap m m.control.headPublish := by
  cases mode with
  | mpsc =>
    constructor
    · intro h
      exact Or.inr (skipsFit_of_contained hcap hcap' hhead htail hused h)
    · rintro (hmode | hfit)
      · cases hmode
      · exact contained_of_skipsFit .publishFirst hcap hcap' hhead htail hfit
  | mpmc =>
    constructor
    · intro _
      exact Or.inl rfl
    · intro _
      exact Mpmc.contained hcap hcap' hhead htail hres
  | spsc =>
    constructor
    · intro h
      exact Or.inr (skipsFit_of_contained hcap hcap' hhead htail hused h)
    · rintro (hmode | hfit)
      · cases hmode
      · exact contained_of_skipsFit .reserveFirst hcap hcap' hhead htail hfit

/-- A ring of 32 bytes with the head in the middle, and `published` bytes published from there. The
header at the head has the wrap flag, and the one at the start of the ring a size that is too
large. -/
def wrapAtMiddle (published : ℕ) : Shared where
  control := ⟨16, 16, 16 + published, 16 + published, 0⟩
  ring a := if a = 22 then 1 else if a = 0 then 100 else 0

/-- Whether a pop skips is read off the header at the head. -/
instance (cap : ℕ) (ring : Memory) (head : ℕ) : Decidable (Skips cap ring head) :=
  inferInstanceAs (Decidable (_ ∨ _))

/-- Whether a pop ends at the head is read off the counters and the header there. -/
instance (cap : ℕ) (m : Shared) (head : ℕ) : Decidable (EndsAt cap m head) :=
  inferInstanceAs (Decidable (_ ∨ _))

/-- Whether the skips fit is read off the counters and two headers. -/
instance (cap : ℕ) (m : Shared) (head : ℕ) : Decidable (SkipsFit cap m head) :=
  inferInstanceAs (Decidable (_ ∨ _))

/-- With the rest of the ring published, a call is contained. -/
theorem contained_iff_published : RingMode.mpsc.PopContained 32 (wrapAtMiddle 16) :=
  (contained_iff .mpsc (wrapAtMiddle 16) (by decide) (by decide) (by decide) (by decide) rfl
    (by decide)).mpr (Or.inr (by decide))

/-- With half of it published, so that the tail is at 24, the single consumer's `try_pop` returns
false and leaves the head at 32. -/
theorem popCall_wrapAtMiddle (order : HeadOrder) : ∃ choices m',
    popCall order 32 (wrapAtMiddle 8) ⟨[], false⟩ choices = some (m', none) ∧
      m'.control.tailPublish = 24 ∧ m'.control.headPublish = 32 := by
  have htest : ((popCall order 32 (wrapAtMiddle 8) ⟨[], false⟩ (List.replicate 9 false)).any
      fun x => x.2 == none &&
        decide (x.1.control.tailPublish = 24 ∧ x.1.control.headPublish = 32)) = true := by
    cases order <;> decide +kernel
  obtain ⟨⟨m', res⟩, hcall, hres⟩ := (Option.any_eq_true _ _).mp htest
  obtain ⟨hnone, hcounters⟩ := (Bool.and_eq_true _ _).mp hres
  obtain rfl : res = none := eq_of_beq hnone
  exact ⟨_, m', hcall, of_decide_eq_true hcounters⟩

/-- Both rings with one consumer then have moved the head past the tail. -/
theorem past_tail :
    (∃ choices m', popCall .publishFirst 32 (wrapAtMiddle 8) ⟨[], false⟩ choices = some (m', none) ∧
      sub64 m'.control.tailPublish 16 < sub64 m'.control.headPublish 16) ∧
    ∃ choices m', popCall .reserveFirst 32 (wrapAtMiddle 8) ⟨[], false⟩ choices = some (m', none) ∧
      sub64 m'.control.tailPublish 16 < sub64 m'.control.headPublish 16 := by
  constructor
  · obtain ⟨choices, m', hcall, htail, hhead⟩ := popCall_wrapAtMiddle .publishFirst
    refine ⟨choices, m', hcall, ?_⟩
    rw [htail, hhead]
    decide
  · obtain ⟨choices, m', hcall, htail, hhead⟩ := popCall_wrapAtMiddle .reserveFirst
    refine ⟨choices, m', hcall, ?_⟩
    rw [htail, hhead]
    decide

end LfRing

import Mathlib.Data.List.Nodup

/-!
# Matching lists through keys

Two lists whose members carry keys. If no key occurs twice in the first, and every member of the
first has a related member with the same key in the second, then the members of the first can be
matched with members of the second so that no two share a partner.
-/

namespace LfRing

variable {α β γ κ : Type}

/-- Members with distinct keys have distinct partners, where partners have equal keys. The partners
are read through `g`. -/
theorem exists_injective_of_keys {xs : List α} {ys : List β} {keyX : α → κ} {keyY : β → κ}
    {g : β → γ} {R : α → γ → Prop} (hnodup : (xs.map keyX).Nodup)
    (h : ∀ x ∈ xs, ∃ y ∈ ys, keyY y = keyX x ∧ R x (g y)) :
    ∃ f : Fin xs.length → Fin (ys.map g).length, Function.Injective f ∧
      ∀ k, R (xs.get k) ((ys.map g).get (f k)) := by
  have hindex : ∀ k : Fin xs.length, ∃ j : Fin (ys.map g).length,
      (ys[j.val]?).map keyY = some (keyX (xs.get k)) ∧ R (xs.get k) ((ys.map g).get j) := by
    intro k
    obtain ⟨y, hy, hkey, hR⟩ := h _ (List.get_mem xs k)
    obtain ⟨j, hj⟩ := List.get_of_mem hy
    refine ⟨⟨j.val, by rw [List.length_map]; exact j.isLt⟩, ?_, ?_⟩
    · rw [List.getElem?_eq_getElem j.isLt, Option.map_some, ← hkey, ← hj]
      rfl
    · have hget : (ys.map g).get ⟨j.val, by rw [List.length_map]; exact j.isLt⟩ = g y := by
        rw [← hj]
        simp
      rw [hget]
      exact hR
  choose f hkey hR using hindex
  refine ⟨f, ?_, hR⟩
  intro k k' heq
  -- The same partner means the same key, and no key occurs twice.
  have hsame : keyX (xs.get k) = keyX (xs.get k') := by
    have h1 := hkey k
    rw [heq, hkey k', Option.some.injEq] at h1
    exact h1.symm
  have hinj := List.nodup_iff_injective_get.mp hnodup
  have hget : ∀ k : Fin xs.length, (xs.map keyX).get
      ⟨k.val, by rw [List.length_map]; exact k.isLt⟩ = keyX (xs.get k) := by
    intro k
    simp
  have heq' := hinj ((hget k).trans (hsame.trans (hget k').symm))
  exact Fin.ext (Fin.mk.inj_iff.mp heq')

end LfRing

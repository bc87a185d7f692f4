import Mathlib.Data.Finset.Basic
import Mathlib.Logic.Function.Basic
import Mathlib.Tactic.Common

/-!
# Ledgers

Tokens such as file descriptors are handed out and have to be given back, once each. A ledger says
that every token that is out has exactly one keeper, and that keepers have no other tokens. It is
kept by taking a token that is not out, by giving one back, and by passing one on to a keeper
without a token. Where the ledger holds, a token that a keeper gives back is out, and when no keeper
has one, none is.
-/

namespace LfRing

/-- Every token of `out` is held by exactly one keeper, and no other tokens are held. -/
structure Ledger {κ τ : Type} (held : κ → Option τ) (out : Finset τ) : Prop where
  /-- The tokens that are out are those that are held. -/
  mem_iff : ∀ t, t ∈ out ↔ ∃ k, held k = some t
  /-- No two keepers hold the same token. -/
  unique : ∀ k k' t, held k = some t → held k' = some t → k = k'

namespace Ledger

variable {κ τ : Type} [DecidableEq κ] [DecidableEq τ] {held : κ → Option τ} {out : Finset τ}
  {k k' : κ} {t : τ}

omit [DecidableEq κ] [DecidableEq τ] in
/-- Nothing is out at the start. -/
theorem empty : Ledger (fun _ : κ => (none : Option τ)) ∅ :=
  ⟨by simp, by simp⟩

/-- A keeper without a token takes one that is not out. -/
theorem take (h : Ledger held out) (hk : held k = none) (ht : t ∉ out) :
    Ledger (Function.update held k (some t)) (insert t out) where
  mem_iff := by
    intro u
    rw [Finset.mem_insert, h.mem_iff]
    constructor
    · rintro (rfl | ⟨j, hj⟩)
      · exact ⟨k, Function.update_self _ _ _⟩
      · refine ⟨j, ?_⟩
        rw [Function.update_of_ne]
        · exact hj
        · rintro rfl
          rw [hk] at hj
          cases hj
    · rintro ⟨j, hj⟩
      by_cases hjk : j = k
      · subst hjk
        rw [Function.update_self] at hj
        exact Or.inl (Option.some.inj hj).symm
      · rw [Function.update_of_ne hjk] at hj
        exact Or.inr ⟨j, hj⟩
  unique := by
    -- Nobody else can have the token that was not out.
    have hother : ∀ j, j ≠ k → held j ≠ some t := fun j _ hj => ht ((h.mem_iff t).mpr ⟨j, hj⟩)
    intro i j u hi hj
    by_cases hik : i = k
    · by_cases hjk : j = k
      · rw [hik, hjk]
      · subst hik
        rw [Function.update_self] at hi
        rw [Function.update_of_ne hjk, ← hi] at hj
        exact absurd hj (hother j hjk)
    · rw [Function.update_of_ne hik] at hi
      by_cases hjk : j = k
      · subst hjk
        rw [Function.update_self] at hj
        rw [← hj] at hi
        exact absurd hi (hother i hik)
      · rw [Function.update_of_ne hjk] at hj
        exact h.unique i j u hi hj

/-- A keeper gives its token back. -/
theorem give (h : Ledger held out) (hk : held k = some t) :
    Ledger (Function.update held k none) (out.erase t) where
  mem_iff := by
    intro u
    rw [Finset.mem_erase, h.mem_iff]
    constructor
    · rintro ⟨hne, j, hj⟩
      refine ⟨j, ?_⟩
      rw [Function.update_of_ne]
      · exact hj
      · rintro rfl
        rw [hk] at hj
        exact hne (Option.some.inj hj).symm
    · rintro ⟨j, hj⟩
      by_cases hjk : j = k
      · subst hjk
        rw [Function.update_self] at hj
        cases hj
      · rw [Function.update_of_ne hjk] at hj
        refine ⟨?_, j, hj⟩
        rintro rfl
        exact hjk (h.unique j k u hj hk)
  unique := by
    intro i j u hi hj
    by_cases hik : i = k
    · subst hik
      rw [Function.update_self] at hi
      cases hi
    · by_cases hjk : j = k
      · subst hjk
        rw [Function.update_self] at hj
        cases hj
      · rw [Function.update_of_ne hik] at hi
        rw [Function.update_of_ne hjk] at hj
        exact h.unique i j u hi hj

omit [DecidableEq τ] in
/-- A keeper without a token stays one. -/
theorem idle (h : Ledger held out) (hk : held k = none) :
    Ledger (Function.update held k none) out := by
  rw [← hk, Function.update_eq_self]
  exact h

/-- A keeper passes what it has on to one that has nothing. -/
theorem pass (h : Ledger held out) (hk' : held k' = none) :
    Ledger (Function.update (Function.update held k none) k' (held k)) out := by
  cases hk : held k with
  | none =>
    have hidle := h.idle hk
    refine hidle.idle ?_
    by_cases heq : k' = k
    · rw [heq, Function.update_self]
    · rw [Function.update_of_ne heq]
      exact hk'
  | some t =>
    -- The token is given back, and taken again by the other.
    have hne : k' ≠ k := by
      rintro rfl
      rw [hk] at hk'
      cases hk'
    have hgiven := h.give hk
    have htaken := hgiven.take (k := k') (t := t) (by rw [Function.update_of_ne hne]; exact hk')
      (Finset.notMem_erase t out)
    rwa [Finset.insert_erase ((h.mem_iff t).mpr ⟨k, hk⟩)] at htaken

omit [DecidableEq κ] [DecidableEq τ] in
/-- When no keeper has a token, none is out. -/
theorem out_eq_empty (h : Ledger held out) (hnone : ∀ k, held k = none) : out = ∅ := by
  refine Finset.eq_empty_of_forall_notMem ?_
  intro t ht
  obtain ⟨k, hk⟩ := (h.mem_iff t).mp ht
  rw [hnone k] at hk
  cases hk

end Ledger

end LfRing

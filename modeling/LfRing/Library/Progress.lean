import LfRing.Library.Machine
import Mathlib.Data.List.Chain

/-!
# Progress of one party among others

Safety is about every run, and so is the form of progress that a lock-free structure can promise:
whatever the others do, a party that takes enough steps of its own gets somewhere. `Run.within` is
the rule. A measure becomes smaller with every step that counts, no other step makes it larger, and
so the steps that count are at most the measure at the start, unless the goal has been reached by
then.

`Run.append` puts a run and what happens from its end on together again, the converse of `Run.cut`.

`TurnTaking` is about parties that are served in a fixed order, such as the holders of tickets. Each
is served within a number of steps of its own once its turn has come, and its turn comes when the
one before it has been served. If the parties then get their steps one after the other, all of them
are served (`TurnTaking.all_served`).
-/

namespace LfRing.Machine

variable {σ ι ε : Type} {M : Machine σ ι ε} {ok : σ → List ε → ι → Prop} {s s' : σ} {tr es : List ε}

/-- A run, and a run that starts where it ends. -/
theorem Run.append (h : M.Run ok s tr)
    (h' : (M.startingAt s).Run (fun s es l => ok s (tr ++ es) l) s' es) :
    M.Run ok s' (tr ++ es) := by
  induction h' with
  | init =>
    rw [List.append_nil]
    exact h
  | step l _ hok hs ih =>
    rw [← List.append_assoc]
    exact .step l ih hok hs

/-- The same without guards on the first run, and with any guard on the second. -/
theorem Run.append_reaches (h : M.Reaches s tr) (h' : (M.startingAt s).Run ok s' es) :
    M.Reaches s' (tr ++ es) := by
  refine h.append ?_
  refine h'.mono_of (fun _ => True) trivial ?_ ?_
  · exact fun _ _ _ _ _ _ _ _ => trivial
  · exact fun _ _ _ _ _ => trivial

/-- Within as many steps of the kind `own` as the measure `μ` allows at the start, the goal `fin` is
reached. What holds on the way is `I`. Like `Run.invariant_of`, the rule supplies a bound `Q` on the
events. -/
theorem Run.within (Q : List ε → Prop) (hQ : ∀ tr e, Q (tr ++ [e]) → Q tr) (own : ε → Bool)
    (μ : σ → ℕ) (I fin : σ → List ε → Prop) (h0 : I M.init [])
    (hfin : ∀ s tr l s' e, ok s tr l → Q (tr ++ [e]) → fin s tr → M.step s l = some (s', e) →
      fin s' (tr ++ [e]))
    (hstep : ∀ s tr l s' e, ok s tr l → Q (tr ++ [e]) → I s tr → M.step s l = some (s', e) →
      fin s' (tr ++ [e]) ∨ I s' (tr ++ [e]) ∧ μ s' + (if own e then 1 else 0) ≤ μ s)
    (h : M.Run ok s tr) (htr : Q tr) : fin s tr ∨ I s tr ∧ μ s + tr.countP own ≤ μ M.init := by
  refine h.invariant_of Q hQ (fun s tr => fin s tr ∨ I s tr ∧ μ s + tr.countP own ≤ μ M.init) ?_ ?_
    htr
  · exact Or.inr ⟨h0, by simp⟩
  · rintro s tr l s' e hok hlt (hdone | ⟨hI, hle⟩) hs
    · exact Or.inl (hfin s tr l s' e hok hlt hdone hs)
    · rcases hstep s tr l s' e hok hlt hI hs with hdone | ⟨hI', hle'⟩
      · exact Or.inl hdone
      · refine Or.inr ⟨hI', ?_⟩
        rw [List.countP_append, List.countP_singleton]
        omega

/-- The rule for the place of one party. A step is another party's and leaves the place alone, or it
is its own, and then it ends the call or leaves less of it. So a party that is inside a call, and
takes as many steps as the call has left at most, has come to its end. -/
theorem Run.ends_within {α : Type} (place : σ → α) (own : ε → Bool) (busy : α → Prop) (left : α → ℕ)
    (ends : ε → Prop) (hpos : ∀ a, busy a → 0 < left a)
    (hstep : ∀ s l s' e, M.step s l = some (s', e) → busy (place s) →
      own e = false ∧ place s' = place s ∨
        own e = true ∧ (ends e ∨ busy (place s') ∧ left (place s') < left (place s)))
    (h0 : busy (place M.init)) (h : M.Run ok s tr) (hmany : left (place M.init) ≤ tr.countP own) :
    ∃ e ∈ tr, ends e := by
  have hwithin := h.within (fun _ => True) (fun _ _ _ => trivial) own (fun s => left (place s))
    (fun s _ => busy (place s)) (fun _ tr => ∃ e ∈ tr, ends e) h0 ?_ ?_ trivial
  · rcases hwithin with hdone | ⟨hbusy, hle⟩
    · exact hdone
    · have hleft := hpos _ hbusy
      omega
  · rintro s tr l s' e _ _ ⟨x, hx, hends⟩ _
    exact ⟨x, List.mem_append_left _ hx, hends⟩
  · intro s tr l s' e _ _ hbusy hs
    rcases hstep s l s' e hs hbusy with ⟨hother, hsame⟩ | ⟨hown, hends | ⟨hbusy', hless⟩⟩
    · rw [hother, hsame]
      exact Or.inr ⟨hbusy, le_rfl⟩
    · exact Or.inl ⟨e, List.mem_append_right _ (List.mem_singleton.mpr rfl), hends⟩
    · rw [hown]
      exact Or.inr ⟨hbusy', hless⟩

/-- What the machine can do from the end `s` of a run with the events `tr` on. -/
abbrev Onward (M : Machine σ ι ε) (ok : σ → List ε → ι → Prop) (s : σ) (tr : List ε) :
    σ → List ε → Prop :=
  (M.startingAt s).Run fun s es l => ok s (tr ++ es) l

/-- Parties `τ` that a machine serves in a fixed order, in runs with the bound `Q` on the events. -/
structure TurnTaking (M : Machine σ ι ε) (ok : σ → List ε → ι → Prop) (Q : List ε → Prop)
    (τ : Type) where
  /-- The party is waiting, or has been served. -/
  waits : τ → σ → List ε → Prop
  /-- The party has been served. -/
  served : τ → σ → List ε → Prop
  /-- The party's turn has come. -/
  turn : τ → σ → List ε → Prop
  /-- The steps are enough to serve the party in its turn. -/
  enough : τ → List ε → Prop
  /-- One party's turn comes behind the other's. -/
  next : τ → τ → Prop
  /-- The first part of a run is in the bound if all of it is. -/
  bound : ∀ tr es, Q (tr ++ es) → Q tr
  /-- A party does not stop waiting. -/
  waits_onward : ∀ t s tr s' es, M.Run ok s tr → M.Onward ok s tr s' es → Q (tr ++ es) →
    waits t s tr → waits t s' (tr ++ es)
  /-- A party that has been served remains so. -/
  served_onward : ∀ t s tr s' es, M.Run ok s tr → M.Onward ok s tr s' es → Q (tr ++ es) →
    served t s tr → served t s' (tr ++ es)
  /-- In its turn, enough steps serve a party. -/
  serve : ∀ t s tr s' es, M.Run ok s tr → M.Onward ok s tr s' es → Q (tr ++ es) →
    waits t s tr → turn t s tr → enough t es → served t s' (tr ++ es)
  /-- Then it is the next one's turn. -/
  turn_of_served : ∀ t t' s tr, M.Run ok s tr → Q tr → next t t' → served t s tr → turn t' s tr

/-- If parties that wait get enough steps one after the other, in their order and from the one on
whose turn it is, all of them are served. -/
theorem TurnTaking.all_served {Q : List ε → Prop} {τ : Type} (T : TurnTaking M ok Q τ) {q : List τ}
    {turns : List (List ε)} (hrun : M.Run ok s tr) (horder : q.IsChain T.next)
    (hfirst : ∀ t ∈ q.head?, T.turn t s tr) (hq : ∀ t ∈ q, T.waits t s tr)
    (hnext : M.Onward ok s tr s' turns.flatten) (hbound : Q (tr ++ turns.flatten))
    (hturns : List.Forall₂ T.enough q turns) : ∀ t ∈ q, T.served t s' (tr ++ turns.flatten) := by
  induction hturns generalizing s tr with
  | nil => simp
  | @cons t es q turns henough _ ih =>
    rw [List.flatten_cons] at hnext hbound ⊢
    rw [← List.append_assoc] at hbound ⊢
    obtain ⟨s₁, hturn, hrest⟩ := hnext.cut
    have hbound₁ := T.bound _ _ hbound
    have hrun₁ : M.Run ok s₁ (tr ++ es) := hrun.append hturn
    have hrest₁ : M.Onward ok s₁ (tr ++ es) s' turns.flatten := by
      change (M.startingAt s₁).Run _ s' turns.flatten at hrest
      simpa only [Onward, List.append_assoc] using hrest
    obtain ⟨hbehind, horder⟩ := List.isChain_cons.mp horder
    have hserved : T.served t s₁ (tr ++ es) :=
      T.serve t s tr s₁ es hrun hturn hbound₁ (hq t List.mem_cons_self) (hfirst t rfl) henough
    intro t' ht'
    rcases List.mem_cons.mp ht' with rfl | ht'
    · exact T.served_onward t' s₁ _ s' _ hrun₁ hrest₁ hbound hserved
    · refine ih hrun₁ horder ?_ ?_ hrest₁ hbound t' ht'
      · intro u hu
        exact T.turn_of_served t u s₁ _ hrun₁ hbound₁ (hbehind u hu) hserved
      · intro u hu
        exact T.waits_onward u s tr s₁ es hrun hturn hbound₁ (hq u (List.mem_cons_of_mem _ hu))

end LfRing.Machine

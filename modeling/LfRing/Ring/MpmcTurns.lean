import LfRing.Library.Progress
import LfRing.Ring.Mpmc

/-!
# The consumers' turns

A consumer of a `SharedRingBufferMPMC` that has claimed a chunk copies it and then waits until
`head_publish` has reached the chunk, so that the chunks are given back to the producers in their
order. As with the producers (`Ring/Turns.lean`) that makes a consumer depend on those whose chunks
stand before its own.

* The chunks between `head_publish` and `head_reserve` are all claimed (`Covered`), and given back
  in their order (`claims_pass`): if the consumers that have claimed them get their remaining steps
  one after the other, `head_publish` passes all of them, whatever everybody else does in between.
* One that stops blocks consumers and producers (`stopped_consumer`): `head_publish` does not pass
  its chunk, the pops that have claimed chunks behind it spin for ever, and at most one capacity can
  still be reserved.

Both are about runs in which no consumer loads `head_reserve` of an empty ring with an older tail
(`currentTail`), as all that is known about this ring.
-/

namespace LfRing.Mpmc

namespace Pc

/-- The chunk that a consumer has claimed, from its start to its end. -/
def claim? : Pc → Option (ℕ × ℕ)
  | copy _ head newHead _ _ _ => some (head, newHead)
  | loadType _ head newHead _ => some (head, newHead)
  | loadSequence _ head newHead _ _ => some (head, newHead)
  | awaitTurn head newHead _ => some (head, newHead)
  | publish head newHead _ => some (head, newHead)
  | _ => none

/-- The steps that a consumer with a claim has left when it does not have to wait. -/
def stepsLeft : Pc → ℕ
  | copy _ _ _ size i _ => size - i + 4
  | loadType _ _ _ _ => 4
  | loadSequence _ _ _ _ _ => 3
  | awaitTurn _ _ _ => 2
  | publish _ _ _ => 1
  | _ => 0

/-- A consumer that copies the payload has the claim of its record. -/
@[simp] theorem claim?_copying (c : PopCall) (head newHead size i : ℕ) (out : List UInt8) :
    (copying c head newHead size i out).claim? = some (head, newHead) := by
  unfold copying
  split <;> rfl

/-- A consumer has its claim from the compare-exchange on. -/
@[simp] theorem claim?_claimed (head newHead : ℕ) (k : Claim) :
    (claimed head newHead k).claim? = some (head, newHead) := by
  cases k with
  | again c => rfl
  | take c size => exact claim?_copying _ _ _ _ _ _

/-- A claim ends with the store of `head_publish`. -/
@[simp] theorem claim?_published (head : ℕ) (k : PopThen) : (published head k).1.claim? = none := by
  cases k <;> rfl

variable {cap : ℕ} {m : Shared} {pc pc' : Pc} {l : PopLabel} {eff : Effect} {e : PopEvent}
  {head newHead : ℕ} {claimed ahead : List Chunk}

/-- A claim is given up by the store of `head_publish`, and by no other step. -/
theorem claim_step (hc : pc.claim? = some (head, newHead))
    (hs : pc.step cap m l = some (eff, pc', e)) :
    (eff = .headPublish newHead ∧ pc'.claim? = none) ∨
      (eff = .none ∧ pc'.claim? = some (head, newHead)) := by
  cases pc with
  | copy c h n size i out =>
    cases hc
    cases l <;> cases hs
    exact Or.inr ⟨rfl, claim?_copying _ _ _ _ _ _⟩
  | loadType c h n out =>
    cases hc
    cases l <;> cases hs
    exact Or.inr ⟨rfl, rfl⟩
  | loadSequence c h n out type =>
    cases hc
    cases l <;> cases hs
    exact Or.inr ⟨rfl, rfl⟩
  | awaitTurn h n k =>
    cases hc
    cases l <;> cases hs
    right
    split_ifs <;> exact ⟨rfl, rfl⟩
  | publish h n k =>
    cases hc
    cases l with
    | run =>
      obtain ⟨rfl, heq⟩ := Prod.mk.inj (Option.some.inj hs)
      obtain rfl : (published head k).1 = pc' := congrArg Prod.fst heq
      exact Or.inl ⟨rfl, claim?_published _ _⟩
    | call c => cases hs
    | fail => cases hs
  | _ => cases hc

/-- A claim begins with the compare-exchange that moves `head_reserve` over it, and with no other
step. -/
theorem claim_step_of_none (hc : pc.claim? = none) (hs : pc.step cap m l = some (eff, pc', e)) :
    (∃ newHead, eff = .headReserve newHead ∧ pc'.claim? = some (m.control.headReserve, newHead)) ∨
      (eff = .none ∧ pc'.claim? = none) := by
  cases Pc.step_cases hs with
  | claim head newHead k heq =>
    rw [heq]
    exact Or.inl ⟨newHead, rfl, claim?_claimed _ _ _⟩
  | copy c head newHead size i out => cases hc
  | type c head newHead out => cases hc
  | sequence c head newHead out type => cases hc
  | wait head newHead k => cases hc
  | turn head newHead k heq => cases hc
  | publish head newHead k => cases hc
  | _ => exact Or.inr ⟨rfl, rfl⟩

/-- A copy has the bytes left, and four steps behind them. -/
theorem stepsLeft_copying (c : PopCall) (head newHead size i : ℕ) (out : List UInt8) :
    (copying c head newHead size i out).stepsLeft = size - i + 4 := by
  unfold copying
  split_ifs with hi
  · rfl
  · rw [Nat.sub_eq_zero_of_le (not_lt.mp hi)]
    rfl

/-- In its turn a consumer gets further with every step. -/
theorem stepsLeft_step (hok : pc.Ok cap m claimed ahead) (hc : pc.claim? = some (head, newHead))
    (hturn : m.control.headPublish = head) (hs : pc.step cap m l = some (eff, pc', e)) :
    eff = .headPublish newHead ∨ pc'.stepsLeft + 1 ≤ pc.stepsLeft := by
  cases pc with
  | copy c h n size i out =>
    cases l <;> cases hs
    right
    rw [stepsLeft_copying]
    have hi := hok.1
    show size - (i + 1) + 4 + 1 ≤ size - i + 4
    omega
  | loadType c h n out =>
    cases l <;> cases hs
    exact Or.inr le_rfl
  | loadSequence c h n out type =>
    cases l <;> cases hs
    exact Or.inr le_rfl
  | awaitTurn h n k =>
    cases hc
    cases l <;> cases hs
    -- The wait is over at the first look.
    rw [if_pos hturn]
    exact Or.inr le_rfl
  | publish h n k =>
    cases hc
    cases l with
    | run =>
      obtain ⟨rfl, -⟩ := Prod.mk.inj (Option.some.inj hs)
      exact Or.inl rfl
    | call c => cases hs
    | fail => cases hs
  | _ => cases hc

/-- What is claimed is the consumer's own. -/
theorem Ok.owns_claim (hok : pc.Ok cap m claimed ahead) (hc : pc.claim? = some (head, newHead)) :
    ∃ d, Owns m claimed head newHead d := by
  cases pc with
  | copy _ _ _ _ _ _ => cases hc; obtain ⟨-, r, hr, -⟩ := hok; exact ⟨_, hr⟩
  | loadType _ _ _ _ => cases hc; obtain ⟨r, hr, -⟩ := hok; exact ⟨_, hr⟩
  | loadSequence _ _ _ _ _ => cases hc; obtain ⟨r, hr, -⟩ := hok; exact ⟨_, hr⟩
  | awaitTurn _ _ _ => cases hc; obtain ⟨d, hd, -⟩ := hok; exact ⟨d, hd⟩
  | publish _ _ _ => cases hc; obtain ⟨⟨d, hd, -⟩, -⟩ := hok; exact ⟨d, hd⟩
  | _ => cases hc

/-- A consumer with a claim has a step left. -/
theorem stepsLeft_pos (hc : pc.claim? = some (head, newHead)) : 0 < pc.stepsLeft := by
  cases pc with
  | copy _ _ _ _ _ _ => exact Nat.succ_pos _
  | loadType _ _ _ _ => exact Nat.succ_pos _
  | loadSequence _ _ _ _ _ => exact Nat.succ_pos _
  | awaitTurn _ _ _ => exact Nat.succ_pos _
  | publish _ _ _ => exact Nat.succ_pos _
  | _ => cases hc

end Pc

section Claims

variable {cap i : ℕ} {m : Shared} {consumers : ℕ → Pc} {passed claimed ahead : List Chunk}
  {results : List (ℕ × PopCall × Popped)} {head newHead : ℕ}

/-- A chunk that is claimed lies between `head_publish` and `head_reserve`. -/
theorem PoolInv.claim_within (h : PoolInv cap m consumers passed claimed ahead results)
    (hc : (consumers i).claim? = some (head, newHead)) :
    m.control.headPublish ≤ head ∧ head < newHead ∧ newHead ≤ m.control.headReserve := by
  obtain ⟨d, hown⟩ := (h.ok i).owns_claim hc
  have hpos := (h.at_of_owns hown).1.length_pos
  obtain ⟨pre, post, rfl, rfl, rfl⟩ := hown
  have hend := h.stream_claimed.eq_add_span
  rw [span_append, span_cons] at hend
  omega

/-- A consumer with a claim has at most as many steps left as the chunk has bytes, and one more. -/
theorem PoolInv.stepsLeft_le (h : PoolInv cap m consumers passed claimed ahead results)
    (hc : (consumers i).claim? = some (head, newHead)) :
    (consumers i).stepsLeft ≤ newHead - head + 1 := by
  have hwithin := h.claim_within hc
  have hok := h.ok i
  -- The steps in front of the wait are those of a record, which is longer than its payload.
  have hrecord : ∀ r, Owns m claimed head newHead (.record r) →
      r.payload.length + 16 ≤ newHead - head := by
    intro r hown
    have hlen := le_recordSize (h.at_of_owns hown).1.2.1
    obtain ⟨-, -, -, -, hnew⟩ := hown
    have hchunk : (Chunk.record r).length = recordSize r.payload.length := rfl
    omega
  generalize consumers i = pc at hc hok
  cases pc with
  | copy c hd n size k out =>
    cases hc
    obtain ⟨-, r, hown, hsize, -⟩ := hok
    have hlen := hrecord r hown
    show size - k + 4 ≤ _
    omega
  | loadType c hd n out =>
    cases hc
    obtain ⟨r, hown, -⟩ := hok
    have hlen := hrecord r hown
    show 4 ≤ _
    omega
  | loadSequence c hd n out type =>
    cases hc
    obtain ⟨r, hown, -⟩ := hok
    have hlen := hrecord r hown
    show 3 ≤ _
    omega
  | awaitTurn hd n k =>
    cases hc
    show 2 ≤ _
    omega
  | publish hd n k => exact Nat.le_add_left _ _
  | _ => cases hc

/-- Every position between `head_publish` and `head_reserve` belongs to the claim of a consumer. -/
def Covered (m : Shared) (consumers : ℕ → Pc) : Prop :=
  ∀ x, m.control.headPublish ≤ x → x < m.control.headReserve →
    ∃ i head newHead, (consumers i).claim? = some (head, newHead) ∧ head ≤ x ∧ x < newHead

/-- A consumer's step keeps it so. -/
theorem Covered.step {l : PopLabel} {eff : Effect} {pc' : Pc} {e : PopEvent}
    (h : Covered m consumers) (hs : (consumers i).step cap m l = some (eff, pc', e))
    (hle : m.control.headPublish ≤ (eff.apply m).control.headPublish) :
    Covered (eff.apply m) (Function.update consumers i pc') := by
  -- The claims of the others stay.
  have hother : ∀ x, m.control.headPublish ≤ x → x < m.control.headReserve →
      (∀ head newHead, (consumers i).claim? = some (head, newHead) → head ≤ x → x < newHead →
        pc'.claim? = some (head, newHead)) →
      ∃ j head newHead, (Function.update consumers i pc' j).claim? =
        some (head, newHead) ∧ head ≤ x ∧ x < newHead := by
    intro x hx hx' hown
    obtain ⟨j, head, newHead, hc, hin, hin'⟩ := h x hx hx'
    refine ⟨j, head, newHead, ?_, hin, hin'⟩
    by_cases hij : j = i
    · subst hij
      rw [Function.update_self]
      exact hown head newHead hc hin hin'
    · rw [Function.update_of_ne hij]
      exact hc
  intro x hx hx'
  cases hc : (consumers i).claim? with
  | none =>
    rcases Pc.claim_step_of_none hc hs with ⟨newHead, rfl, hnew⟩ | ⟨rfl, -⟩
    · -- The position is in the new claim, or it was claimed before.
      by_cases hold : x < m.control.headReserve
      · exact hother x hx hold (by simp [hc])
      · refine ⟨i, m.control.headReserve, newHead, ?_, not_lt.mp hold, hx'⟩
        rw [Function.update_self]
        exact hnew
    · exact hother x hx hx' (by simp [hc])
  | some claim =>
    obtain ⟨head, newHead⟩ := claim
    rcases Pc.claim_step hc hs with ⟨rfl, -⟩ | ⟨rfl, hsame⟩
    · -- `head_publish` has moved to the end of the consumer's claim, which covers nothing now.
      refine hother x (le_trans hle hx) hx' ?_
      intro head' newHead' hc' _ hin'
      rw [hc] at hc'
      cases hc'
      exact absurd (show newHead ≤ x from hx) (not_le.mpr hin')
    · refine hother x hx hx' ?_
      intro head' newHead' hc' _ _
      rw [hc] at hc'
      cases hc'
      exact hsame

end Claims

/-! ## What a run keeps -/

/-- The invariant of a run, whatever is pending, passed, claimed and ahead. -/
def Kept (cap : ℕ) (s : State) (tr : List Event) : Prop :=
  ∃ pending passed claimed ahead, Inv cap s tr pending passed claimed ahead

section Runs

variable {cap i head newHead : ℕ} {s s' : State} {tr : List Event} {l : Label} {e : Event}

/-- Producers do not touch the consumers' counters. -/
theorem heads_of_push {m : Shared} {pc pc' : PushPc} {l : PushLabel} {eff : Effect} {e : PushEvent}
    (hs : pc.step cap m l = some (eff, pc', e)) :
    (eff.apply m).control.headPublish = m.control.headPublish ∧
      (eff.apply m).control.headReserve = m.control.headReserve := by
  cases PushPc.step_cases hs with
  | _ => exact ⟨rfl, rfl⟩

/-- `head_publish` does not move back. -/
theorem headPublish_le (hinv : Kept cap s tr) (hok : currentTail s tr l)
    (hs : Mpmc.step cap s l = some (s', e)) :
    s.mem.control.headPublish ≤ s'.mem.control.headPublish := by
  obtain ⟨pending, passed, claimed, ahead, hinv⟩ := hinv
  cases l with
  | producer j l =>
    obtain ⟨eff, pc, pe, hstep, rfl, rfl⟩ := step_producer hs
    exact le_of_eq (heads_of_push hstep).1.symm
  | consumer j l =>
    obtain ⟨eff, pc, pe, hstep, rfl, rfl⟩ := step_consumer hs
    obtain ⟨-, -, -, -, -, hview⟩ :=
      hinv.pool.step hinv.writer.tailPublish_lt (loadHead_of_currentTail hok hstep) hstep
    exact hview.le_headPublish

/-- Every step keeps the invariant, and every position between the consumers' counters claimed. -/
theorem Covered.step_machine (h : Covered s.mem s.consumers) (hinv : Kept cap s tr)
    (hok : currentTail s tr l) (hs : Mpmc.step cap s l = some (s', e)) :
    Covered s'.mem s'.consumers := by
  have hle := headPublish_le hinv hok hs
  cases l with
  | producer j l =>
    obtain ⟨eff, pc, pe, hstep, rfl, rfl⟩ := step_producer hs
    obtain ⟨hpub, hres⟩ := heads_of_push hstep
    intro x hx hx'
    change (eff.apply s.mem).control.headPublish ≤ x at hx
    change x < (eff.apply s.mem).control.headReserve at hx'
    exact h x (by omega) (by omega)
  | consumer j l =>
    obtain ⟨eff, pc, pe, hstep, rfl, rfl⟩ := step_consumer hs
    exact h.step hstep hle

/-- A step of any party: a claim is kept, or `head_publish` has passed it. -/
theorem claim_or_passed (hs : Mpmc.step cap s l = some (s', e))
    (hc : (s.consumers i).claim? = some (head, newHead)) :
    (s'.consumers i).claim? = some (head, newHead) ∨ newHead ≤ s'.mem.control.headPublish := by
  cases l with
  | producer j l =>
    obtain ⟨eff, pc, pe, hstep, rfl, rfl⟩ := step_producer hs
    exact Or.inl hc
  | consumer j l =>
    obtain ⟨eff, pc, pe, hstep, rfl, rfl⟩ := step_consumer hs
    by_cases hij : i = j
    · subst hij
      rcases Pc.claim_step hc hstep with ⟨rfl, -⟩ | ⟨rfl, hsame⟩
      · exact Or.inr le_rfl
      · left
        simpa using hsame
    · left
      simpa [Function.update_of_ne hij] using hc

end Runs

section Turns

variable {mapping : Mapping} {i head newHead : ℕ} {s s' : State} {tr es : List Event}

/-- The invariant along what happens from a run's end on. -/
theorem onward_invariant (hfresh : mapping.shared = Shared.fresh) (P : State → Prop)
    {ok : State → List Event → Label → Prop} (hok : ∀ s es l, ok s es l → currentTail s es l)
    (hrun : (machine mapping).Run currentTail s tr)
    (hnext : ((machine mapping).startingAt s).Run ok s' es)
    (hbytes : reservedBytes (pushes (tr ++ es)) < 2^64) (h0 : P s)
    (hstep : ∀ s es l s' e, Kept mapping.capacity s (tr ++ es) → ok s es l → P s →
      Mpmc.step mapping.capacity s l = some (s', e) → P s') : P s' := by
  have hboth : Kept mapping.capacity s' (tr ++ es) ∧ P s' := by
    refine hnext.invariant_of (fun es => reservedBytes (pushes (tr ++ es)) < 2^64) ?_
      (fun s es => Kept mapping.capacity s (tr ++ es) ∧ P s) ?_ ?_ hbytes
    · intro es e hb
      rw [← List.append_assoc] at hb
      exact reservedBytes_lt_of_append Event.push? _ _ hb
    · rw [List.append_nil]
      exact ⟨inv_of_run hfresh hrun (reservedBytes_lt_of_append Event.push? _ _ hbytes), h0⟩
    · rintro s es l s' e hl hb ⟨hkept, hP⟩ hs
      rw [← List.append_assoc] at hb ⊢
      refine ⟨?_, hstep s es l s' e hkept hl hP hs⟩
      obtain ⟨pending, passed, claimed, ahead, hinv⟩ := hkept
      exact hinv.step (hok s es l hl) hs hb
  exact hboth.2

/-- In every run every position between the consumers' counters is claimed. -/
theorem covered_of_run (hfresh : mapping.shared = Shared.fresh)
    (hrun : (machine mapping).Run currentTail s tr) (hbytes : reservedBytes (pushes tr) < 2^64) :
    Covered s.mem s.consumers := by
  refine onward_invariant hfresh (fun s => Covered s.mem s.consumers)
    (fun _ _ _ hl => hl) .init hrun hbytes ?_ ?_
  · intro x hx hx'
    change x < mapping.shared.control.headReserve at hx'
    rw [hfresh] at hx'
    exact absurd hx' (Nat.not_lt_zero x)
  · intro s es l s' e hkept hl hcov hs
    exact hcov.step_machine hkept hl hs

/-- The steps of consumer `i`. -/
def Event.isPop (i : ℕ) : Event → Bool
  | .producer _ _ => false
  | .consumer j _ => j == i

/-- What `head_publish` has reached it does not fall behind again. -/
theorem headPublish_onward (hfresh : mapping.shared = Shared.fresh)
    (hrun : (machine mapping).Run currentTail s tr)
    (hnext : ((machine mapping).startingAt s).Run currentTail s' es)
    (hbytes : reservedBytes (pushes (tr ++ es)) < 2^64) :
    s.mem.control.headPublish ≤ s'.mem.control.headPublish := by
  refine onward_invariant hfresh (fun s' => s.mem.control.headPublish ≤ s'.mem.control.headPublish)
    (fun _ _ _ hl => hl) hrun hnext hbytes le_rfl ?_
  intro s₁ es l s₂ e hkept hl hle hs
  exact le_trans hle (headPublish_le hkept hl hs)

/-- A consumer whose turn it is passes its claim within its remaining steps, whatever the others
do. -/
theorem passes_within (hfresh : mapping.shared = Shared.fresh)
    (hrun : (machine mapping).Run currentTail s tr)
    (hc : (s.consumers i).claim? = some (head, newHead))
    (hturn : head ≤ s.mem.control.headPublish)
    (hnext : ((machine mapping).startingAt s).Run currentTail s' es)
    (hbytes : reservedBytes (pushes (tr ++ es)) < 2^64)
    (hsteps : newHead - head + 1 ≤ es.countP (Event.isPop i)) :
    newHead ≤ s'.mem.control.headPublish := by
  have hkept : Kept mapping.capacity s tr :=
    inv_of_run hfresh hrun (reservedBytes_lt_of_append Event.push? _ _ hbytes)
  have hwithin := hnext.within (fun es => reservedBytes (pushes (tr ++ es)) < 2^64) ?_
    (Event.isPop i) (fun s => (s.consumers i).stepsLeft)
    (fun s es => Kept mapping.capacity s (tr ++ es) ∧
      (s.consumers i).claim? = some (head, newHead) ∧ head ≤ s.mem.control.headPublish)
    (fun s es => Kept mapping.capacity s (tr ++ es) ∧ newHead ≤ s.mem.control.headPublish) ?_
    ?_ ?_ hbytes
  · rcases hwithin with ⟨-, hpassed⟩ | ⟨⟨-, hc', -⟩, hle⟩
    · exact hpassed
    · -- Otherwise there would be more steps than there were left.
      obtain ⟨pending, passed, claimed, ahead, hinv⟩ := hkept
      have hpos := Pc.stepsLeft_pos hc'
      have hleft := hinv.pool.stepsLeft_le hc
      change _ ≤ (s.consumers i).stepsLeft at hle
      omega
  · intro es e hb
    rw [← List.append_assoc] at hb
    exact reservedBytes_lt_of_append Event.push? _ _ hb
  · rw [List.append_nil]
    exact ⟨hkept, hc, hturn⟩
  · rintro s₁ es l s₂ e hl hb ⟨hkept₁, hpassed⟩ hs
    rw [← List.append_assoc] at hb ⊢
    refine ⟨?_, le_trans hpassed (headPublish_le hkept₁ hl hs)⟩
    obtain ⟨pending, passed, claimed, ahead, hinv⟩ := hkept₁
    exact hinv.step hl hs hb
  · rintro s₁ es l s₂ e hl hb ⟨hkept₁, hc₁, hturn₁⟩ hs
    rw [← List.append_assoc] at hb ⊢
    have hturn₂ := le_trans hturn₁ (headPublish_le hkept₁ hl hs)
    obtain ⟨pending, passed, claimed, ahead, hinv⟩ := hkept₁
    have hkept₂ : Kept mapping.capacity s₂ (tr ++ es ++ [e]) := hinv.step hl hs hb
    rcases claim_or_passed hs hc₁ with hc₂ | hpassed
    · -- The consumer itself has moved in its turn, or somebody else has.
      right
      refine ⟨⟨hkept₂, hc₂, hturn₂⟩, ?_⟩
      cases l with
      | producer j l =>
        obtain ⟨eff, pc, pe, hstep, rfl, rfl⟩ := step_producer hs
        exact le_rfl
      | consumer j l =>
        obtain ⟨eff, pc, pe, hstep, rfl, rfl⟩ := step_consumer hs
        by_cases hij : i = j
        · subst hij
          have hhead := hinv.pool.claim_within hc₁
          rcases Pc.stepsLeft_step (hinv.pool.ok i) hc₁ (by omega) hstep with rfl | hless
          · -- A claim that is kept has not been passed.
            obtain ⟨_, _, _, _, hinv₂⟩ := hkept₂
            have hwithin := hinv₂.pool.claim_within hc₂
            change newHead ≤ head ∧ _ at hwithin
            omega
          · simpa [Event.isPop] using hless
        · simp [Function.update_of_ne hij, Event.isPop, Ne.symm hij]
    · exact Or.inl ⟨hkept₂, hpassed⟩

/-- The consumers with a claim, given by its start and end, take turns. -/
def turnTaking (hfresh : mapping.shared = Shared.fresh) :
    Machine.TurnTaking (machine mapping) currentTail (fun tr => reservedBytes (pushes tr) < 2^64)
      (ℕ × ℕ × ℕ) where
  waits := fun t s _ => (s.consumers t.1).claim? = some t.2 ∨ t.2.2 ≤ s.mem.control.headPublish
  served := fun t s _ => t.2.2 ≤ s.mem.control.headPublish
  turn := fun t s _ => t.2.1 ≤ s.mem.control.headPublish
  enough := fun t es => t.2.2 - t.2.1 + 1 ≤ es.countP (Event.isPop t.1)
  next := fun t t' => t'.2.1 = t.2.2
  bound := reservedBytes_lt_of_append Event.push?
  waits_onward := by
    intro t s tr s' es hrun hnext hbytes hwaits
    refine onward_invariant hfresh
      (fun s => (s.consumers t.1).claim? = some t.2 ∨ t.2.2 ≤ s.mem.control.headPublish)
      (fun _ _ _ hl => hl) hrun hnext hbytes hwaits ?_
    rintro s₁ es l s₂ e hkept hl (hc | hpassed) hs
    · exact claim_or_passed hs hc
    · exact Or.inr (le_trans hpassed (headPublish_le hkept hl hs))
  served_onward := by
    intro t s tr s' es hrun hnext hbytes hpassed
    exact le_trans hpassed (headPublish_onward hfresh hrun hnext hbytes)
  serve := by
    rintro t s tr s' es hrun hnext hbytes (hc | hpassed) hturn hsteps
    · exact passes_within hfresh hrun hc hturn hnext hbytes hsteps
    · exact le_trans hpassed (headPublish_onward hfresh hrun hnext hbytes)
  turn_of_served := by
    intro t t' s tr _ _ hnext hpassed
    rw [hnext]
    exact hpassed

/-- Pops give their chunks back in order, and nobody waits for a consumer behind it. In every state
that a run reaches in which consumers load `head_reserve` as `currentTail` says and fewer than
`2^64` bytes are reserved, every position between `head_publish` and `head_reserve` belongs to a
chunk that some consumer has claimed. If consumers whose chunks stand one behind the other from
`head_publish` on take, one after the other, as many steps as their chunks have bytes and one more,
then `head_publish` passes all these chunks, however many steps of the others come in between, as
long as these keep to `currentTail` and to fewer than `2^64` bytes in all. -/
theorem claims_pass {capacityBytes : ℕ}
    (hcreate : createMapping capacityBytes kFlagMPMC = .ok mapping)
    (hrun : (machine mapping).Run currentTail s tr) (hbytes : reservedBytes (pushes tr) < 2^64) :
    (∀ x, s.mem.control.headPublish ≤ x → x < s.mem.control.headReserve →
      ∃ i head newHead, (s.consumers i).claim? = some (head, newHead) ∧ head ≤ x ∧ x < newHead) ∧
    ∀ (claims : List (ℕ × ℕ × ℕ)) (turns : List (List Event)) (s' : State),
      claims.IsChain (fun t t' => t'.2.1 = t.2.2) →
      (∀ t ∈ claims.head?, t.2.1 = s.mem.control.headPublish) →
      (∀ t ∈ claims, (s.consumers t.1).claim? = some t.2) →
      ((machine mapping).startingAt s).Run currentTail s' turns.flatten →
      reservedBytes (pushes (tr ++ turns.flatten)) < 2^64 →
      List.Forall₂ (fun t es => t.2.2 - t.2.1 + 1 ≤ es.countP (Event.isPop t.1)) claims turns →
      ∀ t ∈ claims, t.2.2 ≤ s'.mem.control.headPublish := by
  have hfresh := createMapping_shared hcreate
  refine ⟨covered_of_run hfresh hrun hbytes, ?_⟩
  intro claims turns s' horder hfirst hclaims hnext hlt hturns
  exact (turnTaking hfresh).all_served hrun horder (fun t ht => le_of_eq (hfirst t ht))
    (fun t ht => Or.inl (hclaims t ht)) hnext hlt hturns

/-- Two messages are pushed, and two consumers claim one each. -/
def twoClaims : List Label := pushEmpty ++ pushEmpty ++ popSteps 0 5 ++ popSteps 1 5

/-- Consumer `i` finishes its call, and then finds the ring empty five times. -/
def finish (i : ℕ) : List Label :=
  List.replicate 4 (.consumer i .run) ++ (List.replicate 5 (popSteps i 2)).flatten

/-- The test that the two claims stand one behind the other, and that the two consumers can
finish. -/
def twoClaimsTest (mapping : Mapping) (s : State) (tr : List Event) : Bool :=
  ((machine mapping).exec currentTailTest s [] (finish 0 ++ finish 1)).any fun x =>
    decide (s.mem.control.headPublish = 0 ∧ (s.consumers 0).claim? = some (0, 16) ∧
      (s.consumers 1).claim? = some (16, 32) ∧ reservedBytes (pushes (tr ++ x.2)) < 2^64 ∧
      17 ≤ (x.2.take 19).countP (Event.isPop 0) ∧ 17 ≤ (x.2.drop 19).countP (Event.isPop 1))

/-- Both messages of the schedule are given back. -/
theorem claims_pass_twoClaims : ∃ mapping s tr s' es, createMapping 64 kFlagMPMC = .ok mapping ∧
    (machine mapping).Run currentTail s tr ∧ (s.consumers 0).claim? = some (0, 16) ∧
    (s.consumers 1).claim? = some (16, 32) ∧
    ((machine mapping).startingAt s).Run currentTail s' es ∧ 32 ≤ s'.mem.control.headPublish := by
  obtain ⟨mapping, hmap⟩ : ∃ mapping, createMapping 64 kFlagMPMC = .ok mapping := ⟨_, rfl⟩
  obtain ⟨s, tr, hrun, htest⟩ :=
    (machine mapping).exists_run currentTailTest currentTail_of_test twoClaims
    (twoClaimsTest mapping) (by cases hmap; decide +kernel)
  obtain ⟨⟨s', es⟩, hex, htest⟩ := (Option.any_eq_true _ _).mp htest
  obtain ⟨hpub, h0, h1, hbytes, hsteps, hsteps'⟩ := of_decide_eq_true htest
  have hnext : ((machine mapping).startingAt s).Run currentTail s' es :=
    Machine.Run.exec currentTail_of_test (finish 0 ++ finish 1) .init hex
  have hflat : [es.take 19, es.drop 19].flatten = es := by simp
  have hpassed := (claims_pass hmap hrun (reservedBytes_lt_of_append Event.push? _ _ hbytes)).2
    [(0, 0, 16), (1, 16, 32)] [es.take 19, es.drop 19] s' (by simp) (by simp [hpub])
    (by simp [h0, h1]) (by rwa [hflat]) (by rwa [hflat]) (.cons hsteps (.cons hsteps' .nil))
  exact ⟨mapping, s, tr, s', es, hmap, hrun, h0, h1, hnext, hpassed (1, 16, 32) (by simp)⟩

/-- A pop that stops between its compare-exchange and its store of `head_publish` blocks the ring.
As long as it takes no step, whatever the others do, with consumers that load `head_reserve` as
`currentTail` says and fewer than `2^64` bytes reserved, before and since: `head_publish` does not
pass the start of its chunk, every pop that has claimed a chunk behind it keeps waiting, and what
the producers reserve from now on fits with the chunk into one capacity, although the consumers may
claim all of it. -/
theorem stopped_consumer {capacityBytes : ℕ}
    (hcreate : createMapping capacityBytes kFlagMPMC = .ok mapping)
    (hrun : (machine mapping).Run currentTail s tr)
    (hc : (s.consumers i).claim? = some (head, newHead))
    (hnext : ((machine mapping).startingAt s).Run
      (fun s es l => currentTail s es l ∧ ∀ l', l ≠ .consumer i l') s' es)
    (hbytes : reservedBytes (pushes (tr ++ es)) < 2^64) :
    s'.mem.control.headPublish ≤ head ∧
      (∀ j head' newHead', (s.consumers j).claim? = some (head', newHead') → head ≤ head' →
        (s'.consumers j).claim? = some (head', newHead')) ∧
      newHead - head + reservedBytes (pushes es) ≤ mapping.capacity := by
  have hfresh := createMapping_shared hcreate
  obtain ⟨pending, passed, claimed, ahead, hinv⟩ :=
    inv_of_run hfresh hrun (reservedBytes_lt_of_append Event.push? _ _ hbytes)
  have hnext' : ((machine mapping).startingAt s).Run currentTail s' es :=
    hnext.mono_of (fun _ => True) trivial (fun _ _ _ _ _ _ _ _ => trivial) (fun _ _ _ _ hl => hl.1)
  obtain ⟨pending', passed', claimed', ahead', hinv'⟩ :=
    inv_of_run hfresh (hrun.append hnext') hbytes
  -- The consumer stays where it is.
  have hstay : s'.consumers i = s.consumers i := by
    refine onward_invariant hfresh (fun s' => s'.consumers i = s.consumers i)
      (fun _ _ _ hl => hl.1) hrun hnext hbytes rfl ?_
    intro s₁ es l s₂ e _ hl hsame hs
    cases l with
    | producer j l =>
      obtain ⟨eff, pc, pe, hstep, rfl, rfl⟩ := step_producer hs
      exact hsame
    | consumer j l =>
      obtain ⟨eff, pc, pe, hstep, rfl, rfl⟩ := step_consumer hs
      have hij : i ≠ j := fun heq => hl.2 l (by rw [heq])
      simpa [Function.update_of_ne hij] using hsame
  have hc' : (s'.consumers i).claim? = some (head, newHead) := by rw [hstay]; exact hc
  have hwithin := hinv.pool.claim_within hc
  have hwithin' := hinv'.pool.claim_within hc'
  refine ⟨hwithin'.1, ?_, ?_⟩
  · intro j head' newHead' hj hbehind
    have hwaits : (s'.consumers j).claim? = some (head', newHead') ∨
        newHead' ≤ s'.mem.control.headPublish :=
      (turnTaking hfresh).waits_onward (j, head', newHead') s tr s' es hrun hnext'
        hbytes (Or.inl hj)
    rcases hwaits with hstill | hpassed
    · exact hstill
    · -- It would have been passed before the one that stopped.
      have hlen := (hinv.pool.claim_within hj).2.1
      omega
  · have hroom := hinv'.writer.inv.reserve_le
    have hpub := hinv.pool.headReserve_le
    have hres := hinv.writer.inv.chain.le
    have hsum : reservedBytes (pushes (tr ++ es)) =
        reservedBytes (pushes tr) + reservedBytes (pushes es) := reservedBytes_flatMap_append ..
    rw [hinv'.writer.bytes, hsum, ← hinv.writer.bytes] at hroom
    omega

/-- The first consumer of `twoClaims` stops. The second one copies its message and waits, and
another message is pushed. -/
def stoppedSteps : List Label := List.replicate 4 (.consumer 1 .run) ++ pushEmpty

/-- The second consumer of the schedule still waits then. -/
theorem stopped_consumer_stoppedSteps :
    ∃ mapping s tr s' es, createMapping 64 kFlagMPMC = .ok mapping ∧
    (machine mapping).Run currentTail s tr ∧ (s.consumers 0).claim? = some (0, 16) ∧
    ((machine mapping).startingAt s).Run
      (fun s es l => currentTail s es l ∧ ∀ l', l ≠ .consumer 0 l') s' es ∧
    reservedBytes (pushes es) = 16 ∧ s'.mem.control.headPublish ≤ 0 ∧
    (s'.consumers 1).claim? = some (16, 32) ∧ 16 + reservedBytes (pushes es) ≤
      mapping.capacity := by
  obtain ⟨mapping, hmap⟩ : ∃ mapping, createMapping 64 kFlagMPMC = .ok mapping := ⟨_, rfl⟩
  obtain ⟨s, tr, hrun, htest⟩ :=
    (machine mapping).exists_run currentTailTest currentTail_of_test twoClaims
    (fun s tr => ((machine mapping).exec currentTailTest s [] stoppedSteps).any fun x =>
      decide ((s.consumers 0).claim? = some (0, 16) ∧
        (s.consumers 1).claim? = some (16, 32) ∧ reservedBytes (pushes (tr ++ x.2)) < 2^64 ∧
        reservedBytes (pushes x.2) = 16)) (by cases hmap; decide +kernel)
  obtain ⟨⟨s', es⟩, hex, htest⟩ := (Option.any_eq_true _ _).mp htest
  obtain ⟨h0, h1, hbytes, hmore⟩ := of_decide_eq_true htest
  have hothers : ∀ l ∈ stoppedSteps, ∀ l', l ≠ .consumer 0 l' := by
    simp [stoppedSteps, pushEmpty]
  have hnext : ((machine mapping).startingAt s).Run
      (fun s es l => currentTail s es l ∧ ∀ l', l ≠ .consumer 0 l') s' es :=
    Machine.Run.exec_of_mem stoppedSteps
      (fun l hl s es h => ⟨currentTail_of_test s es l h, hothers l hl⟩) .init hex
  obtain ⟨hpub, hkept, hroom⟩ := stopped_consumer hmap hrun h0 hnext hbytes
  exact ⟨mapping, s, tr, s', es, hmap, hrun, h0, hnext, hmore, hpub,
    hkept 1 16 32 h1 (by decide), hroom⟩

end Turns

end LfRing.Mpmc

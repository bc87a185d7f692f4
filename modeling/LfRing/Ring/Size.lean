import LfRing.Library.Progress
import LfRing.Ring.Mpmc
import LfRing.Ring.Mpsc
import LfRing.Ring.Spsc

/-!
# `approx_size`

`approx_size` of the three rings loads `head_publish`, then `tail_publish`, and returns their
difference, capped at the capacity. It writes nothing, so a call is two moments of a run of the
ring, with whatever the others do in between, and its result is a function of the two values
(`approxSize`).

Both counters only grow, and `head_publish` is loaded first. So the difference is at least the
number of bytes in use at every moment between the two loads, and it is that number if some moment
has both values that were loaded. The order of the two loads matters: the other way round the
difference could wrap. `Watched` is all that is needed of a ring, and `approx_size_between` is what
follows for the three of them.
-/

namespace LfRing

/-- What `approx_size` computes from the two values it has loaded. -/
def approxSize (capacity head tail : ℕ) : ℕ :=
  let used := sub64 tail head
  if capacity < used then capacity else used

/-- `SharedRingBuffer::approx_size`. -/
def Mpsc.approxSize (mapping : Mapping) (head tail : ℕ) : ℕ :=
  LfRing.approxSize mapping.capacity head tail

/-- `SharedRingBufferMPMC::approx_size`. -/
def Mpmc.approxSize (mapping : Mapping) (head tail : ℕ) : ℕ :=
  LfRing.approxSize mapping.capacity head tail

/-- `SharedRingBufferSPSC::approx_size`. -/
def Spsc.approxSize (mapping : Mapping) (head tail : ℕ) : ℕ :=
  LfRing.approxSize mapping.capacity head tail

/-- The bytes between the two published counters. -/
def ControlBlock.inUse (c : ControlBlock) : ℕ := c.tailPublish - c.headPublish

/-- The published counters of a ring of capacity `cap`. -/
structure ControlBlock.Ordered (cap : ℕ) (c : ControlBlock) : Prop where
  /-- The head is not ahead of the tail. -/
  head_le : c.headPublish ≤ c.tailPublish
  /-- What is published fits the ring. -/
  tail_le : c.tailPublish ≤ c.headPublish + cap
  /-- The tail has not wrapped. -/
  tail_lt : c.tailPublish < 2^64

/-- Neither published counter has moved back. -/
def ControlBlock.Forward (c c' : ControlBlock) : Prop :=
  c.headPublish ≤ c'.headPublish ∧ c.tailPublish ≤ c'.tailPublish

/-- What a size says about a moment between its two loads, the first of which finds the counters
`first`, and the second the counters `last`. -/
structure SizeBetween (cap : ℕ) (first now last : ControlBlock) (size : ℕ) : Prop where
  /-- It is a possible size. -/
  le_capacity : size ≤ cap
  /-- It is not smaller than what is in use. -/
  inUse_le : now.inUse ≤ size
  /-- It is exact if both values loaded are those of the moment. -/
  exact : now.headPublish = first.headPublish → now.tailPublish = last.tailPublish →
    size = now.inUse

/-- The result of two loads, with a moment between them. -/
theorem sizeBetween {cap : ℕ} {first now last : ControlBlock} (hnow : now.Ordered cap)
    (hlast : last.Ordered cap) (hbefore : first.Forward now) (hafter : now.Forward last) :
    SizeBetween cap first now last (approxSize cap first.headPublish last.tailPublish) := by
  obtain ⟨hhead, htail⟩ := hbefore
  obtain ⟨hhead', htail'⟩ := hafter
  have hle := hnow.head_le
  have hfit := hnow.tail_le
  -- The subtraction does not borrow.
  have hused : sub64 last.tailPublish first.headPublish = last.tailPublish - first.headPublish :=
    sub64_of_le (by omega) hlast.tail_lt
  unfold approxSize
  rw [hused]
  refine ⟨?_, ?_, ?_⟩
  · show (if cap < last.tailPublish - first.headPublish then cap
      else last.tailPublish - first.headPublish) ≤ cap
    split_ifs <;> omega
  · show now.tailPublish - now.headPublish ≤
      if cap < last.tailPublish - first.headPublish then cap
      else last.tailPublish - first.headPublish
    split_ifs <;> omega
  · intro hsame hsame'
    show (if cap < last.tailPublish - first.headPublish then cap
      else last.tailPublish - first.headPublish) = now.tailPublish - now.headPublish
    rw [← hsame, ← hsame']
    split_ifs <;> omega

section Watching

variable {σ ι ε : Type} {M : Machine σ ι ε} {ok : σ → List ε → ι → Prop} {Q : List ε → Prop}
  {control : σ → ControlBlock} {cap : ℕ} {s s₁ s₂ : σ} {tr es : List ε}

/-- A ring, as someone sees it who only loads its two published counters. -/
structure Watched (M : Machine σ ι ε) (ok : σ → List ε → ι → Prop) (Q : List ε → Prop)
    (control : σ → ControlBlock) (cap : ℕ) : Prop where
  /-- The first part of a run is in the bound if all of it is. -/
  bound : ∀ tr es, Q (tr ++ es) → Q tr
  /-- The counters are ordered. -/
  ordered : ∀ s tr, M.Run ok s tr → Q tr → (control s).Ordered cap
  /-- No step moves them back. -/
  forward : ∀ s tr l s' e, M.Run ok s tr → ok s tr l → Q (tr ++ [e]) → M.step s l = some (s', e) →
    (control s).Forward (control s')

/-- Nor does a run. -/
theorem Watched.onward (W : Watched M ok Q control cap) (hrun : M.Run ok s tr)
    (hnext : M.Onward ok s tr s₁ es) (hbound : Q (tr ++ es)) :
    (control s).Forward (control s₁) := by
  have hboth : M.Run ok s₁ (tr ++ es) ∧ (control s).Forward (control s₁) := by
    refine hnext.invariant_of (fun es => Q (tr ++ es)) ?_
      (fun s₁ es => M.Run ok s₁ (tr ++ es) ∧ (control s).Forward (control s₁)) ?_ ?_ hbound
    · intro es e hb
      rw [← List.append_assoc] at hb
      exact W.bound _ _ hb
    · rw [List.append_nil]
      exact ⟨hrun, le_rfl, le_rfl⟩
    · rintro s₁ es l s₂ e hl hb ⟨hrun₁, hhead, htail⟩ hs
      rw [← List.append_assoc] at hb ⊢
      obtain ⟨hhead', htail'⟩ := W.forward s₁ _ l s₂ e hrun₁ hl hb hs
      exact ⟨.step l hrun₁ hl hs, le_trans hhead hhead', le_trans htail htail'⟩
  exact hboth.2

/-- A call of `approx_size` on such a ring, and a moment between its two loads. -/
theorem Watched.sizeBetween (W : Watched M ok Q control cap) {es₁ es₂ : List ε}
    (hrun : M.Run ok s₁ tr) (hbefore : M.Onward ok s₁ tr s es₁)
    (hafter : M.Onward ok s (tr ++ es₁) s₂ es₂) (hbound : Q (tr ++ es₁ ++ es₂)) :
    SizeBetween cap (control s₁) (control s) (control s₂)
      (approxSize cap (control s₁).headPublish (control s₂).tailPublish) := by
  have hbound₁ := W.bound _ _ hbound
  have hrun₁ : M.Run ok s (tr ++ es₁) := hrun.append hbefore
  exact LfRing.sizeBetween (W.ordered s _ hrun₁ hbound₁)
    (W.ordered s₂ _ (hrun₁.append hafter) hbound)
    (W.onward hrun hbefore hbound₁) (W.onward hrun₁ hafter hbound)

end Watching

/-! ## The three rings -/

/-- The producers' side of the rings with many producers. -/
theorem WriterHistory.ordered {cap : ℕ} {m : Shared} {procs : ℕ → PushPc} {es : List PushEvent}
    {pending : List Reservation} (h : WriterHistory cap m procs es pending) :
    m.control.Ordered cap := by
  have hle := h.inv.chain.le
  have hfit := h.inv.reserve_le
  exact ⟨h.inv.head_le, le_trans hle hfit, h.tailPublish_lt⟩

/-- A producer's step moves `tail_publish` forward or not at all. -/
theorem ProducerView.forward {cap : ℕ} {m m' : Shared} {new : List Chunk}
    (h : ProducerView cap m m' new) :
    m.control.Forward m'.control :=
  ⟨le_of_eq h.headPublish_eq.symm, h.stream.le⟩

/-- A consumer's step moves `head_publish` forward or not at all. -/
theorem ConsumerView.forward {m m' : Shared} (h : ConsumerView m m') :
    m.control.Forward m'.control :=
  ⟨h.le_headPublish, le_of_eq h.tailPublish_eq.symm⟩

/-- The counters of a `SharedRingBuffer` are ordered and move forward. -/
theorem Mpsc.watched {mapping : Mapping} (hfresh : mapping.shared = Shared.fresh) :
    Watched (machine mapping) (fun _ _ _ => True) (fun tr => reservedBytes (pushes tr) < 2^64)
      (fun s => s.mem.control) mapping.capacity where
  bound := reservedBytes_lt_of_append Event.push?
  ordered := by
    intro s tr hrun hb
    obtain ⟨pending, passed, ahead, seen, hinv⟩ := inv_of_run hfresh hrun hb
    exact hinv.writer.ordered
  forward := by
    intro s tr l s' e hrun _ hb hs
    obtain ⟨pending, passed, ahead, seen, hinv⟩ :=
      inv_of_run hfresh hrun (reservedBytes_lt_of_append Event.push? tr [e] hb)
    cases l with
    | producer i l =>
      obtain ⟨eff, pc, pe, hstep, rfl, rfl⟩ := step_producer hs
      rw [pushes_producer] at hb
      obtain ⟨-, -, hview⟩ := hinv.writer.step hstep hb
      exact hview.forward
    | consumer l =>
      obtain ⟨eff, pc, pe, hstep, rfl, rfl⟩ := step_consumer hs
      obtain ⟨-, -, -, -, hview, -⟩ := hinv.reader.step hinv.writer.tailPublish_lt hstep
      exact hview.forward

/-- The counters of a `SharedRingBufferMPMC` are ordered and move forward. -/
theorem Mpmc.watched {mapping : Mapping} (hfresh : mapping.shared = Shared.fresh) :
    Watched (machine mapping) currentTail (fun tr => reservedBytes (pushes tr) < 2^64)
      (fun s => s.mem.control) mapping.capacity where
  bound := reservedBytes_lt_of_append Event.push?
  ordered := by
    intro s tr hrun hb
    obtain ⟨pending, passed, claimed, ahead, hinv⟩ := inv_of_run hfresh hrun hb
    exact hinv.writer.ordered
  forward := by
    intro s tr l s' e hrun hok hb hs
    obtain ⟨pending, passed, claimed, ahead, hinv⟩ :=
      inv_of_run hfresh hrun (reservedBytes_lt_of_append Event.push? tr [e] hb)
    cases l with
    | producer i l =>
      obtain ⟨eff, pc, pe, hstep, rfl, rfl⟩ := step_producer hs
      rw [pushes_producer] at hb
      obtain ⟨-, -, hview⟩ := hinv.writer.step hstep hb
      exact hview.forward
    | consumer i l =>
      obtain ⟨eff, pc, pe, hstep, rfl, rfl⟩ := step_consumer hs
      obtain ⟨-, -, -, -, -, hview⟩ :=
        hinv.pool.step hinv.writer.tailPublish_lt (loadHead_of_currentTail hok hstep) hstep
      exact hview.forward

/-- The counters of a `SharedRingBufferSPSC` are ordered and move forward. -/
theorem Spsc.watched {mapping : Mapping} (hfresh : mapping.shared = Shared.fresh) :
    Watched (machine mapping) (fun _ _ _ => True) (fun tr => placedBytes tr < 2^64)
      (fun s => s.mem.control) mapping.capacity where
  bound := by
    intro tr es hb
    rw [placedBytes, pushes, List.flatMap_append, List.map_append, List.sum_append] at hb
    exact lt_of_le_of_lt (Nat.le_add_right _ _) hb
  ordered := by
    intro s tr hrun hb
    obtain ⟨passed, ahead, seen, hinv⟩ := inv_of_run hfresh hrun hb
    have hle := hinv.push.bytes_le
    have hlt := hinv.push.bytes_lt
    exact ⟨hinv.push.head_le, hinv.push.tail_le, by omega⟩
  forward := by
    intro s tr l s' e hrun _ hb hs
    rw [placedBytes_append] at hb
    obtain ⟨passed, ahead, seen, hinv⟩ :=
      inv_of_run hfresh hrun (lt_of_le_of_lt (Nat.le_add_right _ _) hb)
    cases l with
    | producer l =>
      obtain ⟨eff, pc, pe, hstep, rfl, rfl⟩ := step_producer hs
      have hbytes : ((Event.producer pe).push?.map PushEvent.bytes).sum = pe.bytes := by
        simp [Event.push?]
      rw [hbytes] at hb
      exact (hinv.push.step hstep hb).2.forward
    | consumer l =>
      obtain ⟨eff, pc, pe, hstep, rfl, rfl⟩ := step_consumer hs
      have hle := hinv.push.bytes_le
      have hlt := hinv.push.bytes_lt
      obtain ⟨-, -, -, -, hview, -⟩ := hinv.reader.step (by omega) hstep
      exact hview.forward
    | replace =>
      cases hs
      exact ⟨le_rfl, le_rfl⟩

/-- `approx_size` of each of the three rings, in every run of any number of threads, brackets what
happens while it runs. With `head_publish` loaded in the state `s₁` and `tail_publish` in the state
`s₂`, the result is at most the capacity, and for every state `s` in between it is at least the
number of bytes in use there, and exactly that number if `s` has both values loaded. So a ring that
holds something throughout a call is never reported empty, and one that nobody uses is reported
exactly. The runs reserve fewer than `2^64` bytes up to the second load, or set out to place fewer
in the case of `SharedRingBufferSPSC`, and for `SharedRingBufferMPMC` they are those in which
consumers load `head_reserve` as `currentTail` says. -/
theorem approx_size_between {capacityBytes : ℕ} {mapping : Mapping} :
    (createMapping capacityBytes kFlagMPSC = .ok mapping →
      ∀ {s₁ s s₂ : Mpsc.State} {tr es₁ es₂ : List Mpsc.Event},
        (Mpsc.machine mapping).Reaches s₁ tr →
        ((Mpsc.machine mapping).startingAt s₁).Reaches s es₁ →
        ((Mpsc.machine mapping).startingAt s).Reaches s₂ es₂ →
        reservedBytes (Mpsc.pushes (tr ++ es₁ ++ es₂)) < 2^64 →
        SizeBetween mapping.capacity s₁.mem.control s.mem.control s₂.mem.control
          (Mpsc.approxSize mapping s₁.mem.control.headPublish s₂.mem.control.tailPublish)) ∧
    (createMapping capacityBytes kFlagMPMC = .ok mapping →
      ∀ {s₁ s s₂ : Mpmc.State} {tr es₁ es₂ : List Mpmc.Event},
        (Mpmc.machine mapping).Run Mpmc.currentTail s₁ tr →
        ((Mpmc.machine mapping).startingAt s₁).Run Mpmc.currentTail s es₁ →
        ((Mpmc.machine mapping).startingAt s).Run Mpmc.currentTail s₂ es₂ →
        reservedBytes (Mpmc.pushes (tr ++ es₁ ++ es₂)) < 2^64 →
        SizeBetween mapping.capacity s₁.mem.control s.mem.control s₂.mem.control
          (Mpmc.approxSize mapping s₁.mem.control.headPublish s₂.mem.control.tailPublish)) ∧
    (createMapping capacityBytes kFlagSPSC = .ok mapping →
      ∀ {s₁ s s₂ : Spsc.State} {tr es₁ es₂ : List Spsc.Event},
        (Spsc.machine mapping).Reaches s₁ tr →
        ((Spsc.machine mapping).startingAt s₁).Reaches s es₁ →
        ((Spsc.machine mapping).startingAt s).Reaches s₂ es₂ →
        Spsc.placedBytes (tr ++ es₁ ++ es₂) < 2^64 →
        SizeBetween mapping.capacity s₁.mem.control s.mem.control s₂.mem.control
          (Spsc.approxSize mapping s₁.mem.control.headPublish s₂.mem.control.tailPublish)) := by
  refine ⟨?_, ?_, ?_⟩
  · intro hcreate s₁ s s₂ tr es₁ es₂ hrun hbefore hafter hbytes
    exact (Mpsc.watched (createMapping_shared hcreate)).sizeBetween hrun hbefore hafter hbytes
  · intro hcreate s₁ s s₂ tr es₁ es₂ hrun hbefore hafter hbytes
    exact (Mpmc.watched (createMapping_shared hcreate)).sizeBetween hrun hbefore hafter hbytes
  · intro hcreate s₁ s s₂ tr es₁ es₂ hrun hbefore hafter hbytes
    exact (Spsc.watched (createMapping_shared hcreate)).sizeBetween hrun hbefore hafter hbytes

/-- The test that one message is in the ring, and that a consumer can pop it. -/
def Mpmc.poppedTest (mapping : Mapping) (s : State) (tr : List Event) : Bool :=
  ((machine mapping).exec currentTailTest s [] (popSteps 0 9)).any fun x =>
    decide (s.mem.control.inUse = 16 ∧ x.1.mem.control.inUse = 0 ∧
      reservedBytes (pushes (tr ++ x.2)) < 2^64)

/-- A message is pushed and popped between the two loads, so the size is 16 although the ring is
empty in the end. -/
theorem approx_size_between_popped :
    ∃ mapping s₁ s s₂ tr es₁ es₂, createMapping 64 kFlagMPMC = .ok mapping ∧
    (Mpmc.machine mapping).Run Mpmc.currentTail s₁ tr ∧
    ((Mpmc.machine mapping).startingAt s₁).Run Mpmc.currentTail s es₁ ∧
    ((Mpmc.machine mapping).startingAt s).Run Mpmc.currentTail s₂ es₂ ∧
    s.mem.control.inUse = 16 ∧ s₂.mem.control.inUse = 0 ∧
    s.mem.control.inUse ≤
      Mpmc.approxSize mapping s₁.mem.control.headPublish s₂.mem.control.tailPublish := by
  obtain ⟨mapping, hmap⟩ : ∃ mapping, createMapping 64 kFlagMPMC = .ok mapping := ⟨_, rfl⟩
  obtain ⟨s, tr, hrun, htest⟩ := (Mpmc.machine mapping).exists_run Mpmc.currentTailTest
    Mpmc.currentTail_of_test Mpmc.pushEmpty (Mpmc.poppedTest mapping)
    (by cases hmap; decide +kernel)
  obtain ⟨⟨s₂, es₂⟩, hex, htest⟩ := (Option.any_eq_true _ _).mp htest
  obtain ⟨huse, hempty, hbytes⟩ := of_decide_eq_true htest
  have hafter : ((Mpmc.machine mapping).startingAt s).Run Mpmc.currentTail s₂ es₂ :=
    Machine.Run.exec Mpmc.currentTail_of_test (Mpmc.popSteps 0 9) .init hex
  refine ⟨mapping, (Mpmc.machine mapping).init, s, s₂, [], tr, es₂, hmap, .init, hrun, hafter,
    huse, hempty, ?_⟩
  exact (approx_size_between.2.1 hmap .init hrun hafter hbytes).inUse_le

end LfRing

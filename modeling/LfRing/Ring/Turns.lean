import LfRing.Library.Progress
import LfRing.Ring.Producers

/-!
# Waiting for one's turn

A push that has won its reservation writes it at once, but publishes only when `tail_publish` has
reached its start, and spins until then. Whether the spinning ends is up to the producers whose
reservations stand before its own. The results of this module say what that comes to, beside any
consumer side.

* Reservations are served in their order (`turns_come`): if the producers that hold them get their
  remaining steps one after the other, all of them return, whatever everybody else does in between.
  The first one needs nobody's help.
* One that stops blocks the others (`stalled_blocks`): nothing behind its reservation is ever
  published, the calls that hold reservations there spin for ever, and less than one capacity can
  still be reserved.
* Before the reservation a push is lock-free (`loop_bounded`): the loop around the compare-exchange
  takes three steps, and goes around again only after a spurious failure or because another producer
  has just reserved.

The first two rest on the fact that every pending reservation is held by a producer (`Held`), which
the invariant of the producers leaves open.
-/

namespace LfRing

namespace PushPc

/-- The steps that a producer with a reservation has left when it does not have to wait. -/
def stepsLeft : PushPc → ℕ
  | store _ _ todo => todo.length + 5
  | awaitTurn _ => 4
  | fetchSequence _ => 3
  | storeSequence _ _ => 2
  | publish _ _ => 1
  | _ => 0

/-- A producer that makes its stores has these left, and four steps behind them. -/
theorem stepsLeft_storing (r : Reservation) (todo : List Store) :
    (storing r todo).stepsLeft = todo.length + 4 := by
  cases todo <;> rfl

variable {cap : ℕ} {m : Shared} {pc pc' : PushPc} {l : PushLabel} {eff : Effect} {e : PushEvent}
  {r : Reservation}

/-- A reservation is given up by its publication only. -/
theorem reservation_step (hr : pc.reservation? = some r)
    (hs : pc.step cap m l = some (eff, pc', e)) :
    (∃ n, e = .published r n) ∨ pc'.reservation? = some r := by
  cases PushPc.step_cases hs with
  | store r' st todo =>
    right
    rw [reservation?_storing]
    exact hr
  | wait r' => exact Or.inr hr
  | turn r' hturn => exact Or.inr hr
  | fetch r' => exact Or.inr hr
  | number r' n => exact Or.inr hr
  | publish r' n =>
    cases hr
    exact Or.inl ⟨n, rfl⟩
  | _ => cases hr

/-- In its turn a producer gets further with every step. -/
theorem stepsLeft_step (hr : pc.reservation? = some r) (hturn : m.control.tailPublish = r.start)
    (hs : pc.step cap m l = some (eff, pc', e)) :
    (∃ n, e = .published r n) ∨ pc'.stepsLeft + 1 ≤ pc.stepsLeft := by
  cases PushPc.step_cases hs with
  | store r' st todo =>
    right
    rw [stepsLeft_storing]
    exact le_rfl
  | wait r' =>
    -- The wait is over at the first look.
    cases hr
    cases l <;> simp [step, hturn] at hs
  | turn r' h => exact Or.inr le_rfl
  | fetch r' => exact Or.inr le_rfl
  | number r' n => exact Or.inr le_rfl
  | publish r' n =>
    cases hr
    exact Or.inl ⟨n, rfl⟩
  | _ => cases hr

/-- A producer with a reservation has at most the stores and the four steps behind them left. -/
theorem stepsLeft_le {pending : List Reservation} (hok : pc.Ok cap m pending)
    (hr : pc.reservation? = some r) : pc.stepsLeft ≤ (r.stores cap).length + 4 := by
  cases pc with
  | store r' st todo =>
    cases hr
    obtain ⟨made, hall, -⟩ := hok.2
    rw [hall, List.length_append, List.length_cons]
    change todo.length + 5 ≤ _
    omega
  | awaitTurn r' => exact Nat.le_add_left _ _
  | fetchSequence r' => exact le_trans (by decide : 3 ≤ 4) (Nat.le_add_left _ _)
  | storeSequence r' n => exact le_trans (by decide : 2 ≤ 4) (Nat.le_add_left _ _)
  | publish r' n => exact le_trans (by decide : 1 ≤ 4) (Nat.le_add_left _ _)
  | _ => cases hr

/-- A producer with a reservation has a step left. -/
theorem stepsLeft_pos (hr : pc.reservation? = some r) : 0 < pc.stepsLeft := by
  cases pc with
  | store r' st todo => exact Nat.succ_pos _
  | awaitTurn r' => exact Nat.succ_pos _
  | fetchSequence r' => exact Nat.succ_pos _
  | storeSequence r' n => exact Nat.succ_pos _
  | publish r' n => exact Nat.succ_pos _
  | _ => cases hr

end PushPc

namespace Producers

/-- Every pending reservation is held by a producer. -/
def Held (procs : ℕ → PushPc) (pending : List Reservation) : Prop :=
  ∀ r ∈ pending, ∃ i, (procs i).reservation? = some r

variable {cap i : ℕ} {s s' : State} {tr es : List Event} {r : Reservation}

/-- The environment's step, taken apart. -/
theorem step_advance (cap : ℕ) {head : ℕ} {e : Event}
    (h : step cap s (.advance head) = some (s', e)) :
    s.mem.control.headPublish ≤ head ∧ head ≤ s.mem.control.tailPublish ∧
      s' = { s with mem := (Effect.headPublish head).apply s.mem } ∧ e = .advanced head := by
  simp only [step] at h
  split_ifs at h with hhead
  cases h
  exact ⟨hhead.1, hhead.2, rfl, rfl⟩

/-- A producer's step keeps it so. -/
theorem Held.step {m : Shared} {procs : ℕ → PushPc} {pending pending' : List Reservation}
    {l : PushLabel} {eff : Effect} {pc' : PushPc} {e : PushEvent} (h : Held procs pending)
    (hw : WriterInv cap m procs pending) (hs : (procs i).step cap m l = some (eff, pc', e))
    (hpend : e.Pending pending pending') : Held (Function.update procs i pc') pending' := by
  -- A reservation that was pending before, and is not the one just published.
  have hold : ∀ r ∈ pending, (∀ n, e ≠ .published r n) →
      ∃ j, (Function.update procs i pc' j).reservation? = some r := by
    intro r hr hne
    obtain ⟨j, hj⟩ := h r hr
    refine ⟨j, ?_⟩
    by_cases hij : j = i
    · subst hij
      rw [Function.update_self]
      rcases PushPc.reservation_step hj hs with ⟨n, he⟩ | hkept
      · exact absurd he (hne n)
      · exact hkept
    · rw [Function.update_of_ne hij]
      exact hj
  intro r hr
  cases e with
  | reserved r₀ =>
    obtain rfl : pending' = pending ++ [r₀] := hpend
    rcases List.mem_append.mp hr with hr | hr
    · exact hold r hr (by rintro n ⟨⟩)
    · obtain rfl := List.mem_singleton.mp hr
      refine ⟨i, ?_⟩
      rw [Function.update_self]
      generalize procs i = pc at hs
      cases PushPc.step_cases hs with
      | reserve r' htail => exact PushPc.reservation?_storing _ _
  | published r₀ n =>
    obtain rfl : pending = r₀ :: pending' := hpend
    refine hold r (List.mem_cons_of_mem _ hr) ?_
    -- What stands behind the first reservation starts elsewhere.
    rintro n' ⟨⟩
    have hbehind := (hw.chain.2.mem hr).1
    have hpos := Reservation.Placed.total_pos r
    unfold Reservation.stop at hbehind
    omega
  | _ =>
    obtain rfl : pending' = pending := hpend
    exact hold r hr (by rintro n ⟨⟩)

/-- The bytes reserved in two parts of a run. -/
theorem reservedBytes_add (tr es : List Event) :
    reservedBytes (tr ++ es) = reservedBytes tr + reservedBytes es := by
  simp [reservedBytes]

/-- In every run that does not make the reservation counter wrap, the producers' invariant holds
with a list of pending reservations that are all held. -/
theorem held_of_reaches (h : (machine cap).Reaches s tr) (hlt : reservedBytes tr < 2^64) :
    ∃ pending, WriterInv cap s.mem s.procs pending ∧ Held s.procs pending := by
  have hboth : (∃ pending, WriterInv cap s.mem s.procs pending ∧ Held s.procs pending) ∧
      s.mem.control.tailReserve = reservedBytes tr := by
    refine h.invariant_of (fun tr => reservedBytes tr < 2^64) ?_
      (fun s tr => (∃ pending, WriterInv cap s.mem s.procs pending ∧ Held s.procs pending) ∧
        s.mem.control.tailReserve = reservedBytes tr) ?_ ?_ hlt
    · intro tr e hb
      rw [reservedBytes_append] at hb
      omega
    · exact ⟨⟨[], WriterInv.fresh cap, by simp [Held]⟩, rfl⟩
    · rintro s tr l s' e - hb ⟨⟨pending, hw, hheld⟩, hbytes⟩ hs
      rw [reservedBytes_append, ← hbytes] at hb ⊢
      cases l with
      | advance head =>
        obtain ⟨hle, hle', rfl, rfl⟩ := step_advance cap hs
        exact ⟨⟨pending, hw.advance hle hle' rfl rfl rfl, hheld⟩, rfl⟩
      | producer i l =>
        obtain ⟨eff, pc, pe, hstep, rfl, rfl⟩ := step_producer hs
        rw [Event.bytes_producer] at hb ⊢
        obtain ⟨hcount, hstop⟩ := WriterHistory.tailReserve_eq hstep hb
        obtain ⟨pending', hpend, hw', -⟩ := hw.step hstep hstop
        exact ⟨⟨pending', hw', hheld.step hw hstep hpend⟩, hcount⟩
  exact hboth.1

/-! ## Who moves `tail_publish` -/

/-- The producer `i` publishes the reservation `r` in one of the steps. -/
def Publishes (es : List Event) (i : ℕ) (r : Reservation) : Prop :=
  ∃ eff n, Event.producer i eff (.published r n) ∈ es

/-- It has done so as well in more steps. -/
theorem Publishes.mono {es' : List Event} (h : Publishes es i r) (hsub : es ⊆ es') :
    Publishes es' i r := by
  obtain ⟨eff, n, hin⟩ := h
  exact ⟨eff, n, hsub hin⟩

/-- `tail_publish` does not move back. -/
theorem tailPublish_le {l : Label} {e : Event} (hinv : Inv cap s tr)
    (hs : (machine cap).step s l = some (s', e)) :
    s.mem.control.tailPublish ≤ s'.mem.control.tailPublish := by
  cases l with
  | advance head =>
    obtain ⟨-, -, rfl, -⟩ := step_advance cap hs
    exact le_rfl
  | producer i l =>
    obtain ⟨eff, pc, pe, hstep, rfl, rfl⟩ := step_producer hs
    obtain ⟨pending, hw⟩ := hinv.writer
    rcases tailPublish_step hw hstep with heq | ⟨r, n, -, hstart, hstop, -⟩
    · exact le_of_eq heq.symm
    · change _ ≤ (eff.apply s.mem).control.tailPublish
      rw [hstop, hstart]
      exact Nat.le_add_right _ _

/-- What has been published lies before `tail_publish`. -/
theorem stop_le_of_publishes (h : (machine cap).Reaches s tr) (hlt : reservedBytes tr < 2^64)
    (hpub : Publishes tr i r) : r.stop ≤ s.mem.control.tailPublish := by
  have hall : Inv cap s tr ∧ ∀ i r, Publishes tr i r → r.stop ≤ s.mem.control.tailPublish := by
    refine h.invariant_of (fun tr => reservedBytes tr < 2^64) ?_
      (fun s tr => Inv cap s tr ∧ ∀ i r, Publishes tr i r → r.stop ≤ s.mem.control.tailPublish) ?_
      ?_ hlt
    · intro tr e hb
      rw [reservedBytes_append] at hb
      omega
    · refine ⟨inv_of_reaches .init (by decide), ?_⟩
      rintro i r ⟨eff, n, hin⟩
      simp at hin
    · rintro s tr l s' e - hb ⟨hinv, hbefore⟩ hs
      refine ⟨hinv.step hs hb, ?_⟩
      rintro i r ⟨eff, n, hin⟩
      rcases List.mem_append.mp hin with hin | hin
      · exact le_trans (hbefore i r ⟨eff, n, hin⟩) (tailPublish_le hinv hs)
      · -- The step itself is the publication.
        obtain rfl := List.mem_singleton.mp hin
        cases l with
        | advance head =>
          obtain ⟨-, -, -, heq⟩ := step_advance cap hs
          cases heq
        | producer j l =>
          obtain ⟨eff', pc, pe, hstep, rfl, heq⟩ := step_producer hs
          cases heq
          obtain ⟨pending, hw⟩ := hinv.writer
          have hok := hw.ok i
          generalize s.procs i = pc₀ at hstep hok
          cases PushPc.step_cases hstep with
          | publish r n =>
            have hin := hw.chain.mem hok.1
            have hwrap := hw.reserve_lt
            have hu : u64 (r.start + r.total) = r.stop :=
              u64_of_lt (by unfold Reservation.stop at hin; omega)
            exact le_of_eq hu.symm
  exact hall.2 i r hpub

/-- A reservation that is held stays held until it is published. -/
theorem held_or_publishes {ok : State → List Event → Label → Prop}
    (hheld : (s.procs i).reservation? = some r) (h : ((machine cap).startingAt s).Run ok s' es) :
    Publishes es i r ∨ (s'.procs i).reservation? = some r := by
  refine h.invariant (fun s' es => Publishes es i r ∨ (s'.procs i).reservation? = some r)
    (Or.inr hheld) ?_
  rintro s₁ es l s₂ e - (hpub | hr) hs
  · exact Or.inl (hpub.mono (List.subset_append_left _ _))
  · cases l with
    | advance head =>
      obtain ⟨-, -, rfl, -⟩ := step_advance cap hs
      exact Or.inr hr
    | producer j l =>
      obtain ⟨eff, pc, pe, hstep, rfl, rfl⟩ := step_producer hs
      by_cases hij : i = j
      · subst hij
        rcases PushPc.reservation_step hr hstep with ⟨n, rfl⟩ | hkept
        · exact Or.inl ⟨eff, n, by simp⟩
        · right
          simpa using hkept
      · right
        simpa [Function.update_of_ne hij] using hr

/-- The steps of producer `i`. -/
def Event.isOf (i : ℕ) : Event → Bool
  | .producer j _ _ => j == i
  | .advanced _ => false

/-- A producer whose turn it is publishes within its remaining steps, whatever the others do. -/
theorem publishes_within (hrun : (machine cap).Reaches s tr)
    (hheld : (s.procs i).reservation? = some r) (hturn : r.start ≤ s.mem.control.tailPublish)
    (hnext : ((machine cap).startingAt s).Reaches s' es) (hbytes : reservedBytes (tr ++ es) < 2^64)
    (hsteps : (r.stores cap).length + 4 ≤ es.countP (Event.isOf i)) : Publishes es i r := by
  have hinv := inv_of_reaches hrun (by rw [reservedBytes_add] at hbytes; omega)
  have hwithin := hnext.within (fun es => reservedBytes (tr ++ es) < 2^64) ?_ (Event.isOf i)
    (fun s => (s.procs i).stepsLeft)
    (fun s es => Inv cap s (tr ++ es) ∧ (s.procs i).reservation? = some r ∧
      r.start ≤ s.mem.control.tailPublish)
    (fun _ es => Publishes es i r) ?_ ?_ ?_ hbytes
  · -- Without a publication there would be more steps than there were left.
    rcases hwithin with hpub | ⟨⟨-, hr, -⟩, hle⟩
    · exact hpub
    · obtain ⟨pending, hw⟩ := hinv.writer
      have hpos := PushPc.stepsLeft_pos hr
      have hleft : (s.procs i).stepsLeft ≤ _ := PushPc.stepsLeft_le (hw.ok i) hheld
      change _ ≤ (s.procs i).stepsLeft at hle
      omega
  · intro es e hb
    rw [← List.append_assoc, reservedBytes_append] at hb
    omega
  · rw [List.append_nil]
    exact ⟨hinv, hheld, hturn⟩
  · intro s₁ es l s₂ e _ _ hpub _
    exact hpub.mono (List.subset_append_left _ _)
  · rintro s₁ es l s₂ e - hb ⟨hinv₁, hr, hstart⟩ hs
    rw [← List.append_assoc] at hb ⊢
    have hstart₂ := le_trans hstart (tailPublish_le hinv₁ hs)
    have hinv₂ := hinv₁.step hs hb
    cases l with
    | advance head =>
      obtain ⟨-, -, rfl, rfl⟩ := step_advance cap hs
      exact Or.inr ⟨⟨hinv₂, hr, hstart₂⟩, le_rfl⟩
    | producer j l =>
      obtain ⟨eff, pc, pe, hstep, rfl, rfl⟩ := step_producer hs
      by_cases hij : i = j
      · subst hij
        -- The reservation is pending, so `tail_publish` is not past its start either.
        obtain ⟨pending, hw⟩ := hinv₁.writer
        have hwin := hw.chain.mem ((hw.ok i).mem hr)
        rcases PushPc.reservation_step hr hstep with ⟨n, rfl⟩ | hkept
        · exact Or.inl ⟨eff, n, by simp⟩
        · rcases PushPc.stepsLeft_step hr (by omega) hstep with ⟨n, rfl⟩ | hless
          · exact Or.inl ⟨eff, n, by simp⟩
          · refine Or.inr ⟨⟨hinv₂, by simpa using hkept, hstart₂⟩, ?_⟩
            simpa [Event.isOf] using hless
      · refine Or.inr ⟨⟨hinv₂, by simpa [Function.update_of_ne hij] using hr, hstart₂⟩, ?_⟩
        simp [Function.update_of_ne hij, Event.isOf, Ne.symm hij]

/-! ## Reservations are served in their order -/

/-- The producers with a reservation take turns: when one has published, `tail_publish` is where the
next reservation starts. -/
def turnTaking (cap : ℕ) :
    Machine.TurnTaking (machine cap) (fun _ _ _ => True) (fun tr => reservedBytes tr < 2^64)
      (ℕ × Reservation) where
  waits := fun p s tr => Publishes tr p.1 p.2 ∨ (s.procs p.1).reservation? = some p.2
  served := fun p _ tr => Publishes tr p.1 p.2
  turn := fun p s _ => p.2.start ≤ s.mem.control.tailPublish
  enough := fun p es => (p.2.stores cap).length + 4 ≤ es.countP (Event.isOf p.1)
  next := fun p p' => p'.2.start = p.2.stop
  bound := by
    intro tr es hb
    rw [reservedBytes_add] at hb
    omega
  waits_onward := by
    rintro p s tr s' es - hnext - (hpub | hheld)
    · exact Or.inl (hpub.mono (List.subset_append_left _ _))
    · rcases held_or_publishes hheld hnext with hpub | hstill
      · exact Or.inl (hpub.mono (List.subset_append_right _ _))
      · exact Or.inr hstill
  served_onward := fun _ _ _ _ _ _ _ _ hpub => hpub.mono (List.subset_append_left _ _)
  serve := by
    rintro p s tr s' es hrun hnext hbytes (hpub | hheld) hturn hsteps
    · exact hpub.mono (List.subset_append_left _ _)
    · exact (publishes_within hrun hheld hturn hnext hbytes hsteps).mono
        (List.subset_append_right _ _)
  turn_of_served := by
    intro p p' s tr hrun hbytes hnext hpub
    rw [hnext]
    exact stop_le_of_publishes hrun hbytes hpub

/-- Reservations that stand one behind the other are in the order of their turns. -/
theorem order_of_chain {holders : List (ℕ × Reservation)} {a b : ℕ}
    (h : Chain a (holders.map Prod.snd) b) :
    holders.IsChain (turnTaking cap).next ∧ ∀ p ∈ holders.head?, p.2.start = a := by
  induction holders generalizing a with
  | nil => exact ⟨.nil, by simp⟩
  | cons p holders ih =>
    obtain ⟨horder, hfirst⟩ := ih h.2
    refine ⟨List.isChain_cons.mpr ⟨hfirst, horder⟩, ?_⟩
    rintro p' ⟨⟩
    exact h.1

/-- Pushes get their turns in the order of their reservations. In every state that a run reaches
that reserves fewer than `2^64` bytes, the reservations between `tail_publish` and `tail_reserve`
are held by producers, one each. If the producers of the first ones take, one after the other, as
many steps as their stores and four more, then their reservations are published, however many steps
of the others, of new calls and of the consumers come in between, as long as fewer than `2^64` bytes
are reserved in all. So the first in turn always returns after its own steps, and nobody waits for a
producer behind it. -/
theorem turns_come (hrun : (machine cap).Reaches s tr) (hbytes : reservedBytes tr < 2^64) :
    (∃ holders : List (ℕ × Reservation),
      Chain s.mem.control.tailPublish (holders.map Prod.snd) s.mem.control.tailReserve ∧
      ∀ i r, (s.procs i).reservation? = some r ↔ (i, r) ∈ holders) ∧
    ∀ (holders : List (ℕ × Reservation)) (b : ℕ) (turns : List (List Event)) (s' : State),
      Chain s.mem.control.tailPublish (holders.map Prod.snd) b →
      (∀ p ∈ holders, (s.procs p.1).reservation? = some p.2) →
      ((machine cap).startingAt s).Reaches s' turns.flatten →
      reservedBytes (tr ++ turns.flatten) < 2^64 →
      List.Forall₂ (fun p es => (p.2.stores cap).length + 4 ≤ es.countP (Event.isOf p.1))
      holders turns →
      ∀ p ∈ holders, ∃ eff n, Event.producer p.1 eff (.published p.2 n) ∈ turns.flatten := by
  constructor
  · obtain ⟨pending, hw, hheld⟩ := held_of_reaches hrun hbytes
    choose! holder hholder using hheld
    have hmap : (pending.map fun r => (holder r, r)).map Prod.snd = pending := by
      rw [List.map_map]
      exact List.map_id pending
    refine ⟨pending.map fun r => (holder r, r), by rw [hmap]; exact hw.chain, ?_⟩
    intro i r
    simp only [List.mem_map, Prod.mk.injEq]
    constructor
    · -- No two producers hold the same reservation.
      intro hr
      have hin := (hw.ok i).mem hr
      exact ⟨r, hin, hw.distinct _ _ r r (hholder r hin) hr rfl, rfl⟩
    · rintro ⟨r', hin, rfl, rfl⟩
      exact hholder r' hin
  · intro holders b turns s' hchain hheld hnext hlt hturns p hp
    obtain ⟨horder, hfirst⟩ := order_of_chain hchain
    obtain ⟨eff, n, hin⟩ := (turnTaking cap).all_served hrun horder
      (fun p hp => le_of_eq (hfirst p hp)) (fun p hp => Or.inr (hheld p hp)) hnext hlt hturns p hp
    rcases List.mem_append.mp hin with hin | hin
    · -- What is held has not been published before.
      obtain ⟨pending, hw, -⟩ := held_of_reaches hrun hbytes
      have hwin := hw.chain.mem ((hw.ok p.1).mem (hheld p hp))
      have hstop := stop_le_of_publishes hrun hbytes ⟨eff, n, hin⟩
      have hpos := Reservation.Placed.total_pos p.2
      unfold Reservation.stop at hstop
      omega
    · exact ⟨eff, n, hin⟩

/-- The two producers of `twoReservations` finish, one after the other. The second one, which has
made a store already, calls again. -/
def twoTurns : List Label :=
  List.replicate 11 (.producer 0 .run) ++ List.replicate 10 (.producer 1 .run) ++
    [.producer 1 (.call (.ofBytes (some [1, 2, 3]) 7))]

/-- Two producers hold reservations, and the steps `es` give each of them its turn. -/
def TwoTurns (s : State) (tr es : List Event) (r r' : Reservation) : Prop :=
  (s.procs 0).reservation? = some r ∧ (s.procs 1).reservation? = some r' ∧
    r.start = s.mem.control.tailPublish ∧ r'.start = r.stop ∧ reservedBytes (tr ++ es) < 2^64 ∧
    (r.stores 64).length + 4 ≤ (es.take 11).countP (Event.isOf 0) ∧
    (r'.stores 64).length + 4 ≤ (es.drop 11).countP (Event.isOf 1)

/-- The test of the schedule `twoTurns` behind a run. -/
def twoTurnsTest (s : State) (tr : List Event) : Bool :=
  match (s.procs 0).reservation?, (s.procs 1).reservation? with
  | some r, some r' =>
    ((machine 64).exec (fun _ _ _ => true) s [] twoTurns).any fun x =>
      decide (r.start = s.mem.control.tailPublish ∧ r'.start = r.stop ∧
        reservedBytes (tr ++ x.2) < 2^64 ∧
        (r.stores 64).length + 4 ≤ (x.2.take 11).countP (Event.isOf 0) ∧
        (r'.stores 64).length + 4 ≤ (x.2.drop 11).countP (Event.isOf 1))
  | _, _ => false

/-- A run that passes the test has the two turns. -/
theorem twoTurns_of_test {s : State} {tr : List Event} (h : twoTurnsTest s tr = true) :
    ∃ s' es r r', ((machine 64).startingAt s).Reaches s' es ∧ TwoTurns s tr es r r' := by
  unfold twoTurnsTest at h
  split at h
  · rename_i r r' hr hr'
    obtain ⟨⟨s', es⟩, hex, htest⟩ := (Option.any_eq_true _ _).mp h
    have hrun : ((machine 64).startingAt s).Reaches s' es :=
      Machine.Run.exec (g := fun _ _ _ => true) (fun _ _ _ _ => trivial) twoTurns .init hex
    exact ⟨s', es, r, r', hrun, hr, hr', of_decide_eq_true htest⟩
  · cases h

/-- Both of them have then published. -/
theorem turns_come_twoTurns : ∃ s tr es r r', (machine 64).Reaches s tr ∧ TwoTurns s tr es r r' ∧
    (∃ eff n, Event.producer 0 eff (.published r n) ∈ es) ∧
    ∃ eff n, Event.producer 1 eff (.published r' n) ∈ es := by
  obtain ⟨s, tr, hrun, htest⟩ := (machine 64).exists_reaches twoReservations twoTurnsTest
    (by decide +kernel)
  obtain ⟨s', es, r, r', hnext, htwo⟩ := twoTurns_of_test htest
  obtain ⟨hr, hr', hfirst, hsecond, hbytes, hsteps, hsteps'⟩ := htwo
  have hflat : [es.take 11, es.drop 11].flatten = es := by simp
  have hserved := (turns_come hrun (by rw [reservedBytes_add] at hbytes; omega)).2
    [(0, r), (1, r')] r'.stop [es.take 11, es.drop 11] s' ⟨hfirst, hsecond, rfl⟩ (by simp [hr, hr'])
    (by rwa [hflat]) (by rwa [hflat]) (.cons hsteps (.cons hsteps' .nil))
  rw [hflat] at hserved
  exact ⟨s, tr, es, r, r', hrun, ⟨hr, hr', hfirst, hsecond, hbytes, hsteps, hsteps'⟩,
    hserved (0, r) (by simp), hserved (1, r') (by simp)⟩

/-! ## A producer that stops -/

/-- The first producer of `twoReservations` stops. The second one makes its stores and waits, and a
third one finds no room. -/
def blockedSteps : List Label :=
  List.replicate 9 (.producer 1 .run) ++
    [.producer 2 (.call (.ofBytes (some [1, 2, 3]) 7)), .producer 2 .run, .producer 2 .run]

/-- Two producers hold reservations, the second behind the first, and the steps of `blockedSteps`
can be made. -/
def blockedTest (s : State) (tr : List Event) : Bool :=
  match (s.procs 0).reservation?, (s.procs 1).reservation? with
  | some r, some r' =>
    ((machine 64).exec (fun _ _ _ => true) s [] blockedSteps).any fun x =>
      decide (r.start ≤ r'.start ∧ reservedBytes (tr ++ x.2) < 2^64)
  | _, _ => false

/-- What an observer of one producer counts, from the beginning of the producer's last call on. -/
structure LoopCount where
  /-- The producer's steps in the loop. -/
  steps : ℕ
  /-- The reservations that others have won. -/
  reserved : ℕ
  /-- The spurious failures of the producer's compare-exchange. -/
  failed : ℕ
deriving DecidableEq

/-- A step of the producer itself, from its place `pc`. -/
def LoopCount.own (c : LoopCount) : PushPc → PushLabel → LoopCount
  | .idle, _ => ⟨0, 0, 0⟩
  | .loadHead _, _ => { c with steps := c.steps + 1 }
  | .loadTail _ _, _ => { c with steps := c.steps + 1 }
  | .cas _, .fail => ⟨c.steps + 1, c.reserved, c.failed + 1⟩
  | .cas _, _ => { c with steps := c.steps + 1 }
  | _, _ => c

/-- The step is a compare-exchange that wins. -/
def wins (m : Shared) : PushPc → PushLabel → Bool
  | .cas r, .run => m.control.tailReserve == r.start
  | _, _ => false

/-- The observer of producer `i`. -/
def watchLoop (i : ℕ) (s : State) (l : Label) (c : LoopCount) : LoopCount :=
  match l with
  | .producer j l =>
    if j = i then c.own (s.procs i) l
    else if wins s.mem (s.procs j) l then { c with reserved := c.reserved + 1 }
    else c
  | .advance _ => c

/-- The steps of the passes that had to be repeated. -/
def LoopCount.allowed (c : LoopCount) : ℕ := 3 * (c.reserved + c.failed)

/-- How many steps in the loop a producer can have taken when it is at `pc`. The tail that it has
loaded is out of date only if somebody has reserved since. -/
def LoopCount.Bounded (m : Shared) (c : LoopCount) : PushPc → Prop
  | .loadHead _ => c.steps ≤ c.allowed
  | .loadTail _ _ => c.steps ≤ c.allowed + 1
  | .cas r => c.steps ≤ c.allowed + 2 ∧ (m.control.tailReserve ≠ r.start → c.steps + 1 ≤ c.allowed)
  | _ => c.steps ≤ c.allowed + 3

namespace LoopCount.Bounded

variable {m m' : Shared} {c : LoopCount} {pc pc' : PushPc}

/-- Wherever the producer is, it has taken at most one pass more than those that were repeated. -/
theorem le (h : c.Bounded m pc) : c.steps ≤ c.allowed + 3 := by
  cases pc with
  | loadHead a => exact le_trans h (Nat.le_add_right _ _)
  | loadTail a head => exact le_trans h (Nat.add_le_add_left (by decide) _)
  | cas r => exact le_trans h.1 (Nat.add_le_add_left (by decide) _)
  | _ => exact h

/-- The producer's own steps keep the bound. -/
theorem own_step {l : PushLabel} {eff : Effect} {e : PushEvent} (h : c.Bounded m pc)
    (hs : pc.step cap m l = some (eff, pc', e)) : (c.own pc l).Bounded (eff.apply m) pc' := by
  cases PushPc.step_cases hs with
  | reject a => exact Nat.zero_le _
  | call a hrej => exact Nat.zero_le _
  | loadHead a => exact Nat.succ_le_succ h
  | full a head => exact le_trans (Nat.succ_le_succ h) (Nat.le_succ _)
  | room a head r hres =>
    refine ⟨Nat.succ_le_succ h, fun hne => ?_⟩
    exact absurd (reserve_start hres).2.symm hne
  | reserve r htail =>
    cases l with
    | run =>
      have hle : c.steps + 1 ≤ c.allowed + 3 := Nat.succ_le_succ h.1
      generalize r.stores cap = todo
      cases todo <;> exact hle
    | call a => cases hs
    | fail => cases hs
  | retry r =>
    cases l with
    | run =>
      -- The exchange has not failed spuriously, so the tail was out of date.
      simp only [PushPc.step] at hs
      split_ifs at hs with htail
      · cases hs
      · exact h.2 htail
    | fail =>
      show c.steps + 1 ≤ 3 * (c.reserved + (c.failed + 1))
      have hle : c.steps ≤ 3 * (c.reserved + c.failed) + 2 := h.1
      omega
    | call a => cases hs
  | store r st todo => cases todo <;> exact h
  | wait r => exact h
  | turn r hturn => exact h
  | fetch r => exact h
  | number r n => exact h
  | publish r n => exact h

/-- It holds when somebody else has reserved, and when `tail_reserve` has not changed. -/
theorem of_reserved (h : c.Bounded m pc) :
    LoopCount.Bounded m' { c with reserved := c.reserved + 1 } pc := by
  have hmore : LoopCount.allowed { c with reserved := c.reserved + 1 } = c.allowed + 3 := by
    show 3 * (c.reserved + 1 + c.failed) = 3 * (c.reserved + c.failed) + 3
    omega
  have hle := h.le
  rw [← hmore] at hle
  cases pc with
  | loadHead a => exact hle
  | loadTail a head => exact le_trans hle (Nat.le_add_right _ _)
  | cas r =>
    refine ⟨le_trans hle (Nat.le_add_right _ _), fun _ => ?_⟩
    rw [hmore]
    exact Nat.succ_le_succ h.1
  | _ => exact le_trans hle (Nat.le_add_right _ _)

/-- The bound depends on the memory only through `tail_reserve`. -/
theorem of_eq (h : c.Bounded m pc) (heq : m'.control.tailReserve = m.control.tailReserve) :
    c.Bounded m' pc := by
  cases pc with
  | cas r =>
    refine ⟨h.1, fun hne => h.2 ?_⟩
    rwa [← heq]
  | _ => exact h

end LoopCount.Bounded

/-- A step that does not win leaves `tail_reserve` alone. -/
theorem tailReserve_of_not_wins {m : Shared} {pc pc' : PushPc} {l : PushLabel} {eff : Effect}
    {e : PushEvent} (hs : pc.step cap m l = some (eff, pc', e)) (hnot : ¬ wins m pc l = true) :
    (eff.apply m).control.tailReserve = m.control.tailReserve := by
  cases PushPc.step_cases hs with
  | reserve r htail =>
    cases l with
    | run => exact absurd (by simpa [wins] using htail) hnot
    | call a => cases hs
    | fail => cases hs
  | _ => rfl

/-- The reservation is lock-free. For any number of producers, beside any consumer side and in every
interleaving: the steps that a call of `try_push` takes in the loop around its compare-exchange are
at most three, and three more for each reservation that another producer has won since the call
began and for each spurious failure. A call that keeps failing without spurious failures does so
because others succeed. -/
theorem loop_bounded {c : LoopCount}
    (hrun : ((machine cap).observe ⟨0, 0, 0⟩ (watchLoop i)).Reaches (s, c) tr) :
    c.steps ≤ 3 * (1 + c.reserved + c.failed) := by
  have hinv : c.Bounded s.mem (s.procs i) := by
    refine hrun.invariant (fun x _ => x.2.Bounded x.1.mem (x.1.procs i)) (Nat.zero_le _) ?_
    rintro ⟨s, c⟩ tr l ⟨s', c'⟩ e - hb hs
    obtain ⟨hs, rfl⟩ := Machine.observe_step hs
    cases l with
    | advance head =>
      obtain ⟨-, -, rfl, -⟩ := step_advance cap hs
      exact hb.of_eq rfl
    | producer j l =>
      obtain ⟨eff, pc, pe, hstep, rfl, -⟩ := step_producer hs
      unfold watchLoop
      by_cases hij : j = i
      · subst hij
        simp only [if_true, Function.update_self]
        exact hb.own_step hstep
      · simp only [if_neg hij, Function.update_of_ne (Ne.symm hij)]
        split_ifs with hwin
        · exact hb.of_reserved
        · exact hb.of_eq (tailReserve_of_not_wins hstep hwin)
  have hle := hinv.le
  unfold LoopCount.allowed at hle
  omega

/-- The second producer of `twoReservations` needs all of it: six steps, and one reservation of the
other. -/
theorem loop_bounded_twoReservations : ∃ s c tr,
    ((machine 64).observe ⟨0, 0, 0⟩ (watchLoop 1)).Reaches (s, c) tr ∧ c = ⟨6, 1, 0⟩ ∧
    c.steps ≤ 3 * (1 + c.reserved + c.failed) := by
  obtain ⟨⟨s, c⟩, tr, hrun, htest⟩ :=
    ((machine 64).observe ⟨0, 0, 0⟩ (watchLoop 1)).exists_reaches twoReservations
      (fun x _ => decide (x.2 = ⟨6, 1, 0⟩)) (by decide +kernel)
  exact ⟨s, c, tr, hrun, of_decide_eq_true htest, loop_bounded hrun⟩

end Producers

end LfRing

import LfRing.Library.Machine
import LfRing.Ring.History

/-!
# Producers beside any consumer side

The machine of any number of producers in `detail::try_push`, beside an environment that stands for
the consumers. All that is asked of the environment is that it moves `head_publish` forward and not
past `tail_publish`. It need not even stop at the boundaries of records.

`producers_safe` is what the producers then guarantee, as long as the reservation counter does not
wrap: the order of the counters, that reservations and the published part of the ring never share an
address, that producers write to their own reservations only, how `tail_publish` moves, and that a
call that returns false has written nothing.
-/

namespace LfRing.Producers

/-- The shared memory and the place of every producer. -/
structure State where
  /-- The shared memory. -/
  mem : Shared
  /-- Where each producer is in `try_push`. -/
  procs : ℕ → PushPc

/-- Who moves next. -/
inductive Label
  /-- A producer. -/
  | producer (i : ℕ) (l : PushLabel)
  /-- The environment, storing a new `head_publish`. -/
  | advance (head : ℕ)

/-- What a step reports. -/
inductive Event
  /-- A producer's step, with its effect on the shared memory. -/
  | producer (i : ℕ) (eff : Effect) (e : PushEvent)
  /-- The environment's step. -/
  | advanced (head : ℕ)

/-- One step of a producer or of the environment. -/
def step (cap : ℕ) (s : State) : Label → Option (State × Event)
  | .producer i l =>
    match (s.procs i).step cap s.mem l with
    | none => none
    | some (eff, pc, e) =>
      some (⟨eff.apply s.mem, Function.update s.procs i pc⟩, .producer i eff e)
  | .advance head =>
    if s.mem.control.headPublish ≤ head ∧ head ≤ s.mem.control.tailPublish then
      some ({ s with mem := (Effect.headPublish head).apply s.mem }, .advanced head)
    else none

/-- Producers and environment on a fresh ring of capacity `cap`. -/
def machine (cap : ℕ) : Machine State Label Event where
  init := ⟨Shared.fresh, fun _ => .idle⟩
  step := step cap

/-- The bytes that a step reserves. -/
def Event.bytes : Event → ℕ
  | .producer _ _ (.reserved r) => r.total
  | _ => 0

/-- The bytes reserved so far. -/
def reservedBytes (tr : List Event) : ℕ := (tr.map Event.bytes).sum

/-- The effects of the call that producer `i` is in, oldest first. -/
def callEffects (i : ℕ) (tr : List Event) : List Effect :=
  tr.foldl (fun log e => match e with
    | .producer j eff e =>
      if j = i then
        match e with
        | .called => [eff]
        | .refused => []
        | .published _ _ => []
        | _ => log ++ [eff]
      else log
    | .advanced _ => log) []

/-- The bytes reserved grow with every step. -/
theorem reservedBytes_append (tr : List Event) (e : Event) :
    reservedBytes (tr ++ [e]) = reservedBytes tr + e.bytes := by
  simp [reservedBytes]

/-- The steps of a producer, taken apart. -/
theorem step_producer {cap i : ℕ} {s s' : State} {l : PushLabel} {e : Event}
    (h : step cap s (.producer i l) = some (s', e)) :
    ∃ eff pc pe, (s.procs i).step cap s.mem l = some (eff, pc, pe) ∧
      s' = ⟨eff.apply s.mem, Function.update s.procs i pc⟩ ∧ e = .producer i eff pe := by
  simp only [step] at h
  split at h
  · cases h
  · rename_i eff pc pe hs
    cases h
    exact ⟨eff, pc, pe, hs, rfl, rfl⟩

/-- The invariant of a run: that of the producers, with the reservation counter counting the bytes
reserved, and with no effect yet of any call that holds no reservation. -/
structure Inv (cap : ℕ) (s : State) (tr : List Event) : Prop where
  /-- The invariant of the producers. -/
  writer : ∃ pending, WriterInv cap s.mem s.procs pending
  /-- The counter and the bytes reserved. -/
  bytes : s.mem.control.tailReserve = reservedBytes tr
  /-- Calls without a reservation have written nothing. -/
  clean : ∀ i, (s.procs i).reservation? = none → ∀ eff ∈ callEffects i tr, eff = .none

/-- The bytes that a producer's step reserves. -/
theorem Event.bytes_producer (i : ℕ) (eff : Effect) (e : PushEvent) :
    (Event.producer i eff e).bytes = LfRing.reservedBytes [e] := by
  cases e <;> simp [Event.bytes, LfRing.reservedBytes, reservations, PushEvent.reserved?]

/-- A producer that holds no reservation after a step has just published, or held none before and
has had no effect. -/
theorem effect_of_reservation_none {cap : ℕ} {m : Shared} {pc pc' : PushPc} {l : PushLabel}
    {eff : Effect} {e : PushEvent} (hs : pc.step cap m l = some (eff, pc', e))
    (hpc : pc'.reservation? = none) :
    (∃ r n, e = .published r n) ∨ (pc.reservation? = none ∧ eff = .none) := by
  cases PushPc.step_cases hs with
  | reserve r htail => simp at hpc
  | store r st todo => simp at hpc
  | wait r => cases hpc
  | turn r hturn => cases hpc
  | fetch r => cases hpc
  | number r n => cases hpc
  | publish r n => exact Or.inl ⟨r, n, rfl⟩
  | _ => exact Or.inr ⟨rfl, rfl⟩

/-- The calls of other producers go on as they were. -/
theorem callEffects_append (i : ℕ) (tr : List Event) (j : ℕ) (eff : Effect) (e : PushEvent) :
    callEffects i (tr ++ [.producer j eff e]) =
      if j = i then
        match e with
        | .called => [eff]
        | .refused => []
        | .published _ _ => []
        | _ => callEffects i tr ++ [eff]
      else callEffects i tr := by
  simp only [callEffects, List.foldl_append, List.foldl_cons, List.foldl_nil]

/-- Every step keeps the invariant, as long as the reservation counter does not wrap. -/
theorem Inv.step {cap : ℕ} {s s' : State} {tr : List Event} {l : Label} {e : Event}
    (h : Inv cap s tr) (hs : Producers.step cap s l = some (s', e))
    (hlt : reservedBytes (tr ++ [e]) < 2^64) : Inv cap s' (tr ++ [e]) := by
  obtain ⟨pending, hw⟩ := h.writer
  rw [reservedBytes_append, ← h.bytes] at hlt
  cases l with
  | advance head =>
    simp only [Producers.step] at hs
    split_ifs at hs with hhead
    cases hs
    refine ⟨⟨pending, hw.advance hhead.1 hhead.2 rfl rfl rfl⟩, ?_, ?_⟩
    · rw [reservedBytes_append]
      exact h.bytes
    · intro i hi
      simp only [callEffects, List.foldl_append, List.foldl_cons, List.foldl_nil]
      exact h.clean i hi
  | producer i l =>
    obtain ⟨eff, pc, pe, hstep, rfl, rfl⟩ := step_producer hs
    rw [Event.bytes_producer] at hlt
    obtain ⟨hbytes, hstop⟩ := WriterHistory.tailReserve_eq hstep hlt
    rw [← Event.bytes_producer i eff] at hbytes
    obtain ⟨pending', -, hw', -⟩ := hw.step hstep hstop
    refine ⟨⟨pending', hw'⟩, by rw [reservedBytes_append, ← h.bytes]; exact hbytes, ?_⟩
    intro j hj eff' heff'
    rw [callEffects_append] at heff'
    split_ifs at heff' with hij
    · subst hij
      simp only [Function.update_self] at hj
      rcases effect_of_reservation_none hstep hj with ⟨r, n, rfl⟩ | ⟨hold, rfl⟩
      · simp at heff'
      · have hclean := h.clean i hold
        cases pe <;> simp only [List.mem_append, List.mem_singleton, List.not_mem_nil] at heff'
        case called => exact heff'
        all_goals
          rcases heff' with hin | rfl
          · exact hclean _ hin
          · rfl
    · simp only [Function.update_of_ne (Ne.symm hij)] at hj
      exact h.clean j hj eff' heff'

/-- The invariant holds in every run that does not make the reservation counter wrap. -/
theorem inv_of_reaches {cap : ℕ} {s : State} {tr : List Event} (h : (machine cap).Reaches s tr)
    (hlt : reservedBytes tr < 2^64) : Inv cap s tr := by
  refine h.invariant_of (fun tr => reservedBytes tr < 2^64) ?_ (Inv cap) ?_ ?_ hlt
  · intro tr e hb
    rw [reservedBytes_append] at hb
    omega
  · exact ⟨⟨[], WriterInv.fresh cap⟩, rfl, by simp [callEffects]⟩
  · intro s tr l s' e _ hb hinv hs
    exact hinv.step hs hb

/-- The addresses of two ranges of positions do not meet. -/
def AddressDisjoint (cap a b a' b' : ℕ) : Prop :=
  ∀ v w, a ≤ v → v < b → a' ≤ w → w < b' → v % cap ≠ w % cap

/-- Separate ranges of positions in one window have separate addresses. -/
theorem addressDisjoint_of_window {cap h a b a' b' : ℕ} (ha : h ≤ a) (hb : b ≤ h + cap)
    (ha' : h ≤ a') (hb' : b' ≤ h + cap) (hdis : b ≤ a' ∨ b' ≤ a) :
    AddressDisjoint cap a b a' b' := by
  intro v w hv hv' hw hw' heq
  have := eq_of_mod_eq (h := h) (by omega) (by omega) (by omega) (by omega) heq
  omega

/-- A producer's store to the ring goes to its own reservation. -/
theorem ring_effect {cap i : ℕ} {m : Shared} {procs : ℕ → PushPc} {pending : List Reservation}
    (h : WriterInv cap m procs pending) {l : PushLabel} {pc' : PushPc} {e : PushEvent} {st : Store}
    (hs : (procs i).step cap m l = some (.ring st, pc', e)) :
    ∃ r, (procs i).reservation? = some r ∧ st.Covers cap r.start r.stop := by
  have hok := h.ok i
  generalize procs i = pc at hs hok
  cases PushPc.step_cases hs with
  | store r st todo =>
    exact ⟨r, rfl, (h.placed r hok.1).covers (hok.2.mem List.mem_cons_self)⟩
  | number r n => exact ⟨r, rfl, (h.placed r hok.1).sequenceStore_covers n⟩

/-- A producer's step leaves `tail_publish` alone, or moves it over the producer's own reservation,
whose chunks the ring then has. -/
theorem tailPublish_step {cap i : ℕ} {m : Shared} {procs : ℕ → PushPc}
    {pending : List Reservation} (h : WriterInv cap m procs pending) {l : PushLabel} {eff : Effect}
    {pc' : PushPc} {e : PushEvent} (hs : (procs i).step cap m l = some (eff, pc', e)) :
    (eff.apply m).control.tailPublish = m.control.tailPublish ∨
      ∃ r n, (procs i).reservation? = some r ∧ m.control.tailPublish = r.start ∧
        (eff.apply m).control.tailPublish = r.stop ∧
        Stream cap (eff.apply m).ring r.start (r.chunks n) r.stop := by
  have hok := h.ok i
  generalize procs i = pc at hs hok
  cases PushPc.step_cases hs with
  | publish r n =>
    have hin := h.chain.mem hok.1
    have hlt := h.reserve_lt
    refine Or.inr ⟨r, n, rfl, hok.2.2.symm, u64_of_lt ?_, hok.2.1⟩
    unfold Reservation.stop at hin
    omega
  | _ => exact Or.inl rfl

/-- A call that is refused has just had no effect, and held no reservation. -/
theorem refused_step {cap : ℕ} {m : Shared} {pc pc' : PushPc} {l : PushLabel} {eff : Effect}
    (hs : pc.step cap m l = some (eff, pc', .refused)) :
    eff = .none ∧ pc.reservation? = none := by
  cases PushPc.step_cases hs with
  | reject a => exact ⟨rfl, rfl⟩
  | full a head => exact ⟨rfl, rfl⟩

/-- The producers' guarantees beside any environment that only moves `head_publish` forward, up to
`tail_publish`, for every capacity, any number of producers and any interleaving of single accesses,
while fewer than `2^64` bytes are reserved. In every state reached:

* `head_publish ≤ tail_publish ≤ tail_reserve ≤ head_publish + capacity`;
* the reservations of distinct producers between their compare-exchange and their publication have
  no ring address in common, nor has any of them with the bytes from `head_publish` to
  `tail_publish`.

And for every step from such a state:

* a store to the ring covers positions of the reservation of the producer that makes it, and stays
  inside the ring;
* `tail_publish` stays, or moves from the start to the end of one reservation, whose bytes are then
  all in the ring;
* a call that returns false has had no effect on the shared memory. -/
theorem producers_safe {cap : ℕ} {s : State} {tr : List Event} (hrun : (machine cap).Reaches s tr)
    (hbytes : reservedBytes tr < 2^64) :
    (s.mem.control.headPublish ≤ s.mem.control.tailPublish ∧
      s.mem.control.tailPublish ≤ s.mem.control.tailReserve ∧
      s.mem.control.tailReserve ≤ s.mem.control.headPublish + cap) ∧
    (∀ i j r r', i ≠ j → (s.procs i).reservation? = some r → (s.procs j).reservation? = some r' →
      AddressDisjoint cap r.start r.stop r'.start r'.stop) ∧
    (∀ i r, (s.procs i).reservation? = some r → AddressDisjoint cap r.start r.stop
      s.mem.control.headPublish s.mem.control.tailPublish) ∧
    ∀ l s' e, (machine cap).step s l = some (s', e) →
      (∀ i st pe, e = .producer i (.ring st) pe →
        ∃ r, (s.procs i).reservation? = some r ∧ st.Covers cap r.start r.stop) ∧
      (s'.mem.control.tailPublish = s.mem.control.tailPublish ∨
        ∃ i r n, (s.procs i).reservation? = some r ∧ s.mem.control.tailPublish = r.start ∧
          s'.mem.control.tailPublish = r.stop ∧
          Stream cap s'.mem.ring r.start (r.chunks n) r.stop) ∧
      (∀ i eff, e = .producer i eff .refused →
        ∀ eff' ∈ callEffects i tr ++ [eff], eff' = .none) := by
  have hinv := inv_of_reaches hrun hbytes
  obtain ⟨pending, hw⟩ := hinv.writer
  have hle := hw.head_le
  refine ⟨⟨hle, hw.chain.le, hw.reserve_le⟩, ?_, ?_, ?_⟩
  · intro i j r r' hij hr hr'
    have hwin := hw.window ((hw.ok i).mem hr)
    have hwin' := hw.window ((hw.ok j).mem hr')
    have hdis := hw.chain.disjoint ((hw.ok i).mem hr) ((hw.ok j).mem hr')
      fun heq => hij (hw.distinct i j r r' hr hr' heq)
    exact addressDisjoint_of_window (h := s.mem.control.headPublish) (by omega) hwin.2 (by omega)
      hwin'.2 hdis
  · intro i r hr
    have hwin := hw.window ((hw.ok i).mem hr)
    have hchain := hw.chain.le
    have hres := hw.reserve_le
    exact addressDisjoint_of_window (h := s.mem.control.headPublish) (by omega) hwin.2 le_rfl
      (by omega) (Or.inr hwin.1)
  · intro l s' e hs
    cases l with
    | advance head =>
      simp only [machine, step] at hs
      split_ifs at hs
      cases hs
      exact ⟨by rintro _ _ _ ⟨⟩, Or.inl rfl, by rintro _ _ ⟨⟩⟩
    | producer i l =>
      obtain ⟨eff, pc, pe, hstep, rfl, rfl⟩ := step_producer hs
      refine ⟨?_, ?_, ?_⟩
      · rintro _ st _ ⟨⟩
        exact ring_effect hw hstep
      · rcases tailPublish_step hw hstep with h | ⟨r, n, h⟩
        · exact Or.inl h
        · exact Or.inr ⟨i, r, n, h⟩
      · rintro _ _ ⟨⟩ eff' heff'
        obtain ⟨rfl, hnone⟩ := refused_step hstep
        rcases List.mem_append.mp heff' with hin | hin
        · exact hinv.clean i hnone eff' hin
        · exact List.mem_singleton.mp hin

/-- A schedule in which two producers reserve, the second after a failed compare-exchange. -/
def twoReservations : List Label :=
  let a : PushArgs := .ofBytes (some [1, 2, 3]) 7
  [.producer 0 (.call a), .producer 1 (.call a), .producer 0 .run, .producer 1 .run,
    .producer 0 .run, .producer 1 .run, .producer 0 .run, .producer 1 .run, .producer 1 .run,
    .producer 1 .run, .producer 1 .run, .producer 1 .run]

/-- Two producers that hold reservations of a ring of 64 bytes at the same time. -/
theorem producers_safe_twoReservations : ∃ s tr r r', (machine 64).Reaches s tr ∧
    reservedBytes tr < 2^64 ∧ (s.procs 0).reservation? = some r ∧
    (s.procs 1).reservation? = some r' ∧
    AddressDisjoint 64 r.start r.stop r'.start r'.stop := by
  obtain ⟨s, tr, hrun, htest⟩ := (machine 64).exists_reaches twoReservations
    (fun s tr => decide (reservedBytes tr < 2^64) && (s.procs 0).reservation?.isSome &&
      (s.procs 1).reservation?.isSome) (by decide +kernel)
  simp only [Bool.and_eq_true, decide_eq_true_eq, Option.isSome_iff_exists] at htest
  obtain ⟨⟨hbytes, r, hr⟩, r', hr'⟩ := htest
  exact ⟨s, tr, r, r', hrun, hbytes, hr, hr',
    (producers_safe hrun hbytes).2.1 0 1 r r' (by decide) hr hr'⟩

end LfRing.Producers

import LfRing.Mapping
import LfRing.Ring.Calls

/-!
# A drained ring

Which records a ring accepts once everything pushed has been popped. A record does not cross the end
of the ring, so it needs room behind the tail, or it needs room from the start of the ring on
besides the filler that takes up the rest (`Room`). Where the tail stands when the ring is drained
depends on the sizes of all records before. So a record that is not larger than the ring may still
be refused, and as a refused push leaves the tail in place, it may be refused for good
(`refused_forever`).

`CallRing.Drains` is what a drained ring does, and `accepts_iff` is the result for all three rings:
a push into a drained ring is accepted exactly if there is room.
-/

namespace LfRing

/-! ## Runs of complete calls -/

/-- A call. -/
inductive Call
  /-- `try_push`. -/
  | push (a : PushArgs)
  /-- `try_pop`. -/
  | pop (c : PopCall)

/-- A call, with what it does not control. -/
structure CallLabel where
  /-- The call. -/
  call : Call
  /-- How it goes. -/
  choices : List Bool

/-- What a call has done. -/
inductive CallEvent
  /-- A push. -/
  | pushed (a : PushArgs) (out : PushResult)
  /-- A pop, with its result if it has returned true. -/
  | popped (c : PopCall) (res : Option Popped)

/-- One call. -/
def CallRing.step (R : CallRing) (m : Shared) (l : CallLabel) : Option (Shared × CallEvent) :=
  match l.call with
  | .push a => (R.push m a l.choices).map fun x => (x.1, .pushed a x.2)
  | .pop c => (R.pop m c l.choices).map fun x => (x.1, .popped c x.2)

/-- Calls on a ring, one behind the other. -/
def CallRing.machine (R : CallRing) (mapping : Mapping) : Machine Shared CallLabel CallEvent where
  init := mapping.shared
  step := R.step

/-- The bytes of the ring that a call has taken. -/
def CallEvent.bytes : CallEvent → ℕ
  | pushed _ out => out.bytes
  | popped _ _ => 0

/-- The bytes of the ring that all calls have taken. -/
def takenBytes (tr : List CallEvent) : ℕ := (tr.map CallEvent.bytes).sum

/-- A call's part in whether the ring is empty: a pop that returns false has found it so, and any
other call that returns true ends that. -/
def CallEvent.empties (before : Bool) : CallEvent → Bool
  | pushed _ out => before && !out.accepted
  | popped _ res => res.isNone

/-- The last `try_pop` has returned false, and no push has been accepted since. -/
def emptied (tr : List CallEvent) : Bool := tr.foldl CallEvent.empties false

/-- The bytes taken grow with every call. -/
theorem takenBytes_append (tr : List CallEvent) (e : CallEvent) :
    takenBytes (tr ++ [e]) = takenBytes tr + e.bytes := by
  simp [takenBytes]

/-- The last call decides. -/
theorem emptied_append (tr : List CallEvent) (e : CallEvent) :
    emptied (tr ++ [e]) = e.empties (emptied tr) := by
  simp [emptied]

/-- There is room for the record of `a`: behind the tail, or from the start of the ring on, when the
rest of the ring behind the tail is filled up. -/
def Room (cap : ℕ) (m : Shared) (a : PushArgs) : Prop :=
  let used := m.control.tailPublish - m.control.headPublish
  let remaining := cap - m.control.tailPublish % cap
  (a.recordSize ≤ remaining ∧ used + a.recordSize ≤ cap) ∨ used + remaining + a.recordSize ≤ cap

/-- The bytes that a push may take at most. -/
def pushBytes (cap : ℕ) (m : Shared) (a : PushArgs) : ℕ :=
  cap - m.control.tailPublish % cap + a.recordSize

/-- What a drained ring does, where `Holds` is what is in the ring between two calls. -/
structure CallRing.Drains (R : CallRing) (cap : ℕ) (Holds : Shared → ℕ → List Record → Prop)
    (Drained : Shared → Prop) : Prop where
  /-- A pop that returns false leaves the ring drained. -/
  pop : ∀ {m total q c choices m'}, Holds m total q →
    R.pop m c choices = some (m', none) → Drained m'
  /-- So does a push into a drained ring that is refused. -/
  refused : ∀ {m total q a choices m' out}, Holds m total q → Drained m →
    R.push m a choices = some (m', out) → total + out.bytes < 2^64 →
    out.accepted = false → Drained m'
  /-- A push is accepted if there is room, and only then. -/
  accepted_iff : ∀ {m total q a choices m' out}, Holds m total q → Drained m → ¬ a.rejected cap →
    total + pushBytes cap m a < 2^64 → R.push m a choices = some (m', out) →
    (out.accepted = true ↔ Room cap m a)
  /-- A push returns. -/
  returns : ∀ {m total q a}, Holds m total q → Drained m → ¬ a.rejected cap →
    total + pushBytes cap m a < 2^64 → ∃ choices m' out, R.push m a choices = some (m', out)

/-- A property of the memory that all calls keep may be added to what is in the ring. -/
theorem CallRing.Fifo.and {R : CallRing} {Holds : Shared → ℕ → List Record → Prop}
    (h : R.Fifo Holds) {J : Shared → Prop} (hfresh : J Shared.fresh)
    (hpush : ∀ {m a choices m' out}, J m → R.push m a choices = some (m', out) → J m')
    (hpop : ∀ {m total q c choices m' res}, Holds m total q → J m →
      R.pop m c choices = some (m', res) → J m') :
    R.Fifo fun m total q => Holds m total q ∧ J m where
  fresh := ⟨h.fresh, hfresh⟩
  push := by
    rintro m total q a choices m' out ⟨hq, hJ⟩ hs hlt
    rcases h.push hq hs hlt with ⟨hacc, n, hq'⟩ | ⟨hacc, hq'⟩
    · exact Or.inl ⟨hacc, n, hq', hpush hJ hs⟩
    · exact Or.inr ⟨hacc, hq', hpush hJ hs⟩
  pop := by
    rintro m total q c choices m' res ⟨hq, hJ⟩ hs
    rcases h.pop hq hs with ⟨hnone, hempty, hq'⟩ | ⟨r, q', p, hr, hp, hof, hq'⟩
    · exact Or.inl ⟨hnone, hempty, hq', hpop hq hJ hs⟩
    · exact Or.inr ⟨r, q', p, hr, hp, hof, hq', hpop hq hJ hs⟩
  pop_returns := fun hq c => h.pop_returns hq.1 c

section Runs

variable {R : CallRing} {cap : ℕ} {Holds : Shared → ℕ → List Record → Prop}
  {Drained : Shared → Prop}

/-- After every call the ring holds some records. -/
theorem CallRing.Fifo.step (hR : R.Fifo Holds) {m m' : Shared} {tr : List CallEvent} {l : CallLabel}
    {e : CallEvent} (h : ∃ q, Holds m (takenBytes tr) q) (hs : R.step m l = some (m', e))
    (hlt : takenBytes (tr ++ [e]) < 2^64) : ∃ q, Holds m' (takenBytes (tr ++ [e])) q := by
  obtain ⟨q, hq⟩ := h
  obtain ⟨call, choices⟩ := l
  rw [takenBytes_append] at hlt ⊢
  cases call with
  | push a =>
    obtain ⟨⟨m₁, out⟩, hpush, heq⟩ := Option.map_eq_some_iff.mp hs
    cases heq
    rcases hR.push hq hpush hlt with ⟨-, n, hq'⟩ | ⟨-, hq'⟩
    · exact ⟨_, hq'⟩
    · exact ⟨_, hq'⟩
  | pop c =>
    obtain ⟨⟨m₁, res⟩, hpop, heq⟩ := Option.map_eq_some_iff.mp hs
    cases heq
    rcases hR.pop hq hpop with ⟨-, -, hq'⟩ | ⟨r, q', p, -, -, -, hq'⟩
    · exact ⟨_, hq'⟩
    · exact ⟨_, hq'⟩

/-- Every call keeps what is in the ring, and whether it is drained. -/
theorem CallRing.Drains.step (hR : R.Fifo Holds) (hD : R.Drains cap Holds Drained) {m m' : Shared}
    {tr : List CallEvent} {l : CallLabel} {e : CallEvent}
    (h : (∃ q, Holds m (takenBytes tr) q) ∧ (emptied tr = true → Drained m))
    (hs : R.step m l = some (m', e)) (hlt : takenBytes (tr ++ [e]) < 2^64) :
    (∃ q, Holds m' (takenBytes (tr ++ [e])) q) ∧ (emptied (tr ++ [e]) = true → Drained m') := by
  obtain ⟨hholds, hdrained⟩ := h
  refine ⟨hR.step hholds hs hlt, ?_⟩
  obtain ⟨q, hq⟩ := hholds
  obtain ⟨call, choices⟩ := l
  rw [takenBytes_append] at hlt
  rw [emptied_append]
  intro hemp
  cases call with
  | push a =>
    obtain ⟨⟨m₁, out⟩, hpush, heq⟩ := Option.map_eq_some_iff.mp hs
    cases heq
    obtain ⟨hemp, hacc⟩ := (Bool.and_eq_true _ _).mp hemp
    exact hD.refused hq (hdrained hemp) hpush hlt (by simpa using hacc)
  | pop c =>
    obtain ⟨⟨m₁, res⟩, hpop, heq⟩ := Option.map_eq_some_iff.mp hs
    cases heq
    obtain rfl : res = none := Option.isNone_iff_eq_none.mp hemp
    exact hD.pop hq hpop

/-- What is in the ring, and whether it is drained, at the end of a run. -/
theorem CallRing.Drains.of_reaches (hR : R.Fifo Holds) (hD : R.Drains cap Holds Drained)
    {mapping : Mapping} (hfresh : mapping.shared = Shared.fresh) {m : Shared} {tr : List CallEvent}
    (h : (R.machine mapping).Reaches m tr) (hlt : takenBytes tr < 2^64) :
    (∃ q, Holds m (takenBytes tr) q) ∧ (emptied tr = true → Drained m) := by
  refine h.invariant_of (fun tr => takenBytes tr < 2^64) ?_
    (fun m tr => (∃ q, Holds m (takenBytes tr) q) ∧ (emptied tr = true → Drained m)) ?_ ?_ hlt
  · intro tr e hb
    rw [takenBytes_append] at hb
    omega
  · refine ⟨⟨[], ?_⟩, by rintro ⟨⟩⟩
    change Holds mapping.shared 0 []
    rw [hfresh]
    exact hR.fresh
  · intro m tr l m' e _ hb ih hs
    exact hD.step hR ih hs hb

end Runs

/-! ## `detail::try_push` without other producers -/

/-- Where a producer is that has begun its call on the memory `m₀`. Before its compare-exchange
nothing has changed. -/
def PushPc.Trying (cap : ℕ) (a : PushArgs) (m₀ m : Shared) : PushPc → Prop
  | idle => False
  | loadHead b => b = a ∧ m = m₀
  | loadTail b head => b = a ∧ m = m₀ ∧ head = m₀.control.headPublish
  | cas r => m = m₀ ∧
      LfRing.reserve cap a m₀.control.headPublish m₀.control.tailReserve = some r
  | pc => ∃ r, pc.reservation? = some r ∧ m.control.tailReserve = u64 (r.start + r.total) ∧
      LfRing.reserve cap a m₀.control.headPublish m₀.control.tailReserve = some r

/-- What a call has done that began on the memory `m₀`, when it returns. -/
def PushEvent.Ends (cap : ℕ) (a : PushArgs) (m₀ m : Shared) (e : PushEvent) : Prop :=
  (e.published? = [] ∧ m = m₀ ∧ (a.rejected cap = true ∨
      LfRing.reserve cap a m₀.control.headPublish m₀.control.tailReserve = none)) ∨
    (e.published? ≠ [] ∧ m.control.tailReserve = m.control.tailPublish ∧
      ∃ r, LfRing.reserve cap a m₀.control.headPublish m₀.control.tailReserve = some r)

namespace PushPc

variable {cap : ℕ} {a : PushArgs} {m₀ m : Shared} {pc pc' : PushPc} {l : PushLabel} {eff : Effect}
  {e : PushEvent}

/-- A producer that holds its reservation, whichever store is next. -/
theorem trying_of_reservation {r : Reservation} (hr : pc.reservation? = some r)
    (hres : m.control.tailReserve = u64 (r.start + r.total))
    (h : LfRing.reserve cap a m₀.control.headPublish m₀.control.tailReserve = some r) :
    pc.Trying cap a m₀ m := by
  cases pc with
  | idle => cases hr
  | loadHead _ => cases hr
  | loadTail _ _ => cases hr
  | cas _ => cases hr
  | _ => exact ⟨r, hr, hres, h⟩

/-- What a producer that holds its reservation knows. -/
theorem Trying.reserved {r : Reservation} (h : pc.Trying cap a m₀ m)
    (hr : pc.reservation? = some r) :
    m.control.tailReserve = u64 (r.start + r.total) ∧
      LfRing.reserve cap a m₀.control.headPublish m₀.control.tailReserve = some r := by
  have hex : ∃ r', pc.reservation? = some r' ∧ m.control.tailReserve = u64 (r'.start + r'.total) ∧
      LfRing.reserve cap a m₀.control.headPublish m₀.control.tailReserve = some r' := by
    cases pc with
    | idle => cases hr
    | loadHead _ => cases hr
    | loadTail _ _ => cases hr
    | cas _ => cases hr
    | _ => exact h
  obtain ⟨r', hr', hres, hsome⟩ := hex
  obtain rfl : r = r' := Option.some.inj (hr.symm.trans hr')
  exact ⟨hres, hsome⟩

/-- A step of a call that is not disturbed goes on with it, or ends it. -/
theorem Trying.step (h : pc.Trying cap a m₀ m) (hs : pc.step cap m l = some (eff, pc', e)) :
    (pc'.Trying cap a m₀ (eff.apply m) ∧ e.published? = []) ∨
      (pc' = .idle ∧ e.Ends cap a m₀ (eff.apply m)) := by
  -- A step behind the compare-exchange that leaves `tail_reserve` alone.
  have hon : ∀ r, pc.reservation? = some r → pc'.reservation? = some r →
      (eff.apply m).control.tailReserve = m.control.tailReserve →
      pc'.Trying cap a m₀ (eff.apply m) := by
    intro r hr hr' heq
    obtain ⟨hres, hsome⟩ := h.reserved hr
    exact trying_of_reservation hr' (heq.trans hres) hsome
  cases PushPc.step_cases hs with
  | reject b => exact h.elim
  | call b hrej => exact h.elim
  | loadHead b =>
    obtain ⟨rfl, rfl⟩ := h
    exact Or.inl ⟨⟨rfl, rfl, rfl⟩, rfl⟩
  | full b head =>
    obtain ⟨rfl, rfl, rfl⟩ := h
    cases l with
    | run =>
      cases hres : LfRing.reserve cap b m.control.headPublish m.control.tailReserve with
      | none => exact Or.inr ⟨rfl, Or.inl ⟨rfl, rfl, Or.inr hres⟩⟩
      | some r =>
        rw [PushPc.step, hres] at hs
        cases hs
    | _ => cases hs
  | room b head r hres =>
    obtain ⟨rfl, rfl, rfl⟩ := h
    exact Or.inl ⟨⟨rfl, hres⟩, rfl⟩
  | reserve r htail =>
    obtain ⟨rfl, hres⟩ := h
    exact Or.inl ⟨trying_of_reservation (reservation?_storing r _) rfl hres, rfl⟩
  | retry r =>
    obtain ⟨rfl, hres⟩ := h
    exact Or.inl ⟨⟨(reserve_start hres).1, rfl⟩, rfl⟩
  | store r st todo => exact Or.inl ⟨hon r rfl (reservation?_storing r _) rfl, rfl⟩
  | wait r => exact Or.inl ⟨hon r rfl rfl rfl, rfl⟩
  | turn r hturn => exact Or.inl ⟨hon r rfl rfl rfl, rfl⟩
  | fetch r => exact Or.inl ⟨hon r rfl rfl rfl, rfl⟩
  | number r n => exact Or.inl ⟨hon r rfl rfl rfl, rfl⟩
  | publish r n =>
    obtain ⟨hres, hsome⟩ := h.reserved rfl
    exact Or.inr ⟨rfl, Or.inr ⟨List.cons_ne_nil _ _, hres, r, hsome⟩⟩

end PushPc

/-- The outcome of a complete call of `detail::try_push`: it depends on what the space checks say of
the memory that it began on, and a call that is refused leaves that memory as it was. -/
theorem pushCall_outcome {cap : ℕ} {m m' : Shared} {a : PushArgs} {choices : List Bool}
    {out : PushResult} (h : pushCall cap m a choices = some (m', out)) :
    (out.accepted = false ∧ m' = m ∧ (a.rejected cap = true ∨
      reserve cap a m.control.headPublish m.control.tailReserve = none)) ∨
    (out.accepted = true ∧ m'.control.tailReserve = m'.control.tailPublish ∧
      ∃ r, reserve cap a m.control.headPublish m.control.tailReserve = some r) := by
  obtain ⟨⟨⟨m₁, pc⟩, es⟩, hcall, heq⟩ := Option.map_eq_some_iff.mp h
  obtain ⟨s₁, e, es', hfirst, rfl, hp, hidle⟩ := Machine.path_of_call hcall
  obtain ⟨rfl, rfl⟩ := Prod.mk.inj heq
  obtain ⟨eff, hstep, hmem⟩ := pushMachine_step hfirst
  -- Inside the call nothing has been published, and its last event says how it has ended.
  have hpath : (pc.Trying cap a m m₁ ∧ publications (e :: es') = []) ∨
      (pc = .idle ∧ ∃ es₁ e₁, e :: es' = es₁ ++ [e₁] ∧ publications es₁ = [] ∧
        e₁.Ends cap a m m₁) := by
    refine hp.invariant (fun s es => (s.2.Trying cap a m s.1 ∧ publications (e :: es) = []) ∨
      (s.2 = .idle ∧ ∃ es₁ e₁, e :: es = es₁ ++ [e₁] ∧ publications es₁ = [] ∧
        e₁.Ends cap a m s.1)) ?_ ?_
    · rintro s es l s' e' ⟨b, rfl⟩ ih hs
      obtain ⟨eff', hstep', hmem'⟩ := pushMachine_step hs
      rcases ih with ⟨htry, hpub⟩ | ⟨hpc, -⟩
      · rw [hmem', ← List.cons_append]
        rcases htry.step hstep' with ⟨htry', hpub'⟩ | ⟨hpc', hends⟩
        · refine Or.inl ⟨htry', ?_⟩
          rw [publications_append, hpub, List.nil_append, publications,
            List.flatMap_singleton, hpub']
        · exact Or.inr ⟨hpc', _, _, rfl, hpub, hends⟩
      · rw [hpc] at hstep'
        cases b <;> cases hstep'
    · rw [hmem]
      obtain ⟨m₂, pc₂⟩ := s₁
      rw [PushPc.step, PushPc.enter] at hstep
      split_ifs at hstep with hrej
      · cases hstep
        exact Or.inr ⟨rfl, [], _, rfl, rfl, Or.inl ⟨rfl, rfl, Or.inl hrej⟩⟩
      · cases hstep
        exact Or.inl ⟨⟨rfl, rfl⟩, rfl⟩
  rcases hpath with ⟨htry, -⟩ | ⟨-, es₁, e₁, hes, hpub, hends⟩
  · cases pc <;> first | exact htry.elim | cases hidle
  · have hall : publications (e :: es') = e₁.published? := by
      rw [hes, publications_append, hpub, List.nil_append, publications, List.flatMap_singleton]
    rw [hall]
    rcases hends with ⟨hnone, hmem', hwhy⟩ | ⟨hsome, htail, hres⟩
    · rw [hnone]
      exact Or.inl ⟨rfl, hmem', hwhy⟩
    · refine Or.inr ⟨?_, htail, hres⟩
      simpa using hsome

/-- A difference of a counter and itself. -/
theorem sub64_self (t : ℕ) : sub64 t t = 0 := by
  unfold sub64
  rw [Nat.add_sub_cancel_left]
  rfl

/-- With nothing in use, the space checks pass if the record fits behind the tail, or from the start
of the ring on besides the padding. -/
theorem reserve_self {cap : ℕ} {a : PushArgs} (ha : a.Accepted cap) (t : ℕ) :
    (∃ r, reserve cap a t t = some r) ↔
      a.recordSize ≤ cap - t % cap ∨ cap - t % cap + a.recordSize ≤ cap := by
  have hsize := a.le_recordSize
  have hmax : a.recordSize ≤ a.size + 23 := recordSize_le a.size_lt
  have hlt := a.size_lt
  have hcap := ha.recordSize_le
  unfold reserve place Reservation.total sizeofRecordHeader
  dsimp only
  rw [sub64_self, if_neg (Nat.not_lt_zero _), Nat.zero_add]
  -- One case for each of the three ways to place a record, with no sum near `2^64`.
  split_ifs with hshort hfull hwrap hfull hfull
  · rw [u64_of_lt (by dsimp only; omega)] at hfull
    dsimp only at hfull
    simp only [exists_false, false_iff]
    omega
  · rw [u64_of_lt (by dsimp only; omega)] at hfull
    dsimp only at hfull
    simp only [Option.some.injEq, exists_eq', true_iff]
    omega
  · rw [u64_of_lt (by dsimp only; omega)] at hfull
    dsimp only at hfull
    simp only [exists_false, false_iff]
    omega
  · rw [u64_of_lt (by dsimp only; omega)] at hfull
    dsimp only at hfull
    simp only [Option.some.injEq, exists_eq', true_iff]
    omega
  · rw [u64_of_lt (by dsimp only; omega)] at hfull
    dsimp only at hfull
    omega
  · simp only [Option.some.injEq, exists_eq', true_iff]
    omega

/-- A call of `detail::try_push` that is not disturbed returns, where no reservation is pending. -/
theorem pushCall_returns {cap : ℕ} {m : Shared} {a : PushArgs}
    (htail : m.control.tailReserve = m.control.tailPublish) (hrej : ¬ a.rejected cap) :
    ∃ choices m' out, pushCall cap m a choices = some (m', out) := by
  -- It is enough to come back to `idle` from the first load.
  suffices hback : ∃ es m', (pushMachine cap).Path (fun l => ∃ b, l = pushNext b)
      (m, .loadHead a) es (m', .idle) by
    obtain ⟨es, m', hp⟩ := hback
    have hstart : PushPc.step cap m .idle (.call a) = some (.none, .loadHead a, .called) := by
      rw [PushPc.step, PushPc.enter, if_neg hrej]
    obtain ⟨choices, hcall⟩ := Machine.exists_call (fun s => s.2.isIdle) (.call a)
      (pushMachine_of_step hstart) hp rfl
    exact ⟨choices, m', _, by rw [pushCall, hcall]; rfl⟩
  cases hres : reserve cap a m.control.headPublish m.control.tailReserve with
  | none =>
    have hhead : PushPc.step cap m (.loadHead a) .run =
        some (.none, .loadTail a m.control.headPublish, .internal) := rfl
    have hfull : PushPc.step cap m (.loadTail a m.control.headPublish) .run =
        some (.none, .idle, .refused) := by
      rw [PushPc.step, hres, PushPc.checked]
    exact ⟨_, m, (pushMachine_path hhead).trans (pushMachine_path hfull)⟩
  | some r =>
    obtain ⟨es, ring, hp, -⟩ := exists_path_push hres (htail.symm.trans (reserve_start hres).2.symm)
    exact ⟨es, _, hp⟩

/-! ## `SharedRingBuffer` and `SharedRingBufferMPMC` -/

/-- No reservation is pending. -/
def NonePending (m : Shared) : Prop := m.control.tailReserve = m.control.tailPublish

/-- The head has reached the tail. -/
def AtTail (m : Shared) : Prop := m.control.headPublish = m.control.tailPublish

/-- Between two calls no reservation is pending. -/
theorem NonePending.push {cap : ℕ} {m m' : Shared} {a : PushArgs} {choices : List Bool}
    {out : PushResult} (h : NonePending m) (hs : pushCall cap m a choices = some (m', out)) :
    NonePending m' := by
  rcases pushCall_outcome hs with ⟨-, rfl, -⟩ | ⟨-, htail, -⟩
  · exact h
  · exact htail

/-- The consumers do not change that. -/
theorem NonePending.pop {m m' : Shared} (h : NonePending m) (hv : ConsumerView m m') :
    NonePending m' := by
  unfold NonePending
  rw [hv.tailReserve_eq, hv.tailPublish_eq]
  exact h

/-- A push into a ring in which nothing is used is accepted if there is room, and only then. -/
theorem pushCall_accepted_iff {cap : ℕ} {m m' : Shared} {a : PushArgs} {choices : List Bool}
    {out : PushResult} (hnone : NonePending m) (hat : AtTail m) (hrej : ¬ a.rejected cap)
    (hs : pushCall cap m a choices = some (m', out)) : out.accepted = true ↔ Room cap m a := by
  have ha := PushArgs.accepted_of_not_rejected hrej
  have hroom := reserve_self ha m.control.tailPublish
  have hcap := ha.recordSize_le
  have hiff : Room cap m a ↔ ∃ r, reserve cap a m.control.headPublish m.control.tailReserve =
      some r := by
    rw [hat, hnone, hroom]
    unfold Room
    rw [hat]
    omega
  rw [hiff]
  rcases pushCall_outcome hs with ⟨hacc, -, hwhy⟩ | ⟨hacc, -, hres⟩
  · rcases hwhy with hwhy | hwhy
    · exact absurd hwhy hrej
    · rw [hacc, hwhy]
      simp
  · rw [hacc]
    exact iff_of_true rfl hres

/-- A refused push leaves the head where it is. -/
theorem AtTail.refused {cap : ℕ} {m m' : Shared} {a : PushArgs} {choices : List Bool}
    {out : PushResult} (h : AtTail m) (hs : pushCall cap m a choices = some (m', out))
    (hacc : out.accepted = false) : AtTail m' := by
  rcases pushCall_outcome hs with ⟨-, rfl, -⟩ | ⟨hacc', -⟩
  · exact h
  · rw [hacc] at hacc'
    cases hacc'

/-- `SharedRingBuffer`, with no reservation pending between two calls. -/
theorem Mpsc.calls_settled (cap : ℕ) :
    (calls cap).Fifo fun m total q => Holds cap m total q ∧ NonePending m := by
  refine (calls_fifo cap).and rfl NonePending.push ?_
  rintro m total q c choices m' res ⟨es, pending, ahead, hh, -, hs, -⟩ hnone h
  obtain ⟨-, hv, -⟩ := popCall_spec hs hh.tailPublish_lt h
  exact hnone.pop hv

/-- A drained `SharedRingBuffer`. -/
theorem Mpsc.calls_drains (cap : ℕ) :
    (calls cap).Drains cap (fun m total q => Holds cap m total q ∧ NonePending m) AtTail where
  pop := by
    rintro m total q c choices m' ⟨⟨es, pending, ahead, hh, -, hs, -⟩, -⟩ h
    obtain ⟨ahead', -, hs', ⟨-, -, rfl⟩ | ⟨r, p, -, hp, -⟩⟩ := popCall_spec hs hh.tailPublish_lt h
    · exact hs'
    · cases hp
  refused := fun _ hat hs _ hacc => hat.refused hs hacc
  accepted_iff := fun hq hat hrej _ hs => pushCall_accepted_iff hq.2 hat hrej hs
  returns := fun hq _ hrej _ => pushCall_returns hq.2 hrej

/-- `SharedRingBufferMPMC`, with no reservation pending between two calls. -/
theorem Mpmc.calls_settled (cap : ℕ) :
    (calls cap).Fifo fun m total q => Holds cap m total q ∧ NonePending m := by
  refine (calls_fifo cap).and rfl NonePending.push ?_
  rintro m total q c choices m' res ⟨⟨es, pending, ahead, hh, -, hs, -⟩, hres⟩ hnone h
  obtain ⟨-, hv, -⟩ := popCall_spec hs hh.tailPublish_lt hres h
  exact hnone.pop hv

/-- A drained `SharedRingBufferMPMC`. -/
theorem Mpmc.calls_drains (cap : ℕ) :
    (calls cap).Drains cap (fun m total q => Holds cap m total q ∧ NonePending m) AtTail where
  pop := by
    rintro m total q c choices m' ⟨⟨⟨es, pending, ahead, hh, -, hs, -⟩, hres⟩, -⟩ h
    obtain ⟨ahead', -, hs', -, ⟨-, -, rfl⟩ | ⟨r, p, -, hp, -⟩⟩ :=
      popCall_spec hs hh.tailPublish_lt hres h
    · exact hs'
    · cases hp
  refused := fun _ hat hs _ hacc => hat.refused hs hacc
  accepted_iff := fun hq hat hrej _ hs => pushCall_accepted_iff hq.2 hat hrej hs
  returns := fun hq _ hrej _ => pushCall_returns hq.2 hrej

/-! ## `SharedRingBufferSPSC` -/

namespace Spsc

/-- The tails at which a call may look, one pass after the other: behind each filler that it places,
with the bytes of the fillers. -/
inductive Tails (cap : ℕ) (a : PushArgs) (head tail₀ : ℕ) : ℕ → ℕ → Prop
  /-- The first pass. -/
  | first : Tails cap a head tail₀ tail₀ 0
  /-- Another pass behind a filler. -/
  | next {tail bytes : ℕ} {c : Chunk} (h : Tails cap a head tail₀ tail bytes)
    (hplace : place cap a head tail = some c) (hfiller : c.record? = none) :
    Tails cap a head tail₀ (u64 (tail + c.length)) (bytes + c.length)

/-- The pass at `tail` has decided to place `c`, or `c` is the record that it has decided to place,
with a number. -/
def Chosen (cap : ℕ) (a : PushArgs) (head tail : ℕ) (c : Chunk) : Prop :=
  (c.record? = none ∧ place cap a head tail = some c) ∨
    ((∃ n, c = .record (record a n)) ∧ place cap a head tail = some (.record (record a 0)))

/-- What a pass has decided to place is chosen. -/
theorem chosen_of_place {cap head tail : ℕ} {a : PushArgs} {c : Chunk}
    (h : place cap a head tail = some c) : Chosen cap a head tail c := by
  rcases kind_of_place h with rfl | ⟨hnone, -⟩
  · exact Or.inr ⟨⟨0, rfl⟩, h⟩
  · exact Or.inl ⟨hnone, h⟩

namespace PushPc

/-- Where the producer is in a pass at `tail_publish`, inside the call `a`. -/
def Trying (cap : ℕ) (a : PushArgs) (m : Shared) : PushPc → Prop
  | loadHead b => b = a
  | loadTail b head => b = a ∧ head = m.control.headPublish
  | store b tail c _ _ => b = a ∧ tail = m.control.tailPublish ∧
      place cap a m.control.headPublish m.control.tailPublish = some c
  | fetchSequence b tail => b = a ∧ tail = m.control.tailPublish ∧
      place cap a m.control.headPublish m.control.tailPublish = some (.record (record a 0))
  | storeSequence b tail _ _ _ => b = a ∧ tail = m.control.tailPublish ∧
      place cap a m.control.headPublish m.control.tailPublish = some (.record (record a 0))
  | reserve b tail c => b = a ∧ tail = m.control.tailPublish ∧
      Chosen cap a m.control.headPublish m.control.tailPublish c
  | publish b tail c => b = a ∧ tail = m.control.tailPublish ∧
      Chosen cap a m.control.headPublish m.control.tailPublish c
  | _ => False

variable {cap : ℕ} {a : PushArgs} {m : Shared}

/-- Whichever bytes are left of the chunk, the pass is the same. -/
theorem trying_storing {c : Chunk} (todo : List Store)
    (hplace : place cap a m.control.headPublish m.control.tailPublish = some c) :
    (storing a m.control.tailPublish c todo).Trying cap a m ∧
      (storing a m.control.tailPublish c todo).underway = c.length := by
  have hkind := kind_of_place hplace
  refine ⟨?_, underway_storing todo (hkind.imp_right And.left)⟩
  cases todo with
  | cons st todo => exact ⟨rfl, rfl, hplace⟩
  | nil =>
    rcases hkind with rfl | ⟨hnone, -⟩
    · exact ⟨rfl, rfl, hplace⟩
    · cases c with
      | record r => cases hnone
      | _ => exact ⟨rfl, rfl, chosen_of_place hplace⟩

/-- Whichever bytes are left of the sequence number, the pass is the same. -/
theorem trying_numbering (n : ℕ) (todo : List Store)
    (h : place cap a m.control.headPublish m.control.tailPublish = some (.record (record a 0))) :
    (numbering a m.control.tailPublish n todo).Trying cap a m := by
  cases todo with
  | cons st todo => exact ⟨rfl, rfl, h⟩
  | nil => exact ⟨rfl, rfl, Or.inr ⟨⟨n, rfl⟩, h⟩⟩

end PushPc

/-- The step from `m` to `m'` has ended a pass that has placed `bytes`: the call goes on behind a
filler, or it has returned. -/
inductive PassEnd (cap : ℕ) (a : PushArgs) (m m' : Shared) : ℕ → PushPc → PushEvent → Prop
  /-- Another pass begins. -/
  | again {c : Chunk} {e : PushEvent}
    (hplace : place cap a m.control.headPublish m.control.tailPublish = some c)
    (hfiller : c.record? = none)
    (htail : m'.control.tailPublish = u64 (m.control.tailPublish + c.length))
    (hnone : e.committed? = []) : PassEnd cap a m m' c.length (.loadHead a) e
  /-- The call has returned false. -/
  | full {e : PushEvent} (hplace : place cap a m.control.headPublish m.control.tailPublish = none)
    (htail : m'.control.tailPublish = m.control.tailPublish) (hnone : e.committed? = []) :
    PassEnd cap a m m' 0 .idle e
  /-- The call has returned true. -/
  | done {n : ℕ} {e : PushEvent}
    (hplace : place cap a m.control.headPublish m.control.tailPublish = some (.record (record a 0)))
    (hsome : e.committed? ≠ []) : PassEnd cap a m m' n .idle e

/-- A step of a call that is not disturbed goes on with the pass, or ends it. -/
theorem PushPc.Trying.step {cap : ℕ} {a : PushArgs} {m : Shared} {pc pc' : PushPc} {eff : Effect}
    {e : PushEvent} (h : pc.Trying cap a m) (hs : pc.step cap m .run = some (eff, pc', e)) :
    (eff.apply m).control.headPublish = m.control.headPublish ∧
      ((pc'.Trying cap a (eff.apply m) ∧ e.committed? = [] ∧
          (eff.apply m).control.tailPublish = m.control.tailPublish ∧
          pc'.underway = pc.underway + e.bytes) ∨
        PassEnd cap a m (eff.apply m) (pc.underway + e.bytes) pc' e) := by
  cases PushPc.step_cases hs with
  | crash pc => exact absurd rfl (ne_crashed hs)
  | claim => exact h.elim
  | claimLoad => exact h.elim
  | claimed tail => exact h.elim
  | reject b => exact h.elim
  | call b hrej => exact h.elim
  | loadHead b => exact ⟨rfl, Or.inl ⟨⟨h, rfl⟩, rfl, rfl, rfl⟩⟩
  | full b head =>
    obtain ⟨rfl, rfl⟩ := h
    cases hplace : place cap b m.control.headPublish m.control.tailPublish with
    | none => exact ⟨rfl, Or.inr (.full hplace rfl rfl)⟩
    | some c =>
      rw [PushPc.step, hplace, PushPc.decided] at hs
      have hevent := (Prod.mk.inj (Prod.mk.inj (Option.some.inj hs)).2).2
      cases hevent
  | room b head c hplace =>
    obtain ⟨rfl, rfl⟩ := h
    obtain ⟨htry, hunder⟩ := trying_storing (chunkStores cap m.control.tailPublish c) hplace
    refine ⟨rfl, Or.inl ⟨htry, rfl, rfl, ?_⟩⟩
    rw [hunder]
    exact (Nat.zero_add _).symm
  | store b tail c st todo =>
    obtain ⟨rfl, rfl, hplace⟩ := h
    obtain ⟨htry, hunder⟩ := trying_storing (m := (Effect.ring st).apply m) todo hplace
    exact ⟨rfl, Or.inl ⟨htry, rfl, rfl, hunder⟩⟩
  | fetch b tail =>
    obtain ⟨rfl, rfl, hplace⟩ := h
    refine ⟨rfl, Or.inl ⟨?_, rfl, rfl, underway_numbering _ _ _ _⟩⟩
    exact trying_numbering (m := (Effect.sequence (u64 (m.control.sequence + 1))).apply m) _ _
      hplace
  | number b tail n st todo =>
    obtain ⟨rfl, rfl, hplace⟩ := h
    exact ⟨rfl, Or.inl ⟨trying_numbering (m := (Effect.ring st).apply m) _ _ hplace, rfl, rfl,
      underway_numbering _ _ _ _⟩⟩
  | reserve b tail c => exact ⟨rfl, Or.inl ⟨h, rfl, rfl, rfl⟩⟩
  | publish b tail c =>
    obtain ⟨rfl, rfl, hc⟩ := h
    rcases hc with ⟨hnone, hplace⟩ | ⟨⟨n, rfl⟩, hplace⟩
    · cases c with
      | record r => cases hnone
      | _ => exact ⟨rfl, Or.inr (.again hplace rfl rfl rfl)⟩
    · exact ⟨rfl, Or.inr (.done hplace (List.cons_ne_nil _ _))⟩

/-- A call that began on the memory `m` has placed fillers of `bytes` bytes, and found no room at
the tail that it has come to, or it was rejected before its first pass. -/
def Refused (cap : ℕ) (a : PushArgs) (m m' : Shared) (bytes : ℕ) : Prop :=
  (a.rejected cap = true ∧ m'.control.tailPublish = m.control.tailPublish) ∨
    (¬ a.rejected cap ∧
      Tails cap a m.control.headPublish m.control.tailPublish m'.control.tailPublish bytes ∧
      place cap a m.control.headPublish m'.control.tailPublish = none)

/-- A call that began on the memory `m` has placed its record at a tail that it has come to. -/
def Done (cap : ℕ) (a : PushArgs) (m : Shared) : Prop :=
  ∃ tail bytes, Tails cap a m.control.headPublish m.control.tailPublish tail bytes ∧
    place cap a m.control.headPublish tail = some (.record (record a 0))

/-- A call in progress, or at its end, that began on the memory `m₀`. -/
structure Passing (cap : ℕ) (a : PushArgs) (m₀ m : Shared) (pc : PushPc) (es : List PushEvent) :
    Prop where
  /-- `head_publish` is the consumer's. -/
  headPublish_eq : m.control.headPublish = m₀.control.headPublish
  /-- Inside the call the passes have moved the tail over fillers. At its end it has been refused or
  not. -/
  state : (¬ a.rejected cap ∧ pc.Trying cap a m ∧ committedOf es = [] ∧
      ∃ bytes, placedOf es = bytes + pc.underway ∧
        Tails cap a m₀.control.headPublish m₀.control.tailPublish m.control.tailPublish bytes) ∨
    pc = .idle ∧ ((committedOf es = [] ∧ Refused cap a m₀ m (placedOf es)) ∨
      (committedOf es ≠ [] ∧ Done cap a m₀))

/-- Every step inside the call keeps what is known of it. -/
theorem Passing.step {cap : ℕ} {a : PushArgs} {m₀ m : Shared} {pc pc' : PushPc}
    {es : List PushEvent} {eff : Effect} {e : PushEvent} (h : Passing cap a m₀ m pc es)
    (hs : pc.step cap m .run = some (eff, pc', e)) :
    Passing cap a m₀ (eff.apply m) pc' (es ++ [e]) := by
  obtain ⟨hhead, ⟨hrej, htry, hnone, bytes, hbytes, htails⟩ | ⟨rfl, -⟩⟩ := h
  · obtain ⟨hhead', hend⟩ := htry.step hs
    have hcommitted : committedOf (es ++ [e]) = e.committed? := by
      rw [committedOf, List.flatMap_append, ← committedOf, hnone, List.nil_append,
        List.flatMap_singleton]
    have hplaced : placedOf (es ++ [e]) = bytes + (pc.underway + e.bytes) := by
      rw [← Nat.add_assoc, ← hbytes]
      simp [placedOf]
    refine ⟨hhead'.trans hhead, ?_⟩
    rw [hcommitted, hplaced]
    rcases hend with ⟨htry', hnone', htail, hunder⟩ | hend
    · refine Or.inl ⟨hrej, htry', hnone', bytes, by rw [hunder], ?_⟩
      rw [htail]
      exact htails
    · unfold Refused Done
      rw [← hhead] at htails ⊢
      generalize pc.underway + e.bytes = n at hend
      cases hend with
      | again hplace hfiller htail hnone' =>
        refine Or.inl ⟨hrej, rfl, hnone', _, rfl, ?_⟩
        rw [htail]
        exact htails.next hplace hfiller
      | full hplace htail hnone' =>
        refine Or.inr ⟨rfl, Or.inl ⟨hnone', Or.inr ?_⟩⟩
        rw [htail]
        exact ⟨hrej, htails, hplace⟩
      | done hplace hsome => exact Or.inr ⟨rfl, Or.inr ⟨hsome, _, _, htails, hplace⟩⟩
  · cases hs

/-- The outcome of a complete call of `try_push`, from the decisions of its passes. A call that is
refused has moved the tail over fillers at most. -/
theorem pushCall_outcome {cap : ℕ} {m m' : Shared} {a : PushArgs} {choices : List Bool}
    {out : PushResult} (h : pushCall cap m a choices = some (m', out)) :
    m'.control.headPublish = m.control.headPublish ∧
      ((out.accepted = false ∧ Refused cap a m m' out.bytes) ∨
        (out.accepted = true ∧ Done cap a m)) := by
  obtain ⟨⟨⟨m₁, pc⟩, es⟩, hcall, heq⟩ := Option.map_eq_some_iff.mp h
  obtain ⟨s₁, e, es', hfirst, rfl, hp, hidle⟩ := Machine.path_of_call hcall
  obtain ⟨rfl, rfl⟩ := Prod.mk.inj heq
  obtain ⟨eff, hstep, hmem⟩ := pushMachine_step hfirst
  have hpath : Passing cap a m m₁ pc (e :: es') := by
    refine hp.invariant (fun s es => Passing cap a m s.1 s.2 (e :: es)) ?_ ?_
    · rintro s es l s' e' ⟨-, rfl⟩ ih hs
      obtain ⟨eff', hstep', hmem'⟩ := pushMachine_step hs
      rw [hmem', ← List.cons_append]
      exact ih.step hstep'
    · rw [hmem]
      obtain ⟨m₂, pc₂⟩ := s₁
      rw [PushPc.step, PushPc.enter] at hstep
      split_ifs at hstep with hrej
      · cases hstep
        exact ⟨rfl, Or.inr ⟨rfl, Or.inl ⟨rfl, Or.inl ⟨hrej, rfl⟩⟩⟩⟩
      · cases hstep
        exact ⟨rfl, Or.inl ⟨hrej, rfl, rfl, 0, rfl, .first⟩⟩
  obtain ⟨hhead, ⟨-, htry, -⟩ | ⟨-, ⟨hnone, hwhy⟩ | ⟨hsome, hdone⟩⟩⟩ := hpath
  · cases pc <;> first | exact htry.elim | cases hidle
  · refine ⟨hhead, Or.inl ⟨?_, hwhy⟩⟩
    simp [hnone]
  · refine ⟨hhead, Or.inr ⟨?_, hdone⟩⟩
    simpa using hsome

/-- Everything has been popped: the head has reached the tail, or all that is left is a skip that a
refused push has placed at the end of the ring. -/
structure Drained (cap : ℕ) (m : Shared) : Prop where
  /-- The head is not ahead of the tail. -/
  le : m.control.headPublish ≤ m.control.tailPublish
  /-- There is a skip, or nothing. -/
  rest : m.control.headPublish = m.control.tailPublish ∨
    (m.control.tailPublish - m.control.headPublish < 16 ∧ m.control.tailPublish % cap = 0)

/-- The decisions of the passes of a push into a drained ring. -/
theorem place_drained {cap : ℕ} {m : Shared} {a : PushArgs} (hd : Drained cap m)
    (ha : a.Accepted cap)
    (hlt : m.control.tailPublish + (cap - m.control.tailPublish % cap) < 2^64) :
    (place cap a m.control.headPublish m.control.tailPublish = none ∧ ¬ Room cap m a) ∨
    (place cap a m.control.headPublish m.control.tailPublish = some (.record (record a 0)) ∧
      Room cap m a) ∨
    ∃ c, place cap a m.control.headPublish m.control.tailPublish = some c ∧ c.record? = none ∧
      c.length = cap - m.control.tailPublish % cap ∧
      m.control.headPublish = m.control.tailPublish ∧
      ((place cap a m.control.headPublish (m.control.tailPublish + c.length) = none ∧
          ¬ Room cap m a ∧ c.length < 16) ∨
        (place cap a m.control.headPublish (m.control.tailPublish + c.length) =
          some (.record (record a 0)) ∧ Room cap m a)) := by
  obtain ⟨hle, hrest⟩ := hd
  unfold Room
  dsimp only
  generalize m.control.headPublish = h at *
  generalize m.control.tailPublish = t at *
  have hsize := a.le_recordSize
  have hmax : a.recordSize ≤ a.size + 23 := recordSize_le a.size_lt
  have hmax' := a.size_lt
  have hcap := ha.recordSize_le
  have hmod : t % cap < cap := Nat.mod_lt _ (by omega)
  -- The second pass is at the start of the ring, with the filler in use.
  have hzero : (t + (cap - t % cap)) % cap = 0 := add_sub_mod_self (by omega)
  have hsecond : h = t → cap - t % cap < a.recordSize → place cap a h (t + (cap - t % cap)) =
      if cap < cap - t % cap + a.recordSize then none else some (.record (record a 0)) := by
    rintro rfl hshort
    unfold place sizeofRecordHeader
    dsimp only
    rw [hzero, sub64_of_le (Nat.le_add_right _ _) hlt, Nat.add_sub_cancel_left, Nat.sub_zero,
      if_neg (by omega), if_neg (by omega), if_neg (by omega), u64_of_lt (by omega)]
  have hfirst : place cap a h t = if cap - t % cap < 16 then some (.skip (cap - t % cap))
      else if cap - t % cap < a.recordSize then
        if cap < cap - t % cap + a.recordSize then none else some (.wrap (cap - t % cap))
      else if cap < t - h + a.recordSize then none else some (.record (record a 0)) := by
    unfold place sizeofRecordHeader
    dsimp only
    rw [sub64_of_le hle (by omega), if_neg (by omega)]
    split_ifs <;> first | rfl | (unfold u64 at *; omega)
  rw [hfirst]
  split_ifs with h1 h2 h3 h4
  · obtain rfl : h = t := by omega
    refine Or.inr (Or.inr ⟨_, rfl, rfl, rfl, rfl, ?_⟩)
    simp only [Chunk.length]
    rw [hsecond rfl (by omega)]
    split_ifs with h5
    · exact Or.inl ⟨rfl, by omega, h1⟩
    · exact Or.inr ⟨rfl, by omega⟩
  · exact Or.inl ⟨rfl, by omega⟩
  · obtain rfl : h = t := by omega
    refine Or.inr (Or.inr ⟨_, rfl, rfl, rfl, rfl, ?_⟩)
    simp only [Chunk.length]
    rw [hsecond rfl h2, if_neg h3]
    exact Or.inr ⟨rfl, by omega⟩
  · exact Or.inl ⟨rfl, by omega⟩
  · exact Or.inr (Or.inl ⟨rfl, by omega⟩)

section Tails

variable {cap head tail₀ tail bytes : ℕ} {a : PushArgs}

/-- A first pass that places no filler is the only one. -/
theorem Tails.eq_first (h : Tails cap a head tail₀ tail bytes)
    (hno : ∀ c, place cap a head tail₀ = some c → c.record? ≠ none) : tail = tail₀ := by
  induction h with
  | first => rfl
  | next _ hplace hfiller ih =>
    rw [ih] at hplace
    exact absurd hfiller (hno _ hplace)

/-- A second pass that places no filler is the last one. -/
theorem Tails.eq_second {c : Chunk} (h : Tails cap a head tail₀ tail bytes)
    (hc : place cap a head tail₀ = some c)
    (hno : ∀ c', place cap a head (u64 (tail₀ + c.length)) = some c' → c'.record? ≠ none) :
    tail = tail₀ ∨ tail = u64 (tail₀ + c.length) := by
  induction h with
  | first => exact Or.inl rfl
  | next _ hplace hfiller ih =>
    rcases ih with ih | ih
    · rw [ih, hc] at hplace
      cases hplace
      rw [ih]
      exact Or.inr rfl
    · rw [ih] at hplace
      exact absurd hfiller (hno _ hplace)

/-- The first filler takes the rest of the ring behind the tail. -/
theorem Tails.le_bytes (h : Tails cap a head tail₀ tail bytes) :
    tail = tail₀ ∨ cap - tail₀ % cap ≤ bytes := by
  induction h with
  | first => exact Or.inl rfl
  | next _ hplace hfiller ih =>
    refine Or.inr ?_
    rcases ih with rfl | ih
    · rcases kind_of_place hplace with rfl | ⟨-, hlen⟩
      · cases hfiller
      · omega
    · omega

end Tails

/-- Counters that have not moved are as drained as before. -/
theorem Drained.of_eq {cap : ℕ} {m m' : Shared} (hd : Drained cap m)
    (hhead : m'.control.headPublish = m.control.headPublish)
    (htail : m'.control.tailPublish = m.control.tailPublish) : Drained cap m' :=
  ⟨by rw [hhead, htail]; exact hd.le, by rw [hhead, htail]; exact hd.rest⟩

/-- What the passes of a push into a drained ring come to. -/
theorem passes_drained {cap : ℕ} {m : Shared} {a : PushArgs} (hd : Drained cap m)
    (hrej : ¬ a.rejected cap)
    (hlt : m.control.tailPublish + (cap - m.control.tailPublish % cap) < 2^64) :
    (Done cap a m → Room cap m a) ∧
      ∀ m' bytes, m'.control.headPublish = m.control.headPublish → Refused cap a m m' bytes →
        ¬ Room cap m a ∧ Drained cap m' := by
  have ha := PushArgs.accepted_of_not_rejected hrej
  have hsize := ha.recordSize_le
  have hmin := a.le_recordSize
  rcases place_drained hd ha hlt
    with ⟨hnone, hroom⟩ | ⟨hrec, hroom⟩ | ⟨c, hc, hfiller, hlen, heq, hnext⟩
  · have hno : ∀ c, place cap a m.control.headPublish m.control.tailPublish = some c →
        c.record? ≠ none := by
      rw [hnone]
      rintro c ⟨⟩
    refine ⟨?_, ?_⟩
    · rintro ⟨t, b, ht, hplace⟩
      rw [ht.eq_first hno, hnone] at hplace
      cases hplace
    · rintro m' b hhead (⟨hwhy, -⟩ | ⟨-, ht, -⟩)
      · exact absurd hwhy hrej
      · exact ⟨hroom, hd.of_eq hhead (ht.eq_first hno)⟩
  · have hno : ∀ c, place cap a m.control.headPublish m.control.tailPublish = some c →
        c.record? ≠ none := by
      rw [hrec]
      rintro c ⟨⟩ ⟨⟩
    refine ⟨fun _ => hroom, ?_⟩
    rintro m' b hhead (⟨hwhy, -⟩ | ⟨-, ht, hplace⟩)
    · exact absurd hwhy hrej
    · rw [ht.eq_first hno, hrec] at hplace
      cases hplace
  · have hu : u64 (m.control.tailPublish + c.length) = m.control.tailPublish + c.length := by
      rw [hlen]
      exact u64_of_lt hlt
    have hno : ∀ c', place cap a m.control.headPublish (u64 (m.control.tailPublish + c.length)) =
        some c' → c'.record? ≠ none := by
      rw [hu]
      rcases hnext with ⟨h2, -⟩ | ⟨h2, -⟩ <;> rw [h2]
      · rintro c' ⟨⟩
      · rintro c' ⟨⟩ ⟨⟩
    refine ⟨?_, ?_⟩
    · rintro ⟨t, b, ht, hplace⟩
      rcases ht.eq_second hc hno with rfl | rfl
      · rw [hc] at hplace
        cases hplace
        cases hfiller
      · rcases hnext with ⟨h2, -⟩ | ⟨-, hroom⟩
        · rw [hu, h2] at hplace
          cases hplace
        · exact hroom
    · rintro m' b hhead (⟨hwhy, -⟩ | ⟨-, ht, hplace⟩)
      · exact absurd hwhy hrej
      · rcases ht.eq_second hc hno with ht | ht
        · rw [ht, hc] at hplace
          cases hplace
        · rw [hu] at ht
          rcases hnext with ⟨-, hroom, hshort⟩ | ⟨h2, -⟩
          · -- The skip is all that is left of the ring behind the head.
            refine ⟨hroom, ?_, Or.inr ⟨?_, ?_⟩⟩
            · rw [hhead, ht, heq]
              exact Nat.le_add_right _ _
            · rw [hhead, ht, heq, Nat.add_sub_cancel_left]
              exact hshort
            · rw [ht, hlen, add_sub_mod_self (by omega)]
          · rw [ht, h2] at hplace
            cases hplace

section Returns

variable {cap : ℕ} {m : Shared} {a : PushArgs} {pc pc' : PushPc} {eff : Effect} {e : PushEvent}

/-- A step of the producer, as one of the machine. -/
theorem pushMachine_of_step {l : PushLabel} (hs : pc.step cap m l = some (eff, pc', e)) :
    (pushMachine cap).step (m, pc) l = some ((eff.apply m, pc'), e) := by
  simp only [pushMachine, hs, Option.map_some]

/-- A step that the producer takes when nobody disturbs it. -/
theorem pushMachine_path (hs : pc.step cap m .run = some (eff, pc', e)) :
    (pushMachine cap).Path (· = .run) (m, pc) [e] (eff.apply m, pc') :=
  .single .run rfl (pushMachine_of_step hs)

variable (cap) in
/-- The bytes that are left of a chunk are stored. -/
theorem exists_path_storing (tail : ℕ) (c : Chunk) (todo : List Store) :
    ∃ es m', (pushMachine cap).Path (· = .run) (m, .storing a tail c todo) es
      (m', .stored a tail c) ∧ m'.control = m.control := by
  induction todo generalizing m with
  | nil => exact ⟨[], m, .refl, rfl⟩
  | cons st todo ih =>
    obtain ⟨es, m', hp, hcontrol⟩ := ih (m := (Effect.ring st).apply m)
    exact ⟨_, m', (pushMachine_path rfl).trans hp, hcontrol⟩

variable (cap) in
/-- The bytes that are left of a sequence number are stored. -/
theorem exists_path_numbering (tail n : ℕ) (todo : List Store) :
    ∃ es m', (pushMachine cap).Path (· = .run) (m, .numbering a tail n todo) es
      (m', .reserve a tail (.record (record a n))) := by
  induction todo generalizing m with
  | nil => exact ⟨[], m, .refl⟩
  | cons st todo ih =>
    obtain ⟨es, m', hp⟩ := ih (m := (Effect.ring st).apply m)
    exact ⟨_, m', (pushMachine_path rfl).trans hp⟩

/-- The start of a pass. -/
theorem path_pass {c : Chunk}
    (hplace : place cap a m.control.headPublish m.control.tailPublish = some c) :
    ∃ es m', (pushMachine cap).Path (· = .run) (m, .loadHead a) es
      (m', .stored a m.control.tailPublish c) ∧ m'.control = m.control := by
  have hhead : PushPc.step cap m (.loadHead a) .run =
      some (.none, .loadTail a m.control.headPublish, .internal) := rfl
  have hroom : PushPc.step cap m (.loadTail a m.control.headPublish) .run = some (.none,
      .storing a m.control.tailPublish c (chunkStores cap m.control.tailPublish c), .placed c) := by
    rw [PushPc.step, hplace, PushPc.decided]
  obtain ⟨es, m', hp, hcontrol⟩ := exists_path_storing cap (a := a) (m := m) m.control.tailPublish c
    (chunkStores cap m.control.tailPublish c)
  exact ⟨_, m', ((pushMachine_path hhead).trans (pushMachine_path hroom)).trans hp, hcontrol⟩

/-- A pass that finds no room returns. -/
theorem path_full (hplace : place cap a m.control.headPublish m.control.tailPublish = none) :
    ∃ es m', (pushMachine cap).Path (· = .run) (m, .loadHead a) es (m', .idle) := by
  have hhead : PushPc.step cap m (.loadHead a) .run =
      some (.none, .loadTail a m.control.headPublish, .internal) := rfl
  have hfull : PushPc.step cap m (.loadTail a m.control.headPublish) .run =
      some (.none, .idle, .refused) := by
    rw [PushPc.step, hplace, PushPc.decided]
  exact ⟨_, m, (pushMachine_path hhead).trans (pushMachine_path hfull)⟩

/-- A pass that places the record returns. -/
theorem path_record (hplace : place cap a m.control.headPublish m.control.tailPublish =
      some (.record (record a 0))) :
    ∃ es m', (pushMachine cap).Path (· = .run) (m, .loadHead a) es (m', .idle) := by
  obtain ⟨es, m₁, hpass, -⟩ := path_pass hplace
  generalize m.control.tailPublish = t at hpass
  obtain ⟨n, hn⟩ : ∃ n, n = u64 (m₁.control.sequence + 1) := ⟨_, rfl⟩
  have hfetch : PushPc.step cap m₁ (.fetchSequence a t) .run =
      some (.sequence n, .numbering a t n (numberStores cap t n), .internal) := by
    rw [hn]
    rfl
  obtain ⟨es', m₂, hnum⟩ := exists_path_numbering cap (a := a)
    (m := (Effect.sequence n).apply m₁) t n (numberStores cap t n)
  have hreserve : ∀ m, PushPc.step cap m (.reserve a t (.record (record a n))) .run =
      some (.tailReserve (u64 (t + (Chunk.record (record a n)).length)),
        .publish a t (.record (record a n)), .internal) := fun _ => rfl
  have hpublish : ∀ m, PushPc.step cap m (.publish a t (.record (record a n))) .run =
      some (.tailPublish (u64 (t + (Chunk.record (record a n)).length)), .idle,
        .published (.record (record a n))) := fun _ => rfl
  exact ⟨_, _, (hpass.trans (pushMachine_path hfetch)).trans
    (hnum.trans ((pushMachine_path (hreserve _)).trans (pushMachine_path (hpublish _))))⟩

/-- A pass that places a filler is followed by another one. -/
theorem path_filler {c : Chunk}
    (hplace : place cap a m.control.headPublish m.control.tailPublish = some c)
    (hfiller : c.record? = none) :
    ∃ es m', (pushMachine cap).Path (· = .run) (m, .loadHead a) es (m', .loadHead a) ∧
      m'.control.headPublish = m.control.headPublish ∧
      m'.control.tailPublish = u64 (m.control.tailPublish + c.length) := by
  obtain ⟨es, m₁, hpass, hcontrol⟩ := path_pass hplace
  have hstored : PushPc.stored a m.control.tailPublish c = .reserve a m.control.tailPublish c := by
    cases c with
    | record r => cases hfiller
    | _ => rfl
  rw [hstored] at hpass
  have hpublish : ∀ m₂, PushPc.step cap m₂ (.publish a m.control.tailPublish c) .run =
      some (.tailPublish (u64 (m.control.tailPublish + c.length)), .loadHead a, .published c) := by
    intro m₂
    cases c with
    | record r => cases hfiller
    | _ => rfl
  refine ⟨_, _, hpass.trans ((pushMachine_path rfl).trans (pushMachine_path (hpublish _))), ?_, rfl⟩
  change m₁.control.headPublish = _
  rw [hcontrol]

/-- A call of `try_push` returns, after two passes at most. -/
theorem pushCall_returns (hrej : ¬ a.rejected cap)
    (hlt : m.control.tailPublish + (cap - m.control.tailPublish % cap) < 2^64) :
    ∃ choices m' out, pushCall cap m a choices = some (m', out) := by
  suffices hback : ∃ es m', (pushMachine cap).Path (· = .run) (m, .loadHead a) es (m', .idle) by
    obtain ⟨es, m', hp⟩ := hback
    have hstart : PushPc.step cap m .idle (.call a) = some (.none, .loadHead a, .internal) := by
      rw [PushPc.step, PushPc.enter, if_neg hrej]
    have hp' : (pushMachine cap).Path (fun l => ∃ b : Bool, l = (fun _ => .run) b)
        (m, .loadHead a) es (m', .idle) := hp.mono fun l hl => ⟨false, hl⟩
    obtain ⟨choices, hcall⟩ := Machine.exists_call (fun s => s.2.isIdle) (.call a)
      (pushMachine_of_step hstart) hp' rfl
    exact ⟨choices, m', _, by rw [pushCall, hcall]; rfl⟩
  have ha : a.Accepted cap := PushArgs.accepted_of_not_rejected hrej
  cases hplace : place cap a m.control.headPublish m.control.tailPublish with
  | none => exact path_full hplace
  | some c =>
    rcases kind_of_place hplace with rfl | ⟨hfiller, hlen⟩
    · exact path_record hplace
    · -- Behind the filler the second pass is at the start of the ring.
      obtain ⟨es, m₁, hfirst, -, htail⟩ := path_filler hplace hfiller
      have hzero : m₁.control.tailPublish % cap = 0 := by
        have hsize := a.le_recordSize
        have hcap := ha.recordSize_le
        rw [htail, hlen, u64_of_lt hlt]
        exact add_sub_mod_self (by omega)
      rcases place_at_start ha hzero with hnone | hrec
      · obtain ⟨es', m₂, hsecond⟩ := path_full hnone
        exact ⟨_, m₂, hfirst.trans hsecond⟩
      · obtain ⟨es', m₂, hsecond⟩ := path_record hrec
        exact ⟨_, m₂, hfirst.trans hsecond⟩

end Returns

/-- A drained `SharedRingBufferSPSC`. -/
theorem calls_drains (cap : ℕ) : (calls cap).Drains cap (Holds cap) (Drained cap) where
  pop := by
    rintro m total q c choices m' ⟨hinv, ahead, hs, -⟩ h
    have hlt : m.control.tailPublish < 2^64 := lt_of_le_of_lt hinv.bytes_le hinv.bytes_lt
    obtain ⟨ahead', -, hs', ⟨-, -, rfl⟩ | ⟨r, p, -, hp, -⟩⟩ := popCall_spec hs hlt h
    · have heq : m'.control.headPublish = m'.control.tailPublish := hs'
      exact ⟨le_of_eq heq, Or.inl heq⟩
    · cases hp
  refused := by
    rintro m total q a choices m' out ⟨hinv, -⟩ hd h hlt hacc
    have htail : m.control.tailPublish ≤ total := hinv.bytes_le
    obtain ⟨hhead, ⟨-, hwhy⟩ | ⟨hacc', -⟩⟩ := pushCall_outcome h
    · rcases hwhy with ⟨-, hsame⟩ | ⟨hrej, ht, hplace⟩
      · exact hd.of_eq hhead hsame
      · rcases ht.le_bytes with hsame | hle
        · exact hd.of_eq hhead hsame
        · -- The filler has been counted, so the tail behind it has not wrapped.
          exact ((passes_drained hd hrej (by omega)).2 m' _ hhead (Or.inr ⟨hrej, ht, hplace⟩)).2
    · rw [hacc] at hacc'
      cases hacc'
  accepted_iff := by
    rintro m total q a choices m' out ⟨hinv, -⟩ hd hrej hlt h
    have htail : m.control.tailPublish ≤ total := hinv.bytes_le
    unfold pushBytes at hlt
    obtain ⟨hdone, hrefused⟩ := passes_drained hd hrej (by omega)
    obtain ⟨hhead, ⟨hacc, hwhy⟩ | ⟨hacc, hyes⟩⟩ := pushCall_outcome h
    · rw [hacc]
      exact iff_of_false Bool.false_ne_true (hrefused m' _ hhead hwhy).1
    · rw [hacc]
      exact iff_of_true rfl (hdone hyes)
  returns := by
    rintro m total q a ⟨hinv, -⟩ hd hrej hlt
    have htail : m.control.tailPublish ≤ total := hinv.bytes_le
    unfold pushBytes at hlt
    exact pushCall_returns hrej (by omega)

end Spsc

/-! ## What a drained ring accepts -/

/-- The arguments pass the first checks. -/
theorem not_rejected {cap : ℕ} {a : PushArgs} (hdata : a.data = none → a.size = 0)
    (hsize : a.recordSize ≤ cap) : ¬ a.rejected cap := by
  simp only [PushArgs.rejected, Bool.or_eq_true, Bool.and_eq_true, Option.isNone_iff_eq_none,
    bne_iff_ne, ne_eq, decide_eq_true_eq, not_or, not_and, not_not, not_lt]
  exact ⟨hdata, hsize⟩

/-- A queue that drains accepts what there is room for. -/
theorem CallRing.Drains.accepts {R : CallRing} {Holds : Shared → ℕ → List Record → Prop}
    {Drained : Shared → Prop} {mapping : Mapping} (hD : R.Drains mapping.capacity Holds Drained)
    (hR : R.Fifo Holds) {m : Shared} {tr : List CallEvent} {a : PushArgs}
    (hfresh : mapping.shared = Shared.fresh) (hrun : (R.machine mapping).Reaches m tr)
    (hempty : emptied tr = true) (hrej : ¬ a.rejected mapping.capacity)
    (hlt : takenBytes tr + pushBytes mapping.capacity m a < 2^64) :
    (∃ choices m' out, R.push m a choices = some (m', out)) ∧
      ∀ choices m' out, R.push m a choices = some (m', out) →
        (out.accepted = true ↔ Room mapping.capacity m a) := by
  obtain ⟨⟨q, hq⟩, hdrained⟩ := hD.of_reaches hR hfresh hrun (by omega)
  have hd := hdrained hempty
  refine ⟨hD.returns hq hd hrej hlt, ?_⟩
  intro choices m' out hs
  exact hD.accepted_iff hq hd hrej hlt hs

/-- A drained ring accepts a record exactly if there is room for it behind the tail, or from the
start of the ring on besides the filler that takes up the rest. On every ring that `create` makes,
in every state that complete calls reach and in which the last `try_pop` has returned false and no
push has been accepted since, a push of a record that is not larger than the ring returns, and it
returns true exactly if there is room. -/
theorem accepts_iff (mode : RingMode) {capacityBytes : ℕ} {mapping : Mapping}
    (hcreate : createMapping capacityBytes mode.flags = .ok mapping) {m : Shared}
    {tr : List CallEvent} (hrun : ((mode.calls mapping.capacity).machine mapping).Reaches m tr)
    (hempty : emptied tr = true) (a : PushArgs) (hdata : a.data = none → a.size = 0)
    (hsize : a.recordSize ≤ mapping.capacity)
    (hlt : takenBytes tr + pushBytes mapping.capacity m a < 2^64) :
    (∃ choices m' out, (mode.calls mapping.capacity).push m a choices = some (m', out)) ∧
      ∀ choices m' out, (mode.calls mapping.capacity).push m a choices = some (m', out) →
        (out.accepted = true ↔ Room mapping.capacity m a) := by
  have hfresh := createMapping_shared hcreate
  have hrej := not_rejected hdata hsize
  cases mode with
  | mpsc => exact (Mpsc.calls_drains _).accepts (Mpsc.calls_settled _) hfresh hrun hempty hrej hlt
  | mpmc => exact (Mpmc.calls_drains _).accepts (Mpmc.calls_settled _) hfresh hrun hempty hrej hlt
  | spsc => exact (Spsc.calls_drains _).accepts (Spsc.calls_fifo _) hfresh hrun hempty hrej hlt

/-- A message of `n` zero bytes. -/
def zeros (n : ℕ) : PushArgs := .ofBytes (some (List.replicate n 0)) 0

/-- A message of eight bytes is pushed and popped, and the next pop returns false. The calls take
`push`, `pop` and two steps. -/
def drainOne (push pop : ℕ) : List CallLabel :=
  [⟨.push (zeros 8), List.replicate push false⟩,
    ⟨.pop ⟨[], false⟩, List.replicate pop false⟩, ⟨.pop ⟨[], false⟩, List.replicate 2 false⟩]

/-- In a drained ring of 64 bytes with the tail at 24, a message of 24 bytes is accepted. -/
theorem accepts_iff_behindTail : ∃ mapping m tr, createMapping 64 kFlagMPSC = .ok mapping ∧
    ((Mpsc.calls mapping.capacity).machine mapping).Reaches m tr ∧ emptied tr = true ∧
    m.control.tailPublish = 24 ∧
    ∃ choices m' out, (Mpsc.calls mapping.capacity).push m (zeros 24) choices =
      some (m', out) ∧ out.accepted = true := by
  obtain ⟨mapping, hmap⟩ : ∃ mapping, createMapping 64 kFlagMPSC = .ok mapping := ⟨_, rfl⟩
  obtain ⟨m, tr, hrun, htest⟩ := ((Mpsc.calls mapping.capacity).machine mapping).exists_reaches
    (drainOne 19 15) (fun m tr => emptied tr && decide (m.control.headPublish = 24) &&
      decide (m.control.tailPublish = 24) && decide (takenBytes tr = 24))
    (by cases hmap; decide +kernel)
  simp only [Bool.and_eq_true, decide_eq_true_eq] at htest
  obtain ⟨⟨⟨hempty, hhead⟩, htail⟩, htaken⟩ := htest
  have hcap : mapping.capacity = 64 := by cases hmap; rfl
  have hsize : (zeros 24).recordSize = 40 := recordSize_eq (by decide)
  obtain ⟨⟨choices, m', out, hpush⟩, hiff⟩ := accepts_iff .mpsc hmap hrun hempty
    (zeros 24) (by rintro ⟨⟩) (by rw [hsize, hcap]; decide)
    (by rw [pushBytes, hsize, hcap, htail, htaken]; decide)
  refine ⟨mapping, m, tr, hmap, hrun, hempty, htail, choices, m', out, hpush, ?_⟩
  refine (hiff choices m' out hpush).mpr ?_
  unfold Room
  rw [hhead, htail, hsize, hcap]
  decide

/-! ## A push that is refused for good -/

/-- From the memory `m` on, however often a caller pushes `a` and pops, no push is accepted. -/
def CallRing.RefusesForever (R : CallRing) (mapping : Mapping) (m : Shared) (a : PushArgs) : Prop :=
  ∀ es m', (R.machine mapping).Path (fun l => l.call = .push a ∨ ∃ c, l.call = .pop c) m es m' →
    ∀ out, .pushed a out ∈ es → out.accepted = false

/-- It is enough that every refusal and every pop keep what makes the push be refused. -/
theorem CallRing.refusesForever_of {R : CallRing} {mapping : Mapping} {m : Shared} {a : PushArgs}
    {J : Shared → Prop} (h : J m)
    (hpush : ∀ {m choices m' out}, J m → R.push m a choices = some (m', out) →
      out.accepted = false ∧ J m')
    (hpop : ∀ {m c choices m' res}, J m → R.pop m c choices = some (m', res) → J m') :
    R.RefusesForever mapping m a := by
  intro es m' hp
  refine (hp.invariant (fun m es => J m ∧ ∀ out, .pushed a out ∈ es → out.accepted = false) ?_
    ⟨h, by simp⟩).2
  rintro m es ⟨call, choices⟩ m' e hcall ⟨hJ, hall⟩ hs
  rcases hcall with rfl | ⟨c, rfl⟩
  · obtain ⟨⟨m₁, out⟩, hout, heq⟩ := Option.map_eq_some_iff.mp hs
    cases heq
    obtain ⟨hacc, hJ'⟩ := hpush hJ hout
    refine ⟨hJ', ?_⟩
    intro out' hin
    rcases List.mem_append.mp hin with hin | hin
    · exact hall out' hin
    · cases List.mem_singleton.mp hin
      exact hacc
  · obtain ⟨⟨m₁, res⟩, hres, heq⟩ := Option.map_eq_some_iff.mp hs
    cases heq
    refine ⟨hpop hJ hres, ?_⟩
    intro out' hin
    rcases List.mem_append.mp hin with hin | hin
    · exact hall out' hin
    · cases List.mem_singleton.mp hin

section Forever

variable {cap t : ℕ} {mapping : Mapping} {m m' : Shared} {a : PushArgs}

/-- Head and tail are at `t`. -/
def BothAt (t : ℕ) (m : Shared) : Prop := m.control.headPublish = t ∧ m.control.tailPublish = t

/-- A consumer that finds nothing leaves them there. -/
theorem BothAt.pop (h : BothAt t m) (hv : ConsumerView m m') : BothAt t m' := by
  have h1 := hv.le_headPublish
  have h2 := hv.headPublish_le
  have h3 := hv.tailPublish_eq
  unfold BothAt at *
  omega

/-- Nothing is ahead. -/
theorem BothAt.stream (h : BothAt t m) :
    Stream cap m.ring m.control.headPublish [] m.control.tailPublish := h.1.trans h.2.symm

/-- There is no room for a record that fits neither behind the tail nor besides the filler. -/
theorem BothAt.not_room (h : BothAt t m) (hrem : cap - t % cap < a.recordSize)
    (hfull : cap < cap - t % cap + a.recordSize) : ¬ Room cap m a := by
  unfold Room
  rw [h.1, h.2]
  omega

variable (hlt : t < 2^64) (hrej : ¬ a.rejected cap) (hrem : cap - t % cap < a.recordSize)
  (hfull : cap < cap - t % cap + a.recordSize)
include hlt hrej hrem hfull

omit hlt in
/-- A push of such a record leaves the memory as it was, where no reservation is pending. -/
theorem BothAt.push (hat : BothAt t m) (hnone : NonePending m) {choices : List Bool}
    {out : PushResult} (hs : pushCall cap m a choices = some (m', out)) :
    out.accepted = false ∧ m' = m := by
  have hacc : out.accepted = false := by
    rw [← Bool.not_eq_true, pushCall_accepted_iff hnone (hat.1.trans hat.2.symm) hrej hs]
    exact hat.not_room hrem hfull
  rcases pushCall_outcome hs with ⟨-, rfl, -⟩ | ⟨hacc', -⟩
  · exact ⟨hacc, rfl⟩
  · rw [hacc] at hacc'
    cases hacc'

/-- Such a record is refused for good by a `SharedRingBuffer` ... -/
theorem Mpsc.refused_forever (h : BothAt t m) (hnone : NonePending m) :
    (calls cap).RefusesForever mapping m a := by
  refine CallRing.refusesForever_of (J := fun m => BothAt t m ∧ NonePending m) ⟨h, hnone⟩ ?_ ?_
  · rintro m choices m' out ⟨hat, hnone⟩ hs
    obtain ⟨hacc, rfl⟩ := hat.push hrej hrem hfull hnone hs
    exact ⟨hacc, hat, hnone⟩
  · rintro m c choices m' res ⟨hat, hnone⟩ hs
    obtain ⟨-, hv, -⟩ := popCall_spec hat.stream (by rw [hat.2]; exact hlt) hs
    exact ⟨hat.pop hv, hnone.pop hv⟩

/-- ... by a `SharedRingBufferMPMC` ... -/
theorem Mpmc.refused_forever (h : BothAt t m) (hnone : NonePending m)
    (hres : m.control.headReserve = m.control.headPublish) :
    (calls cap).RefusesForever mapping m a := by
  refine CallRing.refusesForever_of (J := fun m => BothAt t m ∧ NonePending m ∧
    m.control.headReserve = m.control.headPublish) ⟨h, hnone, hres⟩ ?_ ?_
  · rintro m choices m' out ⟨hat, hnone, hres⟩ hs
    obtain ⟨hacc, rfl⟩ := hat.push hrej hrem hfull hnone hs
    exact ⟨hacc, hat, hnone, hres⟩
  · rintro m c choices m' res ⟨hat, hnone, hres⟩ hs
    obtain ⟨-, hv, -, hres', -⟩ := popCall_spec hat.stream (by rw [hat.2]; exact hlt) hres hs
    exact ⟨hat.pop hv, hnone.pop hv, hres'⟩

/-- ... and by a `SharedRingBufferSPSC` that has room for a header behind the tail. -/
theorem Spsc.refused_forever (h : BothAt t m) (hlt' : t + (cap - t % cap) < 2^64)
    (hheader : 16 ≤ cap - t % cap) : (calls cap).RefusesForever mapping m a := by
  refine CallRing.refusesForever_of (J := BothAt t) h ?_ ?_
  · intro m choices m' out hat hs
    have hroom := hat.not_room hrem hfull
    have heq := hat.1.trans hat.2.symm
    have hd : Drained cap m := ⟨le_of_eq heq, Or.inl heq⟩
    -- The first pass finds no room, so the tail stays.
    have hplace : place cap a m.control.headPublish m.control.tailPublish = none := by
      rcases place_drained hd (PushArgs.accepted_of_not_rejected hrej)
        (by rw [hat.2]; exact hlt') with
        ⟨hnone, -⟩ | ⟨-, hyes⟩ | ⟨c, -, -, hlen, -, ⟨-, -, hshort⟩ | ⟨-, hyes⟩⟩
      · exact hnone
      · exact absurd hyes hroom
      · rw [hlen, hat.2] at hshort
        omega
      · exact absurd hyes hroom
    have hno : ∀ c, place cap a m.control.headPublish m.control.tailPublish = some c →
        c.record? ≠ none := by
      rw [hplace]
      rintro c ⟨⟩
    obtain ⟨hhead, ⟨hacc, ⟨hwhy, -⟩ | ⟨-, ht, -⟩⟩ | ⟨-, t', b, ht, hdone⟩⟩ := pushCall_outcome hs
    · exact absurd hwhy hrej
    · exact ⟨hacc, hhead.trans hat.1, (ht.eq_first hno).trans hat.2⟩
    · rw [ht.eq_first hno, hplace] at hdone
      cases hdone
  · intro m c choices m' res hat hs
    obtain ⟨-, hv, -⟩ := popCall_spec hat.stream (by rw [hat.2]; exact hlt) hs
    exact hat.pop hv

end Forever

/-- A ring of 64 bytes of the mode `flags` that is drained with its tail at 24. From there on a
message of 48 bytes, whose record is as large as the ring, is refused for good. -/
def RefusesWhole (R : ℕ → CallRing) (flags : ℕ) : Prop :=
  ∃ mapping m tr a, createMapping 64 flags = .ok mapping ∧
    ((R mapping.capacity).machine mapping).Reaches m tr ∧ emptied tr = true ∧
    a = zeros 48 ∧ a.recordSize = mapping.capacity ∧
    (R mapping.capacity).RefusesForever mapping m a ∧
    ∃ choices m' out, (R mapping.capacity).push m a choices = some (m', out)

/-- It is enough that the ring is drained there after some calls, and that the message is refused
for good from every memory with these counters. -/
theorem refusesWhole_of {R : ℕ → CallRing} {flags : ℕ} {mapping : Mapping} (ls : List CallLabel)
    (hmap : createMapping 64 flags = .ok mapping)
    (hrun : ((((R 64).machine mapping).exec (fun _ _ _ => true) mapping.shared [] ls).any fun x =>
      emptied x.2 && decide (x.1.control = ⟨24, 24, 24, 24, 1⟩)) = true)
    (hforever : ∀ m : Shared, m.control = ⟨24, 24, 24, 24, 1⟩ →
      (R 64).RefusesForever mapping m (zeros 48) ∧
      ∃ choices m' out, (R 64).push m (zeros 48) choices = some (m', out)) :
    RefusesWhole R flags := by
  have hcap : mapping.capacity = 64 := by
    cases hmap
    rfl
  have hsize : (zeros 48).recordSize = 64 := recordSize_eq (by decide)
  obtain ⟨m, tr, hreach, htest⟩ := ((R 64).machine mapping).exists_reaches ls
    (fun m tr => emptied tr && decide (m.control = ⟨24, 24, 24, 24, 1⟩)) hrun
  simp only [Bool.and_eq_true, decide_eq_true_eq] at htest
  refine ⟨mapping, m, tr, _, hmap, ?_, htest.1, rfl, hsize.trans hcap.symm, ?_⟩ <;> rw [hcap]
  · exact hreach
  · exact hforever m htest.2

/-- A record that is not larger than the ring may be refused for good, on all three rings. -/
theorem refuses_drained : RefusesWhole Mpsc.calls kFlagMPSC ∧ RefusesWhole Mpmc.calls kFlagMPMC ∧
    RefusesWhole Spsc.calls kFlagSPSC := by
  have hsize : (zeros 48).recordSize = 64 := recordSize_eq (by decide)
  have hrej : ¬ (zeros 48).rejected 64 := not_rejected (by rintro ⟨⟩) (le_of_eq hsize)
  have hrem : 64 - 24 % 64 < (zeros 48).recordSize := by rw [hsize]; decide
  have hfull : 64 < 64 - 24 % 64 + (zeros 48).recordSize := by rw [hsize]; decide
  refine ⟨refusesWhole_of (drainOne 19 15) rfl (by decide +kernel) ?_,
    refusesWhole_of (drainOne 19 17) rfl (by decide +kernel) ?_,
    refusesWhole_of (drainOne 37 15) rfl (by decide +kernel) ?_⟩
  all_goals
    intro m hm
    have hat : BothAt 24 m := ⟨by rw [hm], by rw [hm]⟩
    have hnone : NonePending m := by rw [NonePending, hm]
  · exact ⟨Mpsc.refused_forever (by decide) hrej hrem hfull hat hnone, pushCall_returns hnone hrej⟩
  · exact ⟨Mpmc.refused_forever (by decide) hrej hrem hfull hat hnone (by rw [hm]),
      pushCall_returns hnone hrej⟩
  · exact ⟨Spsc.refused_forever (by decide) hrej hrem hfull hat (by decide) (by decide),
      Spsc.pushCall_returns hrej (by rw [hat.2]; decide)⟩

end LfRing

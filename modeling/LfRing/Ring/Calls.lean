import LfRing.Mapping
import LfRing.Ring.Alone
import LfRing.Ring.History
import LfRing.Ring.MpmcAlone
import LfRing.Ring.SpscWriter

/-!
# Complete calls

What the three rings are for when nobody disturbs a call. `CallRing` is a ring whose calls are taken
as one: each goes from one shared memory to the next, by the steps of the machines of `try_push` and
`try_pop`. The list of choices says how many steps a call takes, and at which of them a
compare-exchange fails spuriously.

`CallRing.Fifo` is the contract. A ring holds a list of records: an accepted push puts its record at
the end, and a pop takes the first one, or returns false if there is none. `Holds` ties the list to
the bytes in the ring. Each of the three rings meets the contract (`Mpsc.calls_fifo`,
`Mpmc.calls_fifo`, `Spsc.calls_fifo`) as long as its counters do not wrap. `RingMode` picks one of
them by the mode of its file.
-/

namespace LfRing

/-- What a complete call of `try_push` has done. -/
structure PushResult where
  /-- Whether it has returned true. -/
  accepted : Bool
  /-- The bytes it has taken from the ring, with the filler before the record. -/
  bytes : ℕ
deriving DecidableEq, Repr

/-- A ring whose calls are taken as one. -/
structure CallRing where
  /-- `try_push`. -/
  push : Shared → PushArgs → List Bool → Option (Shared × PushResult)
  /-- `try_pop`, and its result if it has returned true. -/
  pop : Shared → PopCall → List Bool → Option (Shared × Option Popped)

/-- The ring is a queue of records, where `Holds m total q` says that the memory `m` has the queue
`q` after `total` bytes have been taken. -/
structure CallRing.Fifo (R : CallRing) (Holds : Shared → ℕ → List Record → Prop) : Prop where
  /-- A fresh ring is empty. -/
  fresh : Holds Shared.fresh 0 []
  /-- An accepted push puts its record at the end. -/
  push : ∀ {m total q a choices m' out}, Holds m total q → R.push m a choices = some (m', out) →
    total + out.bytes < 2^64 →
    (out.accepted = true ∧
      ∃ n, Holds m' (total + out.bytes) (q ++ [{ a.message with sequence := n }])) ∨
    (out.accepted = false ∧ Holds m' (total + out.bytes) q)
  /-- A pop takes the first record, or returns false if there is none. -/
  pop : ∀ {m total q c choices m' res}, Holds m total q → R.pop m c choices = some (m', res) →
    (res = none ∧ q = [] ∧ Holds m' total []) ∨
    ∃ r q' p, q = r :: q' ∧ res = some p ∧ p.Of c r ∧ Holds m' total q'
  /-- A pop returns. -/
  pop_returns : ∀ {m total q}, Holds m total q → ∀ c, ∃ choices m' res,
    R.pop m c choices = some (m', res)

/-- What a producer adds to the stream that the consumers see. -/
theorem ProducerView.stream_append {cap : ℕ} {m m' : Shared} {ahead new : List Chunk}
    (hv : ProducerView cap m m' new)
    (hs : Stream cap m.ring m.control.headPublish ahead m.control.tailPublish) :
    Stream cap m'.ring m'.control.headPublish (ahead ++ new) m'.control.tailPublish := by
  rw [hv.headPublish_eq]
  exact (hs.frame hv.agree).append hv.stream

/-! ## `try_push` of the rings with many producers -/

/-- One producer with the shared memory to itself. -/
def pushMachine (cap : ℕ) : Machine (Shared × PushPc) PushLabel PushEvent where
  init := (Shared.fresh, .idle)
  step s l := (s.2.step cap s.1 l).map fun x => ((x.1.apply s.1, x.2.1), x.2.2)

/-- The steps of the producer alone, taken apart. -/
theorem pushMachine_step {cap : ℕ} {s s' : Shared × PushPc} {l : PushLabel} {e : PushEvent}
    (h : (pushMachine cap).step s l = some (s', e)) :
    ∃ eff, s.2.step cap s.1 l = some (eff, s'.2, e) ∧ s'.1 = eff.apply s.1 := by
  obtain ⟨⟨eff, pc, pe⟩, hs, heq⟩ := Option.map_eq_some_iff.mp h
  cases heq
  exact ⟨eff, hs, rfl⟩

namespace PushPc

/-- Between two calls. -/
def isIdle : PushPc → Bool
  | idle => true
  | _ => false

/-- The arguments of the call that the producer is in. -/
def args? : PushPc → Option PushArgs
  | idle => none
  | loadHead a => some a
  | loadTail a _ => some a
  | cas r => some r.args
  | store r _ _ => some r.args
  | awaitTurn r => some r.args
  | fetchSequence r => some r.args
  | storeSequence r _ => some r.args
  | publish r _ => some r.args

/-- A producer that makes its stores is in the call of its reservation. -/
@[simp] theorem args?_storing (r : Reservation) (todo : List Store) :
    (storing r todo).args? = some r.args := by
  cases todo <;> rfl

/-- A step of a call ends it, with false or with the publication of its record, or the call goes
on. -/
theorem end_step {cap : ℕ} {m : Shared} {pc pc' : PushPc} {l : PushLabel} {eff : Effect}
    {e : PushEvent} {a : PushArgs} (hin : pc.args? = some a ∨ l = .call a)
    (hs : pc.step cap m l = some (eff, pc', e)) :
    (pc' = .idle ∧ (e.published? = [] ∨ ∃ r n, e.published? = [(r, n)] ∧ r.args = a)) ∨
      pc'.args? = some a ∧ e.published? = [] := by
  have hargs : ∀ {b}, pc.args? = some b → l ≠ .call a → b = a := by
    intro b hb hl
    rcases hin with ha | ha
    · exact Option.some.inj (hb.symm.trans ha)
    · exact absurd ha hl
  cases PushPc.step_cases hs with
  | reject b => exact Or.inl ⟨rfl, Or.inl rfl⟩
  | full b head => exact Or.inl ⟨rfl, Or.inl rfl⟩
  | call b hrej =>
    -- The call that begins is the one that the label names.
    rcases hin with ha | rfl
    · cases ha
    · rw [PushPc.step, PushPc.enter] at hs
      split_ifs at hs
      · cases hs
      · cases hs
        exact Or.inr ⟨rfl, rfl⟩
  | room b head r hres =>
    refine Or.inr ⟨?_, rfl⟩
    rw [← hargs rfl (by rintro rfl; cases hs)]
    exact congrArg some (reserve_start hres).1
  | reserve r htail =>
    refine Or.inr ⟨?_, rfl⟩
    rw [args?_storing, hargs rfl (by rintro rfl; cases hs)]
  | store r st todo =>
    refine Or.inr ⟨?_, rfl⟩
    rw [args?_storing, hargs rfl (by rintro rfl; cases hs)]
  | publish r n =>
    exact Or.inl ⟨rfl, Or.inr ⟨r, n, rfl, hargs rfl (by rintro rfl; cases hs)⟩⟩
  | loadHead b => exact Or.inr ⟨congrArg some (hargs rfl (by rintro rfl; cases hs)), rfl⟩
  | retry r => exact Or.inr ⟨congrArg some (hargs rfl (by rintro rfl; cases hs)), rfl⟩
  | wait r => exact Or.inr ⟨congrArg some (hargs rfl (by rintro rfl; cases hs)), rfl⟩
  | turn r h => exact Or.inr ⟨congrArg some (hargs rfl (by rintro rfl; cases hs)), rfl⟩
  | fetch r => exact Or.inr ⟨congrArg some (hargs rfl (by rintro rfl; cases hs)), rfl⟩
  | number r n => exact Or.inr ⟨congrArg some (hargs rfl (by rintro rfl; cases hs)), rfl⟩

end PushPc

/-- The step of a producer inside a call, where the compare-exchange fails spuriously or not. -/
def pushNext : Bool → PushLabel
  | false => .run
  | true => .fail

/-- A complete call of `detail::try_push`. -/
def pushCall (cap : ℕ) (m : Shared) (a : PushArgs) (choices : List Bool) :
    Option (Shared × PushResult) :=
  ((pushMachine cap).call pushNext (fun s => s.2.isIdle) (.call a) choices (m, .idle)).map
    fun x => (x.1.1, ⟨!(publications x.2).isEmpty, reservedBytes x.2⟩)

section Alone

variable {cap : ℕ} {m : Shared} {a : PushArgs} {pc pc' : PushPc} {eff : Effect} {e : PushEvent}

/-- A step of a producer, as one of the machine. -/
theorem pushMachine_of_step {l : PushLabel} (hs : pc.step cap m l = some (eff, pc', e)) :
    (pushMachine cap).step (m, pc) l = some ((eff.apply m, pc'), e) := by
  simp only [pushMachine, hs, Option.map_some]

/-- A step that a producer takes when nobody disturbs it. -/
theorem pushMachine_path (hs : pc.step cap m .run = some (eff, pc', e)) :
    (pushMachine cap).Path (fun l => ∃ b, l = pushNext b) (m, pc) [e] (eff.apply m, pc') :=
  .single (pushNext false) ⟨false, rfl⟩ (pushMachine_of_step hs)

variable (cap) in
/-- A producer that is not disturbed makes the stores that are left. -/
theorem exists_path_storing (r : Reservation) (todo : List Store) :
    ∃ es m', (pushMachine cap).Path (fun l => ∃ b, l = pushNext b) (m, .storing r todo) es
        (m', .awaitTurn r) ∧ m'.control = m.control ∧
      ((r.stores cap).Pairwise Store.Disjoint → Store.Progress m.ring (r.stores cap) todo →
        Store.Progress m'.ring (r.stores cap) []) := by
  induction todo generalizing m with
  | nil => exact ⟨[], m, .refl, rfl, fun _ hprog => hprog⟩
  | cons st todo ih =>
    obtain ⟨es, m', hp, hcontrol, hstored⟩ := ih (m := (Effect.ring st).apply m)
    refine ⟨_, m', (pushMachine_path rfl).trans hp, hcontrol, ?_⟩
    intro hdis hprog
    exact hstored hdis (hprog.next hdis)

variable (cap) in
/-- From the wait on, in its turn, it draws the next number and publishes. -/
theorem exists_path_turn {r : Reservation} (hturn : m.control.tailPublish = r.start) :
    ∃ es, (pushMachine cap).Path (fun l => ∃ b, l = pushNext b) (m, .awaitTurn r) es
      (⟨{ m.control with
          tailPublish := u64 (r.start + r.total)
          sequence := u64 (m.control.sequence + 1) },
        (r.sequenceStore cap (u64 (m.control.sequence + 1))).apply m.ring⟩, .idle) := by
  have h₁ : PushPc.step cap m (.awaitTurn r) .run = some (.none, .fetchSequence r, .internal) := by
    rw [PushPc.step, if_pos hturn]
  have h₂ : PushPc.step cap m (.fetchSequence r) .run =
      some (.sequence (u64 (m.control.sequence + 1)),
        .storeSequence r (u64 (m.control.sequence + 1)), .internal) := rfl
  generalize u64 (m.control.sequence + 1) = n at h₂ ⊢
  have h₃ : ∀ m, PushPc.step cap m (.storeSequence r n) .run =
      some (.ring (r.sequenceStore cap n), .publish r n, .stored r (r.sequenceStore cap n)) :=
    fun _ => rfl
  have h₄ : ∀ m, PushPc.step cap m (.publish r n) .run =
      some (.tailPublish (u64 (r.start + r.total)), .idle, .published r n) := fun _ => rfl
  exact ⟨_, ((pushMachine_path h₁).trans (pushMachine_path h₂)).trans
    ((pushMachine_path (h₃ _)).trans (pushMachine_path (h₄ _)))⟩

/-- A call that is not disturbed publishes its record if the space checks pass, and it is its turn:
with the stores `ring` and then the next number. -/
theorem exists_path_push {r : Reservation}
    (hres : reserve cap a m.control.headPublish m.control.tailReserve = some r)
    (hturn : m.control.tailPublish = r.start) :
    ∃ es ring, (pushMachine cap).Path (fun l => ∃ b, l = pushNext b) (m, .loadHead a) es
        (⟨{ m.control with
            tailReserve := u64 (r.start + r.total)
            tailPublish := u64 (r.start + r.total)
            sequence := u64 (m.control.sequence + 1) },
          (r.sequenceStore cap (u64 (m.control.sequence + 1))).apply ring⟩, .idle) ∧
      ((r.stores cap).Pairwise Store.Disjoint → Store.Progress ring (r.stores cap) []) := by
  have hhead : PushPc.step cap m (.loadHead a) .run =
      some (.none, .loadTail a m.control.headPublish, .internal) := rfl
  have hroom : PushPc.step cap m (.loadTail a m.control.headPublish) .run =
      some (.none, .cas r, .internal) := by
    rw [PushPc.step, hres, PushPc.checked]
  have hcas : PushPc.step cap m (.cas r) .run = some (.tailReserve (u64 (r.start + r.total)),
      .storing r (r.stores cap), .reserved r) := by
    rw [PushPc.step, if_pos (reserve_start hres).2.symm]
  obtain ⟨es, m₁, hstores, hm₁, hstored⟩ := exists_path_storing cap
    (m := (Effect.tailReserve (u64 (r.start + r.total))).apply m) r (r.stores cap)
  obtain ⟨es', hend⟩ := exists_path_turn cap (m := m₁) (r := r) (by rw [hm₁]; exact hturn)
  rw [hm₁] at hend
  refine ⟨_, m₁.ring, ((pushMachine_path hhead).trans (pushMachine_path hroom)).trans
    (((pushMachine_path hcas).trans hstores).trans hend), ?_⟩
  intro hdis
  exact hstored hdis (.start _ _)

end Alone

/-- A call in progress, or at its end, that began on the memory `m₀` with `ahead₀` ahead and the
events `es₀` behind. -/
structure Pushing (cap : ℕ) (a : PushArgs) (m₀ : Shared) (ahead₀ : List Chunk)
    (es₀ : List PushEvent) (m : Shared) (pc : PushPc) (es : List PushEvent) : Prop where
  /-- The producers' invariant and history. -/
  history : ∃ pending, WriterHistory cap m (Function.update (fun _ => .idle) 0 pc)
    (es₀ ++ es) pending
  /-- The stream has grown by what is published. -/
  stream : Stream cap m.ring m.control.headPublish (ahead₀ ++ publishedChunks es)
    m.control.tailPublish
  /-- `head_publish` is the consumers'. -/
  headPublish_eq : m.control.headPublish = m₀.control.headPublish
  /-- `head_reserve` is the consumers'. -/
  headReserve_eq : m.control.headReserve = m₀.control.headReserve
  /-- Inside the call nothing has been published. At its end its record has been, or nothing. -/
  result : (pc.args? = some a ∧ publications es = []) ∨
    pc = .idle ∧ (publications es = [] ∨ ∃ r n, publications es = [(r, n)] ∧ r.args = a)

namespace Pushing

variable {cap : ℕ} {a : PushArgs} {m₀ m : Shared} {ahead₀ : List Chunk} {es₀ es : List PushEvent}
  {pc pc' : PushPc} {l : PushLabel} {eff : Effect} {e : PushEvent}

/-- Every step of the call, the first one included, keeps what is known of it. -/
theorem step (hhist : ∃ pending,
      WriterHistory cap m (Function.update (fun _ => .idle) 0 pc) (es₀ ++ es) pending)
    (hstream : Stream cap m.ring m.control.headPublish (ahead₀ ++ publishedChunks es)
      m.control.tailPublish)
    (hhead : m.control.headPublish = m₀.control.headPublish)
    (hres : m.control.headReserve = m₀.control.headReserve) (hpub : publications es = [])
    (hin : pc.args? = some a ∨ l = .call a) (hs : pc.step cap m l = some (eff, pc', e))
    (hlt : reservedBytes (es₀ ++ (es ++ [e])) < 2^64) :
    Pushing cap a m₀ ahead₀ es₀ (eff.apply m) pc' (es ++ [e]) := by
  obtain ⟨pending, hh⟩ := hhist
  have hs' : (Function.update (fun _ => PushPc.idle) 0 pc 0).step cap m l = some (eff, pc', e) := by
    rw [Function.update_self]
    exact hs
  rw [← List.append_assoc] at hlt
  obtain ⟨pending', hh', hview⟩ := hh.step hs' hlt
  rw [Function.update_idem, List.append_assoc] at hh'
  have hlast : publications [e] = e.published? := by simp [publications]
  refine ⟨⟨pending', hh'⟩, ?_, hview.headPublish_eq.trans hhead,
    hview.headReserve_eq.trans hres, ?_⟩
  · rw [publishedChunks_append, publishedChunks_singleton, ← List.append_assoc]
    exact hview.stream_append hstream
  · rw [publications_append, hpub, List.nil_append, hlast]
    rcases PushPc.end_step hin hs with hend | hon
    · exact Or.inr hend
    · exact Or.inl hon

end Pushing

/-- What a complete call of `detail::try_push` has done: it has published its record, or nothing. -/
theorem pushCall_spec {cap : ℕ} {m m' : Shared} {a : PushArgs} {choices : List Bool}
    {out : PushResult} {ahead : List Chunk} {es₀ : List PushEvent} {pending : List Reservation}
    (hh : WriterHistory cap m (fun _ => .idle) es₀ pending)
    (hs : Stream cap m.ring m.control.headPublish ahead m.control.tailPublish)
    (h : pushCall cap m a choices = some (m', out)) (hlt : reservedBytes es₀ + out.bytes < 2^64) :
    ∃ es₁ pending' ahead', WriterHistory cap m' (fun _ => .idle) es₁ pending' ∧
      reservedBytes es₁ = reservedBytes es₀ + out.bytes ∧
      Stream cap m'.ring m'.control.headPublish ahead' m'.control.tailPublish ∧
      m'.control.headPublish = m.control.headPublish ∧
      m'.control.headReserve = m.control.headReserve ∧
      ((out.accepted = true ∧
          ∃ n, records ahead' = records ahead ++ [{ a.message with sequence := n }]) ∨
        (out.accepted = false ∧ records ahead' = records ahead)) := by
  obtain ⟨⟨⟨m₁, pc⟩, es⟩, hcall, heq⟩ := Option.map_eq_some_iff.mp h
  obtain ⟨s₁, e, es', hfirst, rfl, hp, hidle⟩ := Machine.path_of_call hcall
  obtain ⟨rfl, rfl⟩ := Prod.mk.inj heq
  obtain ⟨eff, hstep, hmem⟩ := pushMachine_step hfirst
  have hstart : Function.update (fun _ => PushPc.idle) 0 PushPc.idle = fun _ : ℕ => PushPc.idle :=
    Function.update_eq_self 0 _
  -- The bound holds for every part of the call.
  have hpath : reservedBytes (es₀ ++ (e :: es')) < 2^64 →
      Pushing cap a m ahead es₀ m₁ pc (e :: es') := by
    refine hp.invariant (fun s es => reservedBytes (es₀ ++ (e :: es)) < 2^64 →
      Pushing cap a m ahead es₀ s.1 s.2 (e :: es)) ?_ ?_
    · rintro s es l s' e' ⟨b, rfl⟩ ih hs' hbound
      obtain ⟨eff', hstep', hmem'⟩ := pushMachine_step hs'
      have hpre : reservedBytes (es₀ ++ (e :: es)) < 2^64 := by
        refine lt_of_le_of_lt ?_ hbound
        rw [← List.cons_append, ← List.append_assoc, reservedBytes_append (es₀ ++ e :: es)]
        exact Nat.le_add_right _ _
      have hi := ih hpre
      rw [hmem', ← List.cons_append]
      rcases hi.result with ⟨hargs, hpub⟩ | ⟨hpc, -⟩
      · exact Pushing.step hi.history hi.stream hi.headPublish_eq hi.headReserve_eq hpub
          (Or.inl hargs) hstep' hbound
      · rw [hpc] at hstep'
        cases b <;> cases hstep'
    · intro hbound
      have hh₀ : WriterHistory cap m (Function.update (fun _ => .idle) 0 .idle)
          (es₀ ++ []) pending := by
        rw [hstart, List.append_nil]
        exact hh
      have hs₀ : Stream cap m.ring m.control.headPublish (ahead ++ publishedChunks [])
          m.control.tailPublish := by
        simpa [publishedChunks] using hs
      rw [hmem]
      exact Pushing.step ⟨pending, hh₀⟩ hs₀ rfl rfl rfl (Or.inr rfl) hstep hbound
  have hend := hpath (by rw [reservedBytes_append]; exact hlt)
  obtain ⟨pending', hh'⟩ := hend.history
  obtain rfl : pc = .idle := by
    cases pc <;> first | rfl | cases hidle
  rw [hstart] at hh'
  refine ⟨es₀ ++ (e :: es'), pending', ahead ++ publishedChunks (e :: es'), hh',
    reservedBytes_append _ _, hend.stream, hend.headPublish_eq, hend.headReserve_eq, ?_⟩
  rw [records_append, records_publishedChunks]
  rcases hend.result with ⟨hargs, -⟩ | ⟨-, hnone | ⟨r, n, hone, rfl⟩⟩
  · cases hargs
  · rw [hnone]
    exact Or.inr ⟨rfl, List.append_nil _⟩
  · rw [hone]
    exact Or.inl ⟨rfl, n, rfl⟩

/-! ## `try_pop` of the rings with one consumer -/

/-- Between two calls. -/
def PopPc.isIdle : PopPc → Bool
  | .idle => true
  | _ => false

/-- A complete call of `try_pop_internal`. -/
def popCall (order : HeadOrder) (cap : ℕ) (m : Shared) (c : PopCall) (choices : List Bool) :
    Option (Shared × Option Popped) :=
  ((popMachine order cap Shared.fresh).call (fun _ => .run) (fun s => s.2.isIdle) (.call c) choices
    (m, .idle)).map fun x => (x.1.1, (returnedOf x.2).head?.map Prod.snd)

/-- What a complete call of `try_pop_internal` has done: it has returned the first record ahead, or
false if there was none. -/
theorem popCall_spec {order : HeadOrder} {cap : ℕ} {m m' : Shared} {c : PopCall}
    {choices : List Bool} {res : Option Popped} {ahead : List Chunk}
    (hs : Stream cap m.ring m.control.headPublish ahead m.control.tailPublish)
    (hlt : m.control.tailPublish < 2^64) (h : popCall order cap m c choices = some (m', res)) :
    ∃ ahead', ConsumerView m m' ∧
      Stream cap m'.ring m'.control.headPublish ahead' m'.control.tailPublish ∧
      ((res = none ∧ records ahead = [] ∧ ahead' = []) ∨
        ∃ r p, records ahead = r :: records ahead' ∧ res = some p ∧ p.Of c r) := by
  obtain ⟨⟨⟨m₁, pc⟩, es⟩, hcall, heq⟩ := Option.map_eq_some_iff.mp h
  obtain ⟨s₁, e, es', hfirst, rfl, hp, hidle⟩ := Machine.path_of_call hcall
  obtain ⟨rfl, rfl⟩ := Prod.mk.inj heq
  cases hfirst
  obtain rfl : pc = .idle := by
    cases pc <;> first | rfl | cases hidle
  have hinv : ReaderInv cap m .idle [] ahead [] [] := ⟨hs, .nil, trivial⟩
  obtain ⟨passed', ahead', seen', -, hview, -, hinv', -, hres⟩ := hinv.pop_result hlt
    (hp.mono (by rintro l ⟨-, rfl⟩; rfl))
  have hret : returnedOf (.internal :: es') = returnedOf es' := rfl
  rw [hret]
  refine ⟨ahead', hview, hinv'.stream, ?_⟩
  rcases hres with ⟨hnone, hempty, rfl⟩ | ⟨r, p, hrecords, hone, hof⟩
  · rw [hnone]
    exact Or.inl ⟨rfl, hempty, rfl⟩
  · rw [hone]
    exact Or.inr ⟨r, p, hrecords, rfl, hof⟩

/-- A complete call of `try_pop_internal` exists. -/
theorem popCall_returns (order : HeadOrder) {cap : ℕ} {m : Shared} {ahead : List Chunk}
    (hs : Stream cap m.ring m.control.headPublish ahead m.control.tailPublish)
    (hlt : m.control.tailPublish < 2^64) (c : PopCall) :
    ∃ choices m' res, popCall order cap m c choices = some (m', res) := by
  have hinv : ReaderInv cap m (.loadTail c) [] ahead [] [] := ⟨hs, .nil, trivial⟩
  obtain ⟨es, m', -, -, -, hp, -⟩ := hinv.finish order Shared.fresh hlt
  have hp' : (popMachine order cap Shared.fresh).Path (fun l => ∃ b : Bool, l = (fun _ => .run) b)
      (m, .loadTail c) es (m', .idle) := hp.mono fun l hl => ⟨false, hl⟩
  obtain ⟨choices, hcall⟩ := Machine.exists_call (fun s => s.2.isIdle) (.call c)
    (s := (m, .idle)) rfl hp' rfl
  exact ⟨choices, m', _, by rw [popCall, hcall]; rfl⟩

/-! ## `SharedRingBuffer` -/

/-- `SharedRingBuffer`, call by call. -/
def Mpsc.calls (cap : ℕ) : CallRing where
  push := pushCall cap
  pop := popCall .publishFirst cap

/-- What is in a ring with many producers, between two calls. -/
def Mpsc.Holds (cap : ℕ) (m : Shared) (total : ℕ) (q : List Record) : Prop :=
  ∃ es pending ahead, WriterHistory cap m (fun _ => .idle) es pending ∧ reservedBytes es = total ∧
    Stream cap m.ring m.control.headPublish ahead m.control.tailPublish ∧ records ahead = q

/-- `SharedRingBuffer` is a queue. -/
theorem Mpsc.calls_fifo (cap : ℕ) : (calls cap).Fifo (Holds cap) where
  fresh := ⟨[], [], [], WriterHistory.fresh cap, rfl, rfl, rfl⟩
  push := by
    rintro m total q a choices m' out ⟨es, pending, ahead, hh, rfl, hs, rfl⟩ h hlt
    obtain ⟨es', pending', ahead', hh', hbytes, hs', -, -, hres⟩ := pushCall_spec hh hs h hlt
    rcases hres with ⟨hacc, n, hrec⟩ | ⟨hacc, hrec⟩
    · exact Or.inl ⟨hacc, n, es', pending', ahead', hh', hbytes, hs', hrec⟩
    · exact Or.inr ⟨hacc, es', pending', ahead', hh', hbytes, hs', hrec⟩
  pop := by
    rintro m total q c choices m' res ⟨es, pending, ahead, hh, rfl, hs, rfl⟩ h
    obtain ⟨ahead', hv, hs', hres⟩ := popCall_spec hs hh.tailPublish_lt h
    have hh' : WriterHistory cap m' (fun _ => .idle) es pending :=
      hh.advance hv.le_headPublish hv.headPublish_le hv.tailPublish_eq hv.tailReserve_eq hv.ring_eq
    rcases hres with ⟨hnone, hempty, rfl⟩ | ⟨r, p, hrec, hone, hof⟩
    · exact Or.inl ⟨hnone, hempty, es, pending, [], hh', rfl, hs', rfl⟩
    · exact Or.inr ⟨r, records ahead', p, hrec, hone, hof, es, pending, ahead', hh', rfl, hs', rfl⟩
  pop_returns := by
    rintro m total q ⟨es, pending, ahead, hh, -, hs, -⟩ c
    exact popCall_returns .publishFirst hs hh.tailPublish_lt c

/-! ## `SharedRingBufferMPMC` -/

namespace Mpmc

/-- Between two calls. -/
def Pc.isIdle : Pc → Bool
  | .idle => true
  | _ => false

/-- The step of a consumer inside a call, where the compare-exchange fails spuriously or not. -/
def popNext : Bool → PopLabel
  | false => .run
  | true => .fail

/-- A complete call of `try_pop`. -/
def popCall (cap : ℕ) (m : Shared) (c : PopCall) (choices : List Bool) :
    Option (Shared × Option Popped) :=
  ((popMachine cap Shared.fresh).call popNext (fun s => s.2.isIdle) (.call c) choices
    (m, .idle)).map fun x => (x.1.1, (returnedOf x.2).head?.map fun p => p.2.2)

/-- `SharedRingBufferMPMC`, call by call. -/
def calls (cap : ℕ) : CallRing where
  push := pushCall cap
  pop := popCall cap

/-- What is in the ring between two calls. Nothing is claimed then. -/
def Holds (cap : ℕ) (m : Shared) (total : ℕ) (q : List Record) : Prop :=
  Mpsc.Holds cap m total q ∧ m.control.headReserve = m.control.headPublish

/-- The steps inside a call are those that the choices stand for. -/
theorem inside_iff (l : PopLabel) : Inside l ↔ ∃ b, l = popNext b := by
  constructor
  · rintro (rfl | rfl)
    · exact ⟨false, rfl⟩
    · exact ⟨true, rfl⟩
  · rintro ⟨b, rfl⟩
    cases b
    · exact Or.inl rfl
    · exact Or.inr rfl

/-- A complete call of `try_pop` exists. -/
theorem popCall_returns {cap : ℕ} {m : Shared} {ahead : List Chunk}
    (hs : Stream cap m.ring m.control.headPublish ahead m.control.tailPublish)
    (hlt : m.control.tailPublish < 2^64) (hres : m.control.headReserve = m.control.headPublish)
    (c : PopCall) : ∃ choices m' res, popCall cap m c choices = some (m', res) := by
  obtain ⟨es, m', hp⟩ := pop_returns Shared.fresh hs hlt hres c
  obtain ⟨choices, hcall⟩ := Machine.exists_call (fun s => s.2.isIdle) (.call c)
    (s := (m, .idle)) rfl (hp.mono fun l hl => (inside_iff l).mp hl) rfl
  exact ⟨choices, m', _, by rw [popCall, hcall]; rfl⟩

/-- What a complete call of `try_pop` has done: it has returned the first record ahead, or false if
there was none. -/
theorem popCall_spec {cap : ℕ} {m m' : Shared} {c : PopCall} {choices : List Bool}
    {res : Option Popped} {ahead : List Chunk}
    (hs : Stream cap m.ring m.control.headPublish ahead m.control.tailPublish)
    (hlt : m.control.tailPublish < 2^64) (hres : m.control.headReserve = m.control.headPublish)
    (h : popCall cap m c choices = some (m', res)) :
    ∃ ahead', ConsumerView m m' ∧
      Stream cap m'.ring m'.control.headPublish ahead' m'.control.tailPublish ∧
      m'.control.headReserve = m'.control.headPublish ∧
      ((res = none ∧ records ahead = [] ∧ ahead' = []) ∨
        ∃ r p, records ahead = r :: records ahead' ∧ res = some p ∧ p.Of c r) := by
  obtain ⟨⟨⟨m₁, pc⟩, evs⟩, hcall, heq⟩ := Option.map_eq_some_iff.mp h
  obtain ⟨s₁, e, es', hfirst, rfl, hp, hidle⟩ := Machine.path_of_call hcall
  obtain ⟨rfl, rfl⟩ := Prod.mk.inj heq
  cases hfirst
  obtain rfl : pc = .idle := by
    cases pc <;> first | rfl | cases hidle
  obtain ⟨ahead', hpop⟩ := Popping.of_path hs hlt hres
    (hp.mono fun l hl => (inside_iff l).mpr hl)
  have hret : returnedOf (.internal :: es') = returnedOf es' := rfl
  rw [hret]
  rcases hpop.result with ⟨hin, -⟩ | ⟨-, hres', ⟨hnone, hempty, hempty'⟩ | hone⟩
  · exact hin.elim
  · rw [hnone]
    exact ⟨ahead', hpop.view, hpop.stream, hres', Or.inl ⟨rfl, hempty, hempty'⟩⟩
  · obtain ⟨head, r, p, hone, hof, hrec⟩ := hone
    rw [hone]
    exact ⟨ahead', hpop.view, hpop.stream, hres', Or.inr ⟨r, p, hrec, rfl, hof⟩⟩

/-- `SharedRingBufferMPMC` is a queue. -/
theorem calls_fifo (cap : ℕ) : (calls cap).Fifo (Holds cap) where
  fresh := ⟨(Mpsc.calls_fifo cap).fresh, rfl⟩
  push := by
    rintro m total q a choices m' out ⟨hholds, hres⟩ h hlt
    obtain ⟨es, pending, ahead, hh, rfl, hs, -⟩ := id hholds
    obtain ⟨-, -, -, -, -, -, h1, h2, -⟩ := pushCall_spec hh hs h hlt
    have hres' : m'.control.headReserve = m'.control.headPublish := by rw [h1, h2, hres]
    rcases (Mpsc.calls_fifo cap).push hholds h hlt with ⟨hacc, n, hq⟩ | ⟨hacc, hq⟩
    · exact Or.inl ⟨hacc, n, hq, hres'⟩
    · exact Or.inr ⟨hacc, hq, hres'⟩
  pop := by
    rintro m total q c choices m' res ⟨⟨es, pending, ahead, hh, rfl, hs, rfl⟩, hres⟩ h
    obtain ⟨ahead', hv, hs', hres', hout⟩ := popCall_spec hs hh.tailPublish_lt hres h
    have hh' : WriterHistory cap m' (fun _ => .idle) es pending :=
      hh.advance hv.le_headPublish hv.headPublish_le hv.tailPublish_eq hv.tailReserve_eq hv.ring_eq
    rcases hout with ⟨hnone, hempty, rfl⟩ | ⟨r, p, hrec, hone, hof⟩
    · exact Or.inl ⟨hnone, hempty, ⟨es, pending, [], hh', rfl, hs', rfl⟩, hres'⟩
    · exact Or.inr ⟨r, records ahead', p, hrec, hone, hof,
        ⟨es, pending, ahead', hh', rfl, hs', rfl⟩, hres'⟩
  pop_returns := by
    rintro m total q ⟨⟨es, pending, ahead, hh, -, hs, -⟩, hres⟩ c
    exact popCall_returns hs hh.tailPublish_lt hres c

end Mpmc

/-! ## `SharedRingBufferSPSC` -/

namespace Spsc

/-- The producer with the shared memory to itself. -/
def pushMachine (cap : ℕ) : Machine (Shared × PushPc) PushLabel PushEvent where
  init := (Shared.fresh, .idle)
  step s l := (s.2.step cap s.1 l).map fun x => ((x.1.apply s.1, x.2.1), x.2.2)

/-- The steps of the producer alone, taken apart. -/
theorem pushMachine_step {cap : ℕ} {s s' : Shared × PushPc} {l : PushLabel} {e : PushEvent}
    (h : (pushMachine cap).step s l = some (s', e)) :
    ∃ eff, s.2.step cap s.1 l = some (eff, s'.2, e) ∧ s'.1 = eff.apply s.1 := by
  obtain ⟨⟨eff, pc, pe⟩, hs, heq⟩ := Option.map_eq_some_iff.mp h
  cases heq
  exact ⟨eff, hs, rfl⟩

/-- A chunk that a call places: its record, or a filler before it. -/
def OfCall (a : PushArgs) (c : Chunk) : Prop := (∃ n, c = .record (record a n)) ∨ c.record? = none

/-- The decisions of a pass are about the call's own record. -/
theorem ofCall_place {cap head tail : ℕ} {a : PushArgs} {c : Chunk}
    (h : place cap a head tail = some c) : OfCall a c := by
  unfold place at h
  dsimp only at h
  split_ifs at h <;> cases h
  · exact Or.inr rfl
  · exact Or.inr rfl
  · exact Or.inl ⟨0, rfl⟩

namespace PushPc

/-- Between two calls. -/
def isIdle : PushPc → Bool
  | idle => true
  | _ => false

/-- The producer is inside the call `a`. -/
def Inside (a : PushArgs) : PushPc → Prop
  | loadHead b => b = a
  | loadTail b _ => b = a
  | store b _ c _ _ => b = a ∧ OfCall a c
  | fetchSequence b _ => b = a
  | storeSequence b _ _ _ _ => b = a
  | reserve b _ c => b = a ∧ OfCall a c
  | publish b _ c => b = a ∧ OfCall a c
  | _ => False

/-- Whichever bytes are left of a chunk, the call is the same. -/
theorem inside_storing {a : PushArgs} {c : Chunk} (tail : ℕ) (todo : List Store) (hc : OfCall a c) :
    (storing a tail c todo).Inside a := by
  cases todo with
  | cons st todo => exact ⟨rfl, hc⟩
  | nil =>
    cases c with
    | record r => exact rfl
    | _ => exact ⟨rfl, hc⟩

/-- Whichever bytes are left of the sequence number, the call is the same. -/
theorem inside_numbering (a : PushArgs) (tail n : ℕ) (todo : List Store) :
    (numbering a tail n todo).Inside a := by
  cases todo with
  | cons st todo => exact rfl
  | nil => exact ⟨rfl, Or.inl ⟨n, rfl⟩⟩

/-- A step of a call ends it, with false or with the publication of its record, or the call goes
on. -/
theorem end_step {cap : ℕ} {m : Shared} {pc pc' : PushPc} {l : PushLabel} {eff : Effect}
    {e : PushEvent} {a : PushArgs} (hin : (pc.Inside a ∧ l = .run) ∨ pc = .idle ∧ l = .call a)
    (hs : pc.step cap m l = some (eff, pc', e)) :
    (pc' = .idle ∧ (e.committed? = [] ∨ ∃ n, e.committed? = [record a n])) ∨
      pc'.Inside a ∧ e.committed? = [] := by
  rcases hin with ⟨hin, rfl⟩ | ⟨rfl, rfl⟩
  · cases PushPc.step_cases hs with
    | crash pc => exact absurd rfl (ne_crashed hs)
    | claim => exact hin.elim
    | claimLoad => exact hin.elim
    | claimed tail => exact hin.elim
    | reject b => exact hin.elim
    | call b hrej => exact hin.elim
    | full b head => exact Or.inl ⟨rfl, Or.inl rfl⟩
    | loadHead b => exact Or.inr ⟨hin, rfl⟩
    | room b head c hplace =>
      obtain rfl : b = a := hin
      exact Or.inr ⟨inside_storing _ _ (ofCall_place hplace), rfl⟩
    | store b tail c st todo =>
      obtain ⟨rfl, hc⟩ := hin
      exact Or.inr ⟨inside_storing _ _ hc, rfl⟩
    | fetch b tail =>
      obtain rfl : b = a := hin
      exact Or.inr ⟨inside_numbering _ _ _ _, rfl⟩
    | number b tail n st todo =>
      obtain rfl : b = a := hin
      exact Or.inr ⟨inside_numbering _ _ _ _, rfl⟩
    | reserve b tail c => exact Or.inr ⟨hin, rfl⟩
    | publish b tail c =>
      obtain ⟨rfl, ⟨n, rfl⟩ | hnone⟩ := hin
      · exact Or.inl ⟨rfl, Or.inr ⟨n, rfl⟩⟩
      · -- A filler is published, and the next pass begins.
        cases c with
        | record r => cases hnone
        | _ => exact Or.inr ⟨rfl, rfl⟩
  · rw [PushPc.step, PushPc.enter] at hs
    split_ifs at hs
    · cases hs
      exact Or.inl ⟨rfl, Or.inl rfl⟩
    · cases hs
      exact Or.inr ⟨rfl, rfl⟩

end PushPc

/-- The records that a list of events commits. -/
def committedOf (es : List PushEvent) : List Record := es.flatMap PushEvent.committed?

/-- The bytes that a list of events places. -/
def placedOf (es : List PushEvent) : ℕ := (es.map PushEvent.bytes).sum

/-- The chunks that a list of events publishes are those of the records committed, and fillers. -/
theorem records_chunk? (e : PushEvent) : records e.chunk? = e.committed? := by
  cases e with
  | published c => cases c <;> rfl
  | _ => rfl

/-- A complete call of `try_push`. -/
def pushCall (cap : ℕ) (m : Shared) (a : PushArgs) (choices : List Bool) :
    Option (Shared × PushResult) :=
  ((pushMachine cap).call (fun _ => .run) (fun s => s.2.isIdle) (.call a) choices (m, .idle)).map
    fun x => (x.1.1, ⟨!(committedOf x.2).isEmpty, placedOf x.2⟩)

/-- A call in progress, or at its end, that began with `ahead₀` ahead and `total` bytes placed. -/
structure Pushing (cap : ℕ) (a : PushArgs) (ahead₀ : List Chunk) (total : ℕ) (m : Shared)
    (pc : PushPc) (es : List PushEvent) : Prop where
  /-- The producer's invariant. -/
  inv : PushInv cap m pc (total + placedOf es)
  /-- The stream has grown by the records committed and fillers. -/
  stream : ∃ ahead, Stream cap m.ring m.control.headPublish ahead m.control.tailPublish ∧
    records ahead = records ahead₀ ++ committedOf es
  /-- Inside the call nothing has been committed. At its end its record has been, or nothing. -/
  result : (pc.Inside a ∧ committedOf es = []) ∨
    pc = .idle ∧ (committedOf es = [] ∨ ∃ n, committedOf es = [record a n])

/-- Every step of the call, the first one included, keeps what is known of it. -/
theorem Pushing.step {cap total : ℕ} {a : PushArgs} {m : Shared} {ahead₀ : List Chunk}
    {es : List PushEvent} {pc pc' : PushPc} {l : PushLabel} {eff : Effect} {e : PushEvent}
    (hinv : PushInv cap m pc (total + placedOf es))
    (hstream : ∃ ahead, Stream cap m.ring m.control.headPublish ahead m.control.tailPublish ∧
      records ahead = records ahead₀ ++ committedOf es)
    (hnone : committedOf es = []) (hin : (pc.Inside a ∧ l = .run) ∨ pc = .idle ∧ l = .call a)
    (hs : pc.step cap m l = some (eff, pc', e)) (hlt : total + placedOf (es ++ [e]) < 2^64) :
    Pushing cap a ahead₀ total (eff.apply m) pc' (es ++ [e]) := by
  have hplaced : placedOf (es ++ [e]) = placedOf es + e.bytes := by simp [placedOf]
  have hcommitted : committedOf (es ++ [e]) = committedOf es ++ e.committed? := by
    simp [committedOf]
  rw [hplaced, ← Nat.add_assoc] at hlt
  obtain ⟨hinv', hview⟩ := hinv.step hs hlt
  obtain ⟨ahead, hst, hrec⟩ := hstream
  refine ⟨?_, ⟨ahead ++ e.chunk?, hview.stream_append hst, ?_⟩, ?_⟩
  · rw [hplaced, ← Nat.add_assoc]
    exact hinv'
  · rw [records_append, hrec, records_chunk?, hcommitted, List.append_assoc]
  · rw [hcommitted, hnone, List.nil_append]
    rcases PushPc.end_step hin hs with hend | hon
    · exact Or.inr hend
    · exact Or.inl hon

/-- What a complete call of `try_push` has done: it has committed its record, or nothing. -/
theorem pushCall_spec {cap total : ℕ} {m m' : Shared} {a : PushArgs} {choices : List Bool}
    {out : PushResult} {ahead : List Chunk} (hinv : PushInv cap m .idle total)
    (hs : Stream cap m.ring m.control.headPublish ahead m.control.tailPublish)
    (h : pushCall cap m a choices = some (m', out)) (hlt : total + out.bytes < 2^64) :
    ∃ ahead', PushInv cap m' .idle (total + out.bytes) ∧
      Stream cap m'.ring m'.control.headPublish ahead' m'.control.tailPublish ∧
      ((out.accepted = true ∧ ∃ n, records ahead' = records ahead ++ [record a n]) ∨
        (out.accepted = false ∧ records ahead' = records ahead)) := by
  obtain ⟨⟨⟨m₁, pc⟩, es⟩, hcall, heq⟩ := Option.map_eq_some_iff.mp h
  obtain ⟨s₁, e, es', hfirst, rfl, hp, hidle⟩ := Machine.path_of_call hcall
  obtain ⟨rfl, rfl⟩ := Prod.mk.inj heq
  obtain ⟨eff, hstep, hmem⟩ := pushMachine_step hfirst
  have hpath : total + placedOf (e :: es') < 2^64 → Pushing cap a ahead total m₁ pc (e :: es') := by
    refine hp.invariant (fun s es => total + placedOf (e :: es) < 2^64 →
      Pushing cap a ahead total s.1 s.2 (e :: es)) ?_ ?_
    · rintro s es l s' e' ⟨-, rfl⟩ ih hs' hbound
      obtain ⟨eff', hstep', hmem'⟩ := pushMachine_step hs'
      have hpre : placedOf (e :: es) ≤ placedOf (e :: (es ++ [e'])) := by
        simp [placedOf]
      have hi := ih (by omega)
      rw [hmem', ← List.cons_append]
      rcases hi.result with ⟨hin, hnone⟩ | ⟨hpc, -⟩
      · exact Pushing.step hi.inv hi.stream hnone (Or.inl ⟨hin, rfl⟩) hstep' hbound
      · rw [hpc] at hstep'
        cases hstep'
    · intro hbound
      have hs₀ : ∃ ahead₁, Stream cap m.ring m.control.headPublish ahead₁ m.control.tailPublish ∧
          records ahead₁ = records ahead ++ committedOf [] := ⟨ahead, hs, by simp [committedOf]⟩
      have hinv₀ : PushInv cap m .idle (total + placedOf []) := hinv
      rw [hmem]
      exact Pushing.step hinv₀ hs₀ rfl (Or.inr ⟨rfl, rfl⟩) hstep hbound
  have hend := hpath hlt
  obtain rfl : pc = .idle := by
    cases pc <;> first | rfl | cases hidle
  obtain ⟨ahead', hs', hrec⟩ := hend.stream
  refine ⟨ahead', hend.inv, hs', ?_⟩
  rcases hend.result with ⟨hin, -⟩ | ⟨-, hnone | ⟨n, hone⟩⟩
  · exact hin.elim
  · rw [hrec, hnone]
    exact Or.inr ⟨rfl, List.append_nil _⟩
  · rw [hrec, hone]
    exact Or.inl ⟨rfl, n, rfl⟩

/-- `SharedRingBufferSPSC`, call by call. -/
def calls (cap : ℕ) : CallRing where
  push := pushCall cap
  pop := popCall .reserveFirst cap

/-- What is in the ring between two calls. -/
def Holds (cap : ℕ) (m : Shared) (total : ℕ) (q : List Record) : Prop :=
  PushInv cap m .idle total ∧
    ∃ ahead, Stream cap m.ring m.control.headPublish ahead m.control.tailPublish ∧ records ahead = q

/-- `SharedRingBufferSPSC` is a queue. -/
theorem calls_fifo (cap : ℕ) : (calls cap).Fifo (Holds cap) where
  fresh := ⟨PushInv.fresh cap, [], rfl, rfl⟩
  push := by
    rintro m total q a choices m' out ⟨hinv, ahead, hs, rfl⟩ h hlt
    obtain ⟨ahead', hinv', hs', hres⟩ := pushCall_spec hinv hs h hlt
    rcases hres with ⟨hacc, n, hrec⟩ | ⟨hacc, hrec⟩
    · exact Or.inl ⟨hacc, n, hinv', ahead', hs', hrec⟩
    · exact Or.inr ⟨hacc, hinv', ahead', hs', hrec⟩
  pop := by
    rintro m total q c choices m' res ⟨hinv, ahead, hs, rfl⟩ h
    have hlt : m.control.tailPublish < 2^64 := lt_of_le_of_lt hinv.bytes_le hinv.bytes_lt
    obtain ⟨ahead', hv, hs', hres⟩ := popCall_spec hs hlt h
    rcases hres with ⟨hnone, hempty, rfl⟩ | ⟨r, p, hrec, hone, hof⟩
    · exact Or.inl ⟨hnone, hempty, hinv.advance hv, [], hs', rfl⟩
    · exact Or.inr ⟨r, records ahead', p, hrec, hone, hof, hinv.advance hv, ahead', hs', rfl⟩
  pop_returns := by
    rintro m total q ⟨hinv, ahead, hs, -⟩ c
    exact popCall_returns .reserveFirst hs (lt_of_le_of_lt hinv.bytes_le hinv.bytes_lt) c

end Spsc

/-! ## The three rings -/

namespace RingMode

/-- The calls of each ring. -/
def calls : RingMode → ℕ → CallRing
  | mpsc => Mpsc.calls
  | mpmc => Mpmc.calls
  | spsc => Spsc.calls

/-- What is in the ring between two calls. -/
def Holds (cap : ℕ) : RingMode → Shared → ℕ → List Record → Prop
  | mpsc => Mpsc.Holds cap
  | mpmc => Mpmc.Holds cap
  | spsc => Spsc.Holds cap

/-- Each of the three is a queue. -/
theorem calls_fifo (cap : ℕ) (ring : RingMode) : (ring.calls cap).Fifo (ring.Holds cap) := by
  cases ring with
  | mpsc => exact Mpsc.calls_fifo cap
  | mpmc => exact Mpmc.calls_fifo cap
  | spsc => exact Spsc.calls_fifo cap

end RingMode

end LfRing

import LfRing.Library.Machine

/-!
# Atomic objects and linearizability

An object is given by what one operation at a time may do to its state. Processes that share the
object invoke operations and get responses in any interleaving, and may die. The object is atomic if
each operation takes effect all at once, at a moment between its invocation and its response.
`Moves` are the runs of an atomic object, and a history of invocations, responses and deaths is
linearizable if it is one of theirs. The operation of a process that dies has had its effect by
then, or will never have it.

To show that the histories of a machine are linearizable, one follows the machine with the atomic
object: every step of the machine is answered by moves that have the same invocations and responses
(`Machine.Run.simulated`). A step that returns from an operation is often answered by two moves, the
effect and the response.

The machines' events do not report every invocation, but their labels do. `logged` reports both.

`FifoRules.object` are the queues, with whatever bound they have: what may be refused and when a pop
may return nothing is left open.
-/

namespace LfRing

/-- An object with states `σ`, operations `ο` and results `ρ`. -/
structure AtomicObject (σ ο ρ : Type) where
  /-- The state at the start. -/
  init : σ
  /-- What an operation may do: the result that it returns, and the state behind it. -/
  effect : σ → ο → ρ → σ → Prop

/-- What the processes `π` see of an object. -/
inductive Action (π ο ρ : Type)
  /-- A process invokes an operation. -/
  | invoke (p : π) (op : ο)
  /-- The operation of a process returns. -/
  | respond (p : π) (res : ρ)
  /-- A process dies. -/
  | die (p : π)
deriving DecidableEq, Repr

/-- How far the operation of a process is. -/
inductive Pending (ο ρ : Type)
  /-- The process has invoked none. -/
  | none
  /-- It has been invoked, and has had no effect. -/
  | invoked (op : ο)
  /-- It has had its effect, and has not returned. -/
  | effected (res : ρ)

/-- The state of an object, and the operations of its processes. -/
structure AtomicState (π σ ο ρ : Type) where
  /-- The operation of each process. -/
  pending : π → Pending ο ρ
  /-- The state of the object. -/
  state : σ

namespace AtomicObject

variable {π σ ο ρ : Type} [DecidableEq π]

/-- The object with no operation under way. -/
def start (O : AtomicObject σ ο ρ) : AtomicState π σ ο ρ := ⟨fun _ => .none, O.init⟩

/-- From `a` the atomic object can get to another state, with these actions on the way. -/
inductive Moves (O : AtomicObject σ ο ρ) (a : AtomicState π σ ο ρ) :
    List (Action π ο ρ) → AtomicState π σ ο ρ → Prop
  /-- Nothing happens. -/
  | refl : Moves O a [] a
  /-- An operation is invoked. -/
  | invoke {h : List (Action π ο ρ)} {b : AtomicState π σ ο ρ} (p : π) (op : ο) : Moves O a h b →
      b.pending p = .none →
      Moves O a (h ++ [.invoke p op]) ⟨Function.update b.pending p (.invoked op), b.state⟩
  /-- An operation takes effect. -/
  | effect {h : List (Action π ο ρ)} {b : AtomicState π σ ο ρ} (p : π) (op : ο) (res : ρ) (s : σ) :
      Moves O a h b → b.pending p = .invoked op → O.effect b.state op res s →
      Moves O a h ⟨Function.update b.pending p (.effected res), s⟩
  /-- An operation returns. -/
  | respond {h : List (Action π ο ρ)} {b : AtomicState π σ ο ρ} (p : π) (res : ρ) : Moves O a h b →
      b.pending p = .effected res →
      Moves O a (h ++ [.respond p res]) ⟨Function.update b.pending p .none, b.state⟩
  /-- A process dies. -/
  | die {h : List (Action π ο ρ)} {b : AtomicState π σ ο ρ} (p : π) : Moves O a h b →
      Moves O a (h ++ [.die p]) ⟨Function.update b.pending p .none, b.state⟩

namespace Moves

variable {O : AtomicObject σ ο ρ} {a b c : AtomicState π σ ο ρ} {h h' : List (Action π ο ρ)}
  {pending : π → Pending ο ρ} {s s' : σ} {p : π} {op : ο} {res : ρ}

/-- The object moves on. -/
theorem trans (hab : O.Moves a h b) (hbc : O.Moves b h' c) : O.Moves a (h ++ h') c := by
  induction hbc with
  | refl => rwa [List.append_nil]
  | invoke p op _ hp ih =>
    rw [← List.append_assoc]
    exact .invoke p op ih hp
  | effect p op res s _ hp he ih => exact .effect p op res s ih hp he
  | respond p res _ hp ih =>
    rw [← List.append_assoc]
    exact .respond p res ih hp
  | die p _ ih =>
    rw [← List.append_assoc]
    exact .die p ih

/-- The response comes with the effect. -/
theorem effect_respond (hp : pending p = .invoked op) (he : O.effect s op res s') :
    O.Moves ⟨pending, s⟩ [.respond p res] ⟨Function.update pending p .none, s'⟩ := by
  have heffect : O.Moves ⟨pending, s⟩ [] ⟨Function.update pending p (.effected res), s'⟩ :=
    .effect p op res s' .refl hp he
  have hrespond := Moves.respond p res heffect (Function.update_self _ _ _)
  rw [Function.update_idem] at hrespond
  exact hrespond

/-- The effect, and the response as well, come with the invocation. -/
theorem invoke_effect_respond (hp : pending p = .none) (he : O.effect s op res s') :
    O.Moves ⟨pending, s⟩ [.invoke p op, .respond p res] ⟨pending, s'⟩ := by
  have hinvoke : O.Moves ⟨pending, s⟩ [.invoke p op] ⟨Function.update pending p (.invoked op), s⟩ :=
    .invoke p op .refl hp
  have hrest := hinvoke.trans (effect_respond (Function.update_self _ _ _) he)
  rw [Function.update_idem, ← hp, Function.update_eq_self] at hrest
  exact hrest

/-- A step inside an operation. -/
theorem inside {x : Pending ο ρ} (hp : pending p = x) :
    O.Moves ⟨pending, s⟩ [] ⟨Function.update pending p x, s⟩ := by
  rw [← hp, Function.update_eq_self]
  exact .refl

/-- Nothing happens that the object's processes see. -/
theorem stay (hab : a = b) : O.Moves a [] b := by
  rw [hab]
  exact .refl

end Moves

end AtomicObject

/-! ## Queues -/

/-- The operations of a queue: a push with an argument, and a pop with another. -/
inductive FifoOp (ι κ : Type)
  /-- Push. -/
  | push (x : ι)
  /-- Pop. -/
  | pop (c : κ)
deriving DecidableEq, Repr

/-- Their results. -/
inductive FifoResult (β : Type)
  /-- Whether the push was accepted. -/
  | pushed (accepted : Bool)
  /-- What was popped, or nothing. -/
  | popped (res : Option β)
deriving DecidableEq, Repr

/-- A queue that is first in, first out: what its operations do beyond that, and when they may
fail. -/
structure FifoRules (ι α κ β : Type) where
  /-- What is queued for the argument of a push. -/
  queues : ι → α → Prop
  /-- A push may be accepted. -/
  mayAccept : List α → ι → Prop
  /-- A push may be refused. -/
  mayRefuse : List α → ι → Prop
  /-- What is returned for the argument of a pop and what was queued. -/
  returns : κ → α → β → Prop
  /-- A pop may return nothing. -/
  mayMiss : List α → Prop

section Fifo

variable {ι α κ β : Type}

/-- What the operations of a queue do. -/
inductive FifoEffect (F : FifoRules ι α κ β) : List α → FifoOp ι κ → FifoResult β → List α → Prop
  /-- A push is accepted. -/
  | push {q : List α} {x : ι} {v : α} (hmay : F.mayAccept q x) (hv : F.queues x v) :
    FifoEffect F q (.push x) (.pushed true) (q ++ [v])
  /-- A push is refused. -/
  | refuse {q : List α} {x : ι} (hmay : F.mayRefuse q x) :
    FifoEffect F q (.push x) (.pushed false) q
  /-- The oldest value is popped. -/
  | pop {q : List α} {c : κ} {v : α} {res : β} (hres : F.returns c v res) :
    FifoEffect F (v :: q) (.pop c) (.popped (some res)) q
  /-- Nothing is popped. -/
  | miss {q : List α} {c : κ} (hmay : F.mayMiss q) : FifoEffect F q (.pop c) (.popped none) q

/-- The queue, with nothing in it at the start. -/
def FifoRules.object (F : FifoRules ι α κ β) :
    AtomicObject (List α) (FifoOp ι κ) (FifoResult β) where
  init := []
  effect := FifoEffect F

end Fifo

namespace Machine

variable {σ ι ε : Type} {M : Machine σ ι ε} {ok : σ → List ε → ι → Prop} {s : σ}

/-- The machine that reports its labels besides its events. -/
def logged (M : Machine σ ι ε) : Machine σ ι (ι × ε) where
  init := M.init
  step := fun s l => (M.step s l).map fun x => (x.1, (l, x.2))

/-- A step of the machine with its label, taken apart. -/
theorem logged_step {s' : σ} {l : ι} {x : ι × ε} (h : M.logged.step s l = some (s', x)) :
    x.1 = l ∧ M.step s l = some (s', x.2) := by
  obtain ⟨⟨s₁, e⟩, hs, heq⟩ := Option.map_eq_some_iff.mp h
  cases heq
  exact ⟨rfl, hs⟩

/-- Without the labels, such a run is a run of the machine. -/
theorem Run.of_logged {tr : List (ι × ε)}
    (h : M.logged.Run (fun s tr l => ok s (tr.map Prod.snd) l) s tr) :
    M.Run ok s (tr.map Prod.snd) := by
  induction h with
  | init => exact .init
  | step l _ hok hs ih =>
    rw [List.map_append]
    exact .step l ih hok (logged_step hs).2

/-- Every run can be had with its labels. -/
theorem Run.exists_logged {tr : List ε} (h : M.Run ok s tr) :
    ∃ tr', M.logged.Run (fun s tr l => ok s (tr.map Prod.snd) l) s tr' ∧ tr'.map Prod.snd = tr := by
  induction h with
  | init => exact ⟨[], .init, rfl⟩
  | @step s tr s' e l _ hok hs ih =>
    obtain ⟨tr', hrun, rfl⟩ := ih
    have hstep : M.logged.step s l = some (s', (l, e)) := Option.map_eq_some_iff.mpr ⟨_, hs, rfl⟩
    exact ⟨tr' ++ [(l, e)], .step l hrun hok hstep, by simp⟩

/-- The history of a run, if `act` are the actions of a step. -/
def history {π ο ρ : Type} (act : ι → ε → List (Action π ο ρ)) (tr : List (ι × ε)) :
    List (Action π ο ρ) :=
  tr.flatMap fun x => act x.1 x.2

/-- A machine that an atomic object can follow: `R` relates the machine's state and events so far to
a state of the object, and every step is answered by moves with the step's actions. The histories of
its runs are then those of the object. As in `Run.invariant_of`, `Q` is a bound on the events that
prefixes inherit. -/
theorem Run.simulated {π τ ο ρ : Type} [DecidableEq π] (O : AtomicObject τ ο ρ)
    (act : ι → ε → List (Action π ο ρ)) (ok : σ → List ε → ι → Prop)
    (R : σ → List ε → AtomicState π τ ο ρ → Prop) (Q : List ε → Prop)
    (hQ : ∀ tr e, Q (tr ++ [e]) → Q tr) (h0 : R M.init [] O.start)
    (hstep : ∀ s tr l s' e a, M.Run ok s tr → ok s tr l → Q (tr ++ [e]) → R s tr a →
      M.step s l = some (s', e) → ∃ a', O.Moves a (act l e) a' ∧ R s' (tr ++ [e]) a')
    {tr : List (ι × ε)} (h : M.logged.Run (fun s tr l => ok s (tr.map Prod.snd) l) s tr)
    (htr : Q (tr.map Prod.snd)) :
    ∃ a, O.Moves O.start (history act tr) a ∧ R s (tr.map Prod.snd) a := by
  induction h with
  | init => exact ⟨O.start, .refl, h0⟩
  | @step s tr s' x l hrun hok hs ih =>
    obtain ⟨rfl, hs⟩ := logged_step hs
    rw [List.map_append] at htr ⊢
    obtain ⟨a, hmoves, ha⟩ := ih (hQ _ _ htr)
    obtain ⟨a', hmoves', ha'⟩ := hstep s _ x.1 s' x.2 a (Run.of_logged hrun) hok htr ha hs
    refine ⟨a', ?_, ha'⟩
    unfold history at hmoves ⊢
    rw [List.flatMap_append, List.flatMap_singleton]
    exact hmoves.trans hmoves'

end Machine

end LfRing

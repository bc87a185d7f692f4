import Mathlib.Data.List.Induction
import Mathlib.Order.RelClasses
import Mathlib.Tactic.Common

/-!
# Machines, runs and invariants

A machine takes one labelled step at a time. The label says which party moves and resolves what the
party does not control, and each step reports one event. A run is a finite sequence of steps from
the initial state, with the list of its events. Nothing bounds the number of parties: a machine over
a function from party names to local states has as many as its labels name.

`Run` also carries a guard on the steps taken, a property of the state before the step, of the
events so far and of the label. The runs of a machine are its runs under the guard that always holds
(`Machine.Reaches`). An invariant is proved once per step (`Run.invariant`). When it needs a bound
on what the run has done so far, a bound that every prefix of the run inherits, `Run.invariant_of`
supplies the bound along with the induction hypothesis.

`exec` runs a machine on a list of labels, so that a particular schedule can be evaluated, and
`exists_reaches` turns such an evaluation into a run.

`startingAt` lets a run start elsewhere, with a guard of its own, such as one that holds from an
event on, and `Run.cut_at` finds such a run behind every event of another. `Run.project` sees the
runs of a part of a machine in those of the whole, and `observe` adds a part that only watches, such
as a count.

`AtLast` speaks about an earlier moment of a run: what held of the events before the last one of
some kind.

`Path` is what a machine can do from a given state on when only some labels may be taken, such as
those of one party that runs alone. `exists_path` shows that a party gets somewhere: as long as it
has not, it has a step that makes a measure smaller.

`call` is a path taken as one: a first step, and then one for each of a list of choices, up to a
final state. It can be evaluated, and it is what `Path` says (`path_of_call`, `exists_call`).
-/

namespace LfRing

/-- A machine over states `σ`, labels `ι` and events `ε`. A label that the state does not enable has
no step. -/
structure Machine (σ ι ε : Type) where
  /-- The state in which every run starts. -/
  init : σ
  /-- One step: the next state and the event it reports. -/
  step : σ → ι → Option (σ × ε)

namespace Machine

variable {σ ι ε : Type}

/-- The runs of a machine whose steps all satisfy the guard `ok`, with the state reached and the
events reported, oldest first. -/
inductive Run (M : Machine σ ι ε) (ok : σ → List ε → ι → Prop) : σ → List ε → Prop
  /-- The run that has not started. -/
  | init : Run M ok M.init []
  /-- A run and one more step. -/
  | step {s : σ} {tr : List ε} {s' : σ} {e : ε} (l : ι) : Run M ok s tr → ok s tr l →
      M.step s l = some (s', e) → Run M ok s' (tr ++ [e])

/-- The runs of a machine, with no condition on their steps. -/
abbrev Reaches (M : Machine σ ι ε) : σ → List ε → Prop := M.Run fun _ _ _ => True

/-- The machine, started in another state. -/
def startingAt (M : Machine σ ι ε) (s : σ) : Machine σ ι ε := { M with init := s }

variable {M : Machine σ ι ε} {ok : σ → List ε → ι → Prop} {s s' : σ} {tr : List ε} {e : ε}

/-- A property of the state and the events that holds at the start and that every step preserves
holds at the end of every run. -/
theorem Run.invariant (P : σ → List ε → Prop) (h0 : P M.init [])
    (hstep : ∀ s tr l s' e, ok s tr l → P s tr → M.step s l = some (s', e) → P s' (tr ++ [e]))
    (h : M.Run ok s tr) : P s tr := by
  induction h with
  | init => exact h0
  | step l _ hok hs ih => exact hstep _ _ l _ _ hok ih hs

/-- An invariant under a bound `Q` on the events of the run. Every prefix of a run that meets the
bound meets it, so a step may use it both before and after. -/
theorem Run.invariant_of (Q : List ε → Prop) (hQ : ∀ tr e, Q (tr ++ [e]) → Q tr)
    (P : σ → List ε → Prop) (h0 : P M.init [])
    (hstep : ∀ s tr l s' e, ok s tr l → Q (tr ++ [e]) → P s tr → M.step s l = some (s', e) →
      P s' (tr ++ [e]))
    (h : M.Run ok s tr) (htr : Q tr) : P s tr := by
  induction h with
  | init => exact h0
  | step l _ hok hs ih => exact hstep _ _ l _ _ hok htr (ih (hQ _ _ htr)) hs

/-- What holds of every step, with the events before it, holds of every event of a run. -/
theorem Run.event (P : List ε → ε → Prop)
    (hstep : ∀ s tr l s' e, M.Run ok s tr → ok s tr l → M.step s l = some (s', e) → P tr e)
    (h : M.Run ok s tr) {pre post : List ε} (htr : tr = pre ++ e :: post) : P pre e := by
  induction h generalizing post with
  | init => simp at htr
  | step l hrun hok hs ih =>
    -- The event is the last one, or one of the run before.
    rcases List.eq_nil_or_concat post with rfl | ⟨post', x, rfl⟩
    · obtain ⟨rfl, hlast⟩ := List.append_inj' htr rfl
      cases hlast
      exact hstep _ _ l _ _ hrun hok hs
    · rw [List.concat_eq_append, ← List.cons_append, ← List.append_assoc] at htr
      exact ih (List.append_inj' htr rfl).1

/-- A run can be cut: its first events are those of a run, and the others are those of a run that
starts where the first one ends. -/
theorem Run.cut {tr' : List ε} (h : M.Run ok s (tr ++ tr')) :
    ∃ s₁, M.Run ok s₁ tr ∧ (M.startingAt s₁).Run (fun s es l => ok s (tr ++ es) l) s tr' := by
  generalize hall : tr ++ tr' = all at h
  induction h generalizing tr' with
  | init =>
    obtain ⟨rfl, rfl⟩ := List.append_eq_nil_iff.mp hall
    exact ⟨_, .init, .init⟩
  | step l hrun hok hs ih =>
    -- The last event is one of those behind the cut, or there are none.
    rcases List.eq_nil_or_concat tr' with rfl | ⟨tr'', x, rfl⟩
    · rw [List.append_nil] at hall
      rw [hall]
      exact ⟨_, .step l hrun hok hs, .init⟩
    · rw [List.concat_eq_append, ← List.append_assoc] at hall
      obtain ⟨rfl, hlast⟩ := List.append_inj' hall rfl
      obtain rfl := List.singleton_inj.mp hlast
      obtain ⟨s₁, hfirst, hbehind⟩ := ih rfl
      rw [List.concat_eq_append]
      exact ⟨s₁, hfirst, .step l hbehind hok hs⟩

/-- The first events of a run are those of a run. -/
theorem Run.front {tr' : List ε} (h : M.Run ok s (tr ++ tr')) : ∃ s', M.Run ok s' tr := by
  obtain ⟨s₁, hfirst, -⟩ := h.cut
  exact ⟨s₁, hfirst⟩

/-- The step that reported an event of a run, with the runs before and behind it. -/
theorem Run.cut_at {pre post : List ε} (h : M.Run ok s (pre ++ e :: post)) :
    ∃ s₀ l s₁, M.Run ok s₀ pre ∧ ok s₀ pre l ∧ M.step s₀ l = some (s₁, e) ∧
      (M.startingAt s₁).Run (fun s es l => ok s (pre ++ e :: es) l) s post := by
  rw [List.append_cons] at h
  obtain ⟨s₁, hfirst, hbehind⟩ := h.cut
  generalize hall : pre ++ [e] = all at hfirst
  cases hfirst with
  | init => simp at hall
  | step l hrun hok hs =>
    obtain ⟨rfl, hlast⟩ := List.append_inj' hall rfl
    obtain rfl := List.singleton_inj.mp hlast
    simp only [← List.append_cons] at hbehind
    exact ⟨_, l, s₁, hrun, hok, hs, hbehind⟩

/-- A run under one guard is a run under another that follows from it in every state with `I`, which
the run's steps keep. -/
theorem Run.mono_of {ok' : σ → List ε → ι → Prop} (I : σ → Prop) (h0 : I M.init)
    (hI : ∀ s tr l s' e, ok s tr l → I s → M.step s l = some (s', e) → I s')
    (hok : ∀ s tr l, I s → ok s tr l → ok' s tr l) (h : M.Run ok s tr) : M.Run ok' s tr := by
  have hboth : M.Run ok' s tr ∧ I s := by
    refine h.invariant (fun s tr => M.Run ok' s tr ∧ I s) ⟨.init, h0⟩ ?_
    rintro s tr l s' e hl ⟨hrun, hs⟩ hstep
    exact ⟨.step l hrun (hok s tr l hs hl) hstep, hI s tr l s' e hl hs hstep⟩
  exact hboth.1

/-- A machine that contains another one: what each of its steps does to the part `f` of the state is
nothing, or a step of the other machine that meets its guard, whose event `k` reports. Its runs are
then runs of the other machine. -/
theorem Run.project_of {σ' ι' ε' : Type} {N : Machine σ' ι' ε'} {ok' : σ' → List ε' → ι' → Prop}
    (f : σ → σ') (k : ε → List ε') (h0 : f M.init = N.init)
    (hstep : ∀ s tr l s' e, ok s tr l → M.step s l = some (s', e) → (f s' = f s ∧ k e = []) ∨
      ∃ l' e', ok' (f s) (tr.flatMap k) l' ∧ N.step (f s) l' = some (f s', e') ∧ k e = [e'])
    (h : M.Run ok s tr) : N.Run ok' (f s) (tr.flatMap k) := by
  induction h with
  | init =>
    rw [h0]
    exact .init
  | step l _ hok hs ih =>
    rw [List.flatMap_append, List.flatMap_singleton]
    rcases hstep _ _ l _ _ hok hs with ⟨hsame, hnone⟩ | ⟨l', e', hok', hs', hone⟩
    · rw [hsame, hnone, List.append_nil]
      exact ih
    · rw [hone]
      exact .step l' ih hok' hs'

/-- The same without guards. -/
theorem Run.project {σ' ι' ε' : Type} {N : Machine σ' ι' ε'} (f : σ → σ') (k : ε → List ε')
    (h0 : f M.init = N.init)
    (hstep : ∀ s l s' e, M.step s l = some (s', e) → (f s' = f s ∧ k e = []) ∨
      ∃ l' e', N.step (f s) l' = some (f s', e') ∧ k e = [e'])
    (h : M.Run ok s tr) : N.Reaches (f s) (tr.flatMap k) := by
  refine h.project_of f k h0 fun s tr l s' e _ hs => ?_
  rcases hstep s l s' e hs with hnone | ⟨l', e', hs', hone⟩
  · exact Or.inl hnone
  · exact Or.inr ⟨l', e', trivial, hs', hone⟩

/-- The machine together with an observer: a value that is computed along the run, from the state
before each step and its label, and that no step depends on. -/
def observe {τ : Type} (M : Machine σ ι ε) (start : τ) (next : σ → ι → τ → τ) :
    Machine (σ × τ) ι ε where
  init := (M.init, start)
  step := fun s l => (M.step s.1 l).map fun x => ((x.1, next s.1 l s.2), x.2)

/-- A step of the machine under observation, taken apart. -/
theorem observe_step {τ : Type} {start : τ} {next : σ → ι → τ → τ} {x x' : σ × τ} {l : ι}
    (h : (M.observe start next).step x l = some (x', e)) :
    M.step x.1 l = some (x'.1, e) ∧ x'.2 = next x.1 l x.2 := by
  obtain ⟨⟨s₁, e₁⟩, hs, heq⟩ := Option.map_eq_some_iff.mp h
  cases heq
  exact ⟨hs, rfl⟩

/-- Every run can be observed. -/
theorem Run.observed {τ : Type} (start : τ) (next : σ → ι → τ → τ) (h : M.Reaches s tr) :
    ∃ t, (M.observe start next).Reaches (s, t) tr := by
  induction h with
  | init => exact ⟨start, .init⟩
  | step l _ _ hs ih =>
    obtain ⟨t, hrun⟩ := ih
    exact ⟨next _ l t, .step l hrun trivial (Option.map_eq_some_iff.mpr ⟨_, hs, rfl⟩)⟩

/-- The run of a machine on a list of labels from a state, with the events appended to `tr`. The
result is `none` as soon as a label is not enabled, or fails the test `g` of a guard. -/
def exec (M : Machine σ ι ε) (g : σ → List ε → ι → Bool) :
    σ → List ε → List ι → Option (σ × List ε)
  | s, tr, [] => some (s, tr)
  | s, tr, l :: ls =>
    if g s tr l then
      match M.step s l with
      | none => none
      | some (s', e) => exec M g s' (tr ++ [e]) ls
    else none

/-- A run goes on along the labels that `exec` accepts, if the guard holds of these labels where
the test does. -/
theorem Run.exec_of_mem {g : σ → List ε → ι → Bool} (ls : List ι)
    (hg : ∀ l ∈ ls, ∀ s tr, g s tr l = true → ok s tr l) {s₀ : σ} {tr₀ : List ε}
    (h : M.Run ok s₀ tr₀) (hex : M.exec g s₀ tr₀ ls = some (s, tr)) : M.Run ok s tr := by
  induction ls generalizing s₀ tr₀ with
  | nil =>
    simp only [Machine.exec, Option.some.injEq, Prod.mk.injEq] at hex
    obtain ⟨rfl, rfl⟩ := hex
    exact h
  | cons l ls ih =>
    simp only [Machine.exec] at hex
    split at hex
    · rename_i hl
      split at hex
      · cases hex
      · rename_i s' e hs
        have hl' := hg l (List.mem_cons_self ..) _ _ hl
        exact ih (fun l hmem => hg l (List.mem_cons_of_mem _ hmem)) (.step l h hl' hs) hex
    · cases hex

/-- The same if the guard holds wherever the test does. -/
theorem Run.exec {g : σ → List ε → ι → Bool} (hg : ∀ s tr l, g s tr l = true → ok s tr l)
    (ls : List ι) {s₀ : σ} {tr₀ : List ε} (h : M.Run ok s₀ tr₀)
    (hex : M.exec g s₀ tr₀ ls = some (s, tr)) : M.Run ok s tr :=
  exec_of_mem ls (fun l _ s tr => hg s tr l) h hex

/-- A schedule whose labels are all enabled and pass the guard's test is a guarded run, and a test
that evaluates to true at its end holds of it. -/
theorem exists_run (M : Machine σ ι ε) (g : σ → List ε → ι → Bool)
    (hg : ∀ s tr l, g s tr l = true → ok s tr l) (ls : List ι) (p : σ → List ε → Bool)
    (h : ((M.exec g M.init [] ls).any fun x => p x.1 x.2) = true) :
    ∃ s tr, M.Run ok s tr ∧ p s tr = true := by
  obtain ⟨⟨s, tr⟩, hex, hp⟩ := (Option.any_eq_true _ _).mp h
  exact ⟨s, tr, Run.exec hg ls .init hex, hp⟩

/-- The same without a guard. -/
theorem exists_reaches (M : Machine σ ι ε) (ls : List ι) (p : σ → List ε → Bool)
    (h : ((M.exec (fun _ _ _ => true) M.init [] ls).any fun x => p x.1 x.2) = true) :
    ∃ s tr, M.Reaches s tr ∧ p s tr = true :=
  M.exists_run (fun _ _ _ => true) (fun _ _ _ _ => trivial) ls p h

/-- The machine can go from `s` to `s'` by labels that satisfy `who`, with the events `es`. -/
inductive Path (M : Machine σ ι ε) (who : ι → Prop) (s : σ) : List ε → σ → Prop
  /-- The machine stays where it is. -/
  | refl : Path M who s [] s
  /-- One more step. -/
  | step {es : List ε} {s₁ s' : σ} {e : ε} (l : ι) : Path M who s es s₁ → who l →
      M.step s₁ l = some (s', e) → Path M who s (es ++ [e]) s'

section Paths

variable {who who' : ι → Prop} {es es' : List ε} {s₁ : σ}

/-- The path of one step. -/
theorem Path.single (l : ι) (hl : who l) (hs : M.step s l = some (s', e)) :
    M.Path who s [e] s' :=
  .step l .refl hl hs

/-- Two paths, one behind the other. -/
theorem Path.trans (h : M.Path who s es s₁) (h' : M.Path who s₁ es' s') :
    M.Path who s (es ++ es') s' := by
  induction h' with
  | refl => rwa [List.append_nil]
  | step l _ hl hs ih =>
    rw [← List.append_assoc]
    exact .step l ih hl hs

/-- A path goes on a run. -/
theorem Run.path (h : M.Reaches s tr) (hp : M.Path who s es s') : M.Reaches s' (tr ++ es) := by
  induction hp with
  | refl => rwa [List.append_nil]
  | step l _ _ hs ih =>
    rw [← List.append_assoc]
    exact .step l ih trivial hs

/-- A property that every step of the path keeps holds at its end. -/
theorem Path.invariant (P : σ → List ε → Prop)
    (hstep : ∀ s es l s' e, who l → P s es → M.step s l = some (s', e) → P s' (es ++ [e]))
    (hp : M.Path who s es s') (h : P s []) : P s' es := by
  induction hp with
  | refl => exact h
  | step l _ hl hs ih => exact hstep _ _ l _ _ hl ih hs

/-- A property that holds at the end of a path, and before every step behind which it holds, holds
at the path's start, with the events that are to come. -/
theorem Path.backward (P : σ → List ε → Prop)
    (hstep : ∀ s l s₁ e es, who l → M.step s l = some (s₁, e) → P s₁ es → P s (e :: es))
    (hp : M.Path who s es s') (h : P s' []) : P s es := by
  -- For all events behind the path, since each step is the last one of a shorter path.
  have hall : ∀ es', P s' es' → P s (es ++ es') := by
    clear h
    induction hp with
    | refl => exact fun es' h => h
    | step l _ hl hs ih =>
      intro es' h
      rw [List.append_assoc]
      exact ih _ (hstep _ l _ _ _ hl hs h)
  have hend := hall [] h
  rwa [List.append_nil] at hend

/-- A path by some labels is one by more labels. -/
theorem Path.mono (hw : ∀ l, who l → who' l) (hp : M.Path who s es s') : M.Path who' s es s' := by
  induction hp with
  | refl => exact .refl
  | step l _ hl hs ih => exact .step l ih (hw l hl) hs

/-- What one machine does, another does whose steps follow those of the first. -/
theorem Path.map {σ' ι' ε' : Type} {N : Machine σ' ι' ε'} (f : σ → σ') (g : ι → ι') (k : ε → ε')
    {who' : ι' → Prop} (hg : ∀ l, who l → who' (g l))
    (hstep : ∀ s l s' e, who l → M.step s l = some (s', e) → N.step (f s) (g l) = some (f s', k e))
    (hp : M.Path who s es s') : N.Path who' (f s) (es.map k) (f s') := by
  induction hp with
  | refl => exact .refl
  | step l _ hl hs ih =>
    rw [List.map_append]
    exact .step (g l) ih (hg l hl) (hstep _ l _ _ hl hs)

/-- If every state that is not final has a step that keeps `P` and makes the measure `μ` smaller, a
final state is reached. -/
theorem exists_path {α : Type} [LT α] [WellFoundedLT α] (μ : σ → α) (P : σ → List ε → Prop)
    (final : σ → Prop)
    (hstep : ∀ s es, P s es → ¬ final s → ∃ l s' e, who l ∧ M.step s l = some (s', e) ∧
      P s' (es ++ [e]) ∧ μ s' < μ s)
    (h : P s []) : ∃ es s', M.Path who s es s' ∧ final s' ∧ P s' es := by
  -- From wherever the path has come, by induction on the measure there.
  have hfrom : ∀ (a : α) (s₁ : σ) (es : List ε), μ s₁ = a → M.Path who s es s₁ → P s₁ es →
      ∃ es s', M.Path who s es s' ∧ final s' ∧ P s' es := by
    intro a
    induction a using WellFoundedLT.induction with
    | _ a ih =>
      intro s₁ es ha hp hP
      by_cases hf : final s₁
      · exact ⟨es, s₁, hp, hf, hP⟩
      · obtain ⟨l, s', e, hl, hs, hP', hlt⟩ := hstep s₁ es hP hf
        rw [ha] at hlt
        exact ih _ hlt s' _ rfl (.step l hp hl hs) hP'
  exact hfrom _ s [] rfl .refl h

end Paths

section Calls

variable {next : Bool → ι} {final : σ → Bool} {start : ι} {choices : List Bool} {es : List ε}

/-- A complete call: the step `start`, then the step that each choice stands for, to a final state.
The result is `none` if the choices do not make a complete call. -/
def call (M : Machine σ ι ε) (next : Bool → ι) (final : σ → Bool) (start : ι) (choices : List Bool)
    (s : σ) : Option (σ × List ε) :=
  (M.exec (fun _ _ _ => true) s [] (start :: choices.map next)).filter fun x => final x.1

/-- The labels of one list, and then those of another. -/
theorem exec_append (g : σ → List ε → ι → Bool) (ls ls' : List ι) (s : σ) (tr : List ε) :
    M.exec g s tr (ls ++ ls') = (M.exec g s tr ls).bind fun x => M.exec g x.1 x.2 ls' := by
  induction ls generalizing s tr with
  | nil => rfl
  | cons l ls ih =>
    rw [List.cons_append, exec, exec]
    split
    · cases M.step s l with
      | none => rfl
      | some x => exact ih x.1 _
    · rfl

/-- What the choices do is a path. -/
theorem path_of_exec (h : M.exec (fun _ _ _ => true) s tr (choices.map next) = some (s', es)) :
    ∃ es', es = tr ++ es' ∧ M.Path (fun l => ∃ b, l = next b) s es' s' := by
  induction choices generalizing s tr with
  | nil =>
    simp only [List.map_nil, exec, Option.some.injEq, Prod.mk.injEq] at h
    obtain ⟨rfl, rfl⟩ := h
    exact ⟨[], by simp, .refl⟩
  | cons b choices ih =>
    simp only [List.map_cons, exec, if_true] at h
    split at h
    · cases h
    · rename_i s₁ e hs
      obtain ⟨es', rfl, hp⟩ := ih h
      refine ⟨[e] ++ es', by simp, ?_⟩
      exact (Path.single (next b) ⟨b, rfl⟩ hs).trans hp

/-- A complete call is its first step and a path to a final state. -/
theorem path_of_call (h : M.call next final start choices s = some (s', es)) :
    ∃ s₁ e es', M.step s start = some (s₁, e) ∧ es = e :: es' ∧
      M.Path (fun l => ∃ b, l = next b) s₁ es' s' ∧ final s' = true := by
  obtain ⟨hex, hfinal⟩ := Option.filter_eq_some_iff.mp h
  simp only [exec, if_true] at hex
  split at hex
  · cases hex
  · rename_i s₁ e hs
    obtain ⟨es', rfl, hp⟩ := path_of_exec hex
    exact ⟨s₁, e, es', hs, rfl, hp, hfinal⟩

/-- A path of the choices' steps is what some choices do. -/
theorem exists_exec (hp : M.Path (fun l => ∃ b, l = next b) s es s') (tr : List ε) :
    ∃ choices : List Bool,
      M.exec (fun _ _ _ => true) s tr (choices.map next) = some (s', tr ++ es) := by
  induction hp with
  | refl => exact ⟨[], by simp [exec]⟩
  | step l _ hl hs ih =>
    obtain ⟨choices, hex⟩ := ih
    obtain ⟨b, rfl⟩ := hl
    refine ⟨choices ++ [b], ?_⟩
    rw [List.map_append, exec_append, hex]
    simp [exec, hs]

variable (final start) in
/-- A first step and a path to a final state are a complete call. -/
theorem exists_call {s₁ : σ} (hs : M.step s start = some (s₁, e))
    (hp : M.Path (fun l => ∃ b, l = next b) s₁ es s') (hfinal : final s' = true) :
    ∃ choices, M.call next final start choices s = some (s', e :: es) := by
  obtain ⟨choices, hex⟩ := exists_exec hp [e]
  refine ⟨choices, Option.filter_eq_some_iff.mpr ⟨?_, hfinal⟩⟩
  simpa [exec, hs] using hex

end Calls

end Machine

/-- The last event of the kind `p` has happened, and `Q` held of the events before it. -/
def AtLast {ε : Type} (p : ε → Prop) (Q : List ε → Prop) (tr : List ε) : Prop :=
  ∃ pre e mid, tr = pre ++ e :: mid ∧ p e ∧ (∀ x ∈ mid, ¬ p x) ∧ Q pre

namespace AtLast

variable {ε : Type} {p : ε → Prop} {Q Q' : List ε → Prop} {tr : List ε} {e : ε}

/-- An event of the kind has just happened. -/
theorem now (he : p e) (hQ : Q tr) : AtLast p Q (tr ++ [e]) :=
  ⟨tr, e, [], rfl, he, by simp, hQ⟩

/-- An event of another kind does not matter. -/
theorem later (h : AtLast p Q tr) (he : ¬ p e) : AtLast p Q (tr ++ [e]) := by
  obtain ⟨pre, x, mid, rfl, hx, hmid, hQ⟩ := h
  refine ⟨pre, x, mid ++ [e], by simp, hx, ?_, hQ⟩
  intro y hy
  rcases List.mem_append.mp hy with hy | hy
  · exact hmid y hy
  · rw [List.mem_singleton.mp hy]
    exact he

/-- What follows from what held then. -/
theorem imp (h : AtLast p Q tr) (hQ : ∀ pre, Q pre → Q' pre) : AtLast p Q' tr := by
  obtain ⟨pre, x, mid, heq, hx, hmid, hpre⟩ := h
  exact ⟨pre, x, mid, heq, hx, hmid, hQ pre hpre⟩

/-- With one more event behind: it is the last one of its kind, or it does not matter. -/
theorem of_append (h : AtLast p Q (tr ++ [e])) : (p e ∧ Q tr) ∨ ¬ p e ∧ AtLast p Q tr := by
  obtain ⟨pre, x, mid, heq, hx, hmid, hQ⟩ := h
  rcases List.eq_nil_or_concat mid with rfl | ⟨mid', y, rfl⟩
  · obtain ⟨rfl, hlast⟩ := List.append_inj' heq rfl
    cases hlast
    exact Or.inl ⟨hx, hQ⟩
  · rw [List.concat_eq_append, ← List.cons_append, ← List.append_assoc] at heq
    obtain ⟨rfl, hlast⟩ := List.append_inj' heq rfl
    cases hlast
    refine Or.inr ⟨hmid e (by simp), pre, x, mid', rfl, hx, fun y hy => hmid y ?_, hQ⟩
    simp [hy]

/-- The same moment in a longer history, of which `k` picks the events. -/
theorem of_flatMap {ε' : Type} {p : ε' → Prop} {Q : List ε' → Prop} {k : ε → List ε'}
    (hk : ∀ e, k e = [] ∨ ∃ x, k e = [x]) (h : AtLast p Q (tr.flatMap k)) :
    AtLast (fun e => ∃ x ∈ k e, p x) (fun pre => Q (pre.flatMap k)) tr := by
  induction tr using List.reverseRecOn with
  | nil =>
    obtain ⟨pre, x, mid, heq, -⟩ := h
    simp at heq
  | append_singleton tr e ih =>
    rw [List.flatMap_append, List.flatMap_singleton] at h
    rcases hk e with hnone | ⟨x, hone⟩
    · rw [hnone, List.append_nil] at h
      exact (ih h).later (by simp [hnone])
    · rw [hone] at h
      rcases h.of_append with ⟨hx, hQ⟩ | ⟨hx, hold⟩
      · exact .now ⟨x, by simp [hone], hx⟩ hQ
      · exact (ih hold).later (by simpa [hone] using hx)

end AtLast

end LfRing

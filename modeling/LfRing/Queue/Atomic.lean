import LfRing.Library.Atomic
import LfRing.Queue.Fifo

/-!
# `SPSCQueue` is an atomic bounded queue

What `SPSCQueue<T, Capacity>` is for: a queue of at most `Capacity` values, whose `try_push` returns
false exactly if the queue is full and whose `try_pop` returns false exactly if it is empty.
`boundedRules` says that of one call at a time. `atomic_bounded_queue` shows that the calls of the
two parties, interleaved at single accesses and bytes, look as if each was made at one moment
between its call and its return: a push when `tail_publish` is stored, a pop when `head_publish` is,
and a call that returns false when it loads the other party's counter. These are the last accesses
of the calls, so every call takes effect when it returns, and one whose party dies has none.
-/

namespace LfRing.Queue

variable {g : Geometry}

/-! ## The queue that the code implements -/

/-- The two parties. -/
inductive Party
  /-- The producer. -/
  | producer
  /-- The consumer. -/
  | consumer
deriving DecidableEq, Repr

/-- A queue of at most `capacity` values. -/
def boundedRules (capacity : ℕ) : FifoRules (List UInt8) (List UInt8) Unit (List UInt8) where
  queues := fun v w => v = w
  mayAccept := fun q _ => q.length < capacity
  mayRefuse := fun q _ => q.length = capacity
  returns := fun _ v w => v = w
  mayMiss := fun q => q = []

/-- The operations of such a queue. -/
abbrev Op := FifoOp (List UInt8) Unit

/-- Their results. -/
abbrev Result := FifoResult (List UInt8)

/-- What the parties see of a step: the calls of `try_push` and `try_pop`, what they return, and the
producer's death. -/
def actions : Label g → Event g → List (Action Party Op Result)
  | .producer (.call v), _ => [.invoke .producer (.push v.1)]
  | .producer .crash, _ => [.die .producer]
  | _, .producer .refused => [.respond .producer (.pushed false)]
  | _, .producer (.pushed _) => [.respond .producer (.pushed true)]
  | .consumer (.call _), _ => [.invoke .consumer (.pop ())]
  | _, .consumer .refused => [.respond .consumer (.popped none)]
  | _, .consumer (.popped out) => [.respond .consumer (.popped (some out))]
  | _, _ => []

/-! ## The state of the queue -/

/-- The call that the producer is in. -/
def PushPc.pending : PushPc g.sizeofT → Pending Op Result
  | gone => .none
  | idle => .none
  | loadTail v => .invoked (.push v.1)
  | loadHead v _ => .invoked (.push v.1)
  | copy v _ _ => .invoked (.push v.1)
  | storeTail v _ => .invoked (.push v.1)

/-- The call that the consumer is in. -/
def PopPc.pending : PopPc → Pending Op Result
  | idle => .none
  | _ => .invoked (.pop ())

/-- The calls that the parties are in. -/
def State.pending (s : State g) : Party → Pending Op Result
  | .producer => s.producer.pending
  | .consumer => s.consumer.pending

/-- The values that were pushed and not popped yet. -/
def waiting (tr : List (Event g)) : List (List UInt8) := (pushed tr).drop (popped tr).length

/-- The state of the bounded queue, behind the events so far. -/
def abstraction (s : State g) (tr : List (Event g)) :
    AtomicState Party (List (List UInt8)) Op Result :=
  ⟨s.pending, waiting tr⟩

/-- A `try_push` that copies its element has not taken effect. -/
@[simp] theorem PushPc.pending_copying (v : Element g.sizeofT) (t i : ℕ) :
    (copying v t i : PushPc g.sizeofT).pending = .invoked (.push v.1) := by
  unfold copying
  split <;> rfl

/-- A `try_pop` that copies an element has not taken effect. -/
@[simp] theorem PopPc.pending_copying (h i : ℕ) (out : List UInt8) :
    (copying g h i out).pending = .invoked (.pop ()) := by
  unfold copying
  split <;> rfl

/-- The producer's step changes the producer's call. -/
theorem pending_producer (s : State g) (m : Shared) (pc : PushPc g.sizeofT) :
    State.pending { s with mem := m, producer := pc } =
      Function.update s.pending .producer pc.pending := by
  funext p
  cases p <;> rfl

/-- The consumer's step changes the consumer's call. -/
theorem pending_consumer (s : State g) (m : Shared) (pc : PopPc) :
    State.pending { s with mem := m, consumer := pc } =
      Function.update s.pending .consumer pc.pending := by
  funext p
  cases p <;> rfl

section Waiting

variable {start : ℕ} {s : State g} {tr : List (Event g)} {e : Event g}

/-- A step that commits and consumes nothing leaves the queue as it is. -/
theorem waiting_quiet (hpush : e.pushed? = []) (hpop : e.popped? = []) :
    waiting (tr ++ [e]) = waiting tr := by
  unfold waiting
  rw [pushed_append, popped_append, hpush, hpop, List.append_nil, List.append_nil]

/-- A value that is pushed comes in at the end. -/
theorem Inv.waiting_push (h : Inv start s tr) (v : Element g.sizeofT) :
    waiting (tr ++ [.producer (.pushed v)]) = waiting tr ++ [v.1] := by
  unfold waiting
  rw [pushed_append, popped_append]
  show (pushed tr ++ [v.1]).drop (popped tr ++ []).length = _
  rw [List.append_nil, List.drop_append_of_le_length h.consumed.length_le]

/-- A value that is popped goes out at the front. -/
theorem waiting_pop {s' : State g} {out : List UInt8}
    (h' : Inv start s' (tr ++ [.consumer (.popped out)])) :
    waiting tr = out :: waiting (tr ++ [.consumer (.popped out)]) := by
  have hpushed : pushed (tr ++ [.consumer (.popped out)]) = pushed tr := by simp [Event.pushed?]
  have hpopped : popped (tr ++ [.consumer (.popped out)]) = popped tr ++ [out] := popped_append _ _
  obtain ⟨rest, hrest⟩ := h'.consumed
  rw [hpushed, hpopped] at hrest
  unfold waiting
  rw [hpushed, hpopped, ← hrest, List.drop_left, List.append_assoc, List.drop_left]
  rfl

/-- The counters' difference is the number of values in the queue. -/
theorem length_waiting (start : ℕ) (tr : List (Event g)) :
    (waiting tr).length = tailPos start tr - headPos start tr := by
  unfold waiting tailPos headPos
  rw [List.length_drop]
  omega

end Waiting

/-! ## Every step is a step of the bounded queue -/

section Steps

variable {start : ℕ} {s : State g} {tr : List (Event g)}

/-- A step of the producer, as the bounded queue sees it. -/
theorem Inv.producer_moves (h : Inv start s tr) {l : PushLabel g.sizeofT} {eff : Effect}
    {pc : PushPc g.sizeofT} {pe : PushEvent g.sizeofT}
    (hs : s.producer.step g s.mem l = some (eff, pc, pe)) :
    (boundedRules g.capacity).object.Moves (abstraction s tr) (actions (.producer l) (.producer pe))
      (abstraction { s with mem := eff.apply s.mem, producer := pc } (tr ++ [.producer pe])) := by
  unfold abstraction
  rw [pending_producer s (eff.apply s.mem) pc]
  have hpending : s.pending .producer = s.producer.pending := rfl
  have hok := h.producer
  generalize hpc : s.producer = pc₀ at hs hpending hok
  -- A step inside the call changes nothing that the queue's users see.
  have hinside : ∀ v : Element g.sizeofT, pc₀.pending = .invoked (.push v.1) →
      pc.pending = .invoked (.push v.1) → pe = .internal →
      (boundedRules g.capacity).object.Moves ⟨s.pending, waiting tr⟩ []
        ⟨Function.update s.pending .producer pc.pending, waiting (tr ++ [.producer pe])⟩ := by
    rintro v hv hv' rfl
    refine .stay ?_
    rw [hv', ← hv, ← hpending, Function.update_eq_self, waiting_quiet rfl rfl]
  cases l with
  | crash =>
    have hgone : pc = .gone ∧ pe = .crashed := by
      cases pc₀ <;> cases hs <;> exact ⟨rfl, rfl⟩
    obtain ⟨rfl, rfl⟩ := hgone
    rw [waiting_quiet rfl rfl]
    exact .die Party.producer .refl
  | call v =>
    cases pc₀ <;> cases hs
    rw [waiting_quiet rfl rfl]
    exact .invoke Party.producer (FifoOp.push v.1) .refl hpending
  | run =>
    cases pc₀ with
    | gone => cases hs
    | idle => cases hs
    | loadTail v =>
      cases hs
      exact hinside v rfl rfl rfl
    | loadHead v t =>
      simp only [PushPc.step, PushPc.decideFull] at hs
      split_ifs at hs with hfull
      · cases hs
        rw [waiting_quiet rfl rfl]
        refine .effect_respond hpending (FifoEffect.refuse ?_)
        -- The head that is loaded is the present one, and nobody else moves the tail.
        show (waiting tr).length = g.capacity
        have ht : t = u64 (tailPos start tr) := hok
        rw [ht, h.head, h.sub64_eq] at hfull
        rw [length_waiting start]
        have hle := h.tailPos_le
        omega
      · cases hs
        exact hinside v rfl (PushPc.pending_copying v t 0) rfl
    | copy v t i =>
      cases hs
      exact hinside v rfl (PushPc.pending_copying v t (i + 1)) rfl
    | storeTail v t =>
      cases hs
      rw [h.waiting_push]
      refine .effect_respond hpending (FifoEffect.push ?_ rfl)
      show (waiting tr).length < g.capacity
      obtain ⟨-, hroom⟩ := hok
      rw [length_waiting start]
      have hle := h.headPos_le
      omega

/-- A step of the consumer, as the bounded queue sees it. -/
theorem Inv.consumer_moves (h : Inv start s tr) {l : PopLabel g.sizeofT} {eff : Effect} {pc : PopPc}
    {pe : PopEvent} (hs : s.consumer.step g s.mem l = some (eff, pc, pe)) :
    (boundedRules g.capacity).object.Moves (abstraction s tr) (actions (.consumer l) (.consumer pe))
      (abstraction { s with mem := eff.apply s.mem, consumer := pc } (tr ++ [.consumer pe])) := by
  have hnext := h.consumer_step hs
  have hempty : s.consumer.step g s.mem l = some (eff, pc, .refused) → popped tr = pushed tr :=
    h.popped_eq_of_refused
  unfold abstraction
  rw [pending_consumer s (eff.apply s.mem) pc]
  have hpending : s.pending .consumer = s.consumer.pending := rfl
  generalize hpc : s.consumer = pc₀ at hs hpending hempty
  have hinside : pc₀.pending = .invoked (.pop ()) → pc.pending = .invoked (.pop ()) →
      pe = .internal → (boundedRules g.capacity).object.Moves ⟨s.pending, waiting tr⟩ []
        ⟨Function.update s.pending .consumer pc.pending, waiting (tr ++ [.consumer pe])⟩ := by
    rintro hv hv' rfl
    refine .stay ?_
    rw [hv', ← hv, ← hpending, Function.update_eq_self, waiting_quiet rfl rfl]
  cases l with
  | call out =>
    cases pc₀ <;> cases hs
    rw [waiting_quiet rfl rfl]
    exact .invoke Party.consumer (FifoOp.pop ()) .refl hpending
  | run =>
    cases pc₀ with
    | idle => cases hs
    | loadHead out =>
      cases hs
      exact hinside rfl rfl rfl
    | loadTail p out =>
      have hrefused := hempty
      simp only [PopPc.step, PopPc.decideEmpty] at hs hrefused
      split_ifs at hs hrefused with heq
      · cases hs
        rw [waiting_quiet rfl rfl]
        refine .effect_respond hpending (FifoEffect.miss ?_)
        -- All that was pushed has been popped.
        show waiting tr = []
        unfold waiting
        rw [hrefused rfl, List.drop_length]
      · cases hs
        exact hinside rfl (PopPc.pending_copying p 0 out) rfl
    | copy p i out =>
      cases hs
      exact hinside rfl (PopPc.pending_copying _ _ _) rfl
    | storeHead p out =>
      cases hs
      rw [waiting_pop hnext]
      exact .effect_respond hpending (FifoEffect.pop rfl)

/-- A claim takes the place of a dead producer, and neither is in a call. -/
theorem pending_claim {file : Mapping} {s' : State g} {e : Event g}
    (hs : step file s .claim = some (s', e)) :
    s'.pending = s.pending ∧ actions .claim e = [] ∧ e.pushed? = [] ∧ e.popped? = [] := by
  simp only [step] at hs
  split at hs
  · rename_i hgone
    simp only [State.claim, Option.some.injEq] at hs
    split at hs
    · cases hs
      refine ⟨?_, rfl, rfl, rfl⟩
      funext p
      cases p with
      | producer =>
        show Pending.none = s.producer.pending
        rw [hgone]
        rfl
      | consumer => rfl
    · cases hs
      exact ⟨rfl, rfl, rfl, rfl⟩
  · cases hs

/-- Every step of the queue's machine is answered by moves of the bounded queue. -/
theorem Inv.moves {file : Mapping} {s' : State g} {e : Event g} {l : Label g} (h : Inv start s tr)
    (hs : (machine g file).step s l = some (s', e)) :
    (boundedRules g.capacity).object.Moves (abstraction s tr) (actions l e)
      (abstraction s' (tr ++ [e])) := by
  change Queue.step file s l = some (s', e) at hs
  cases l with
  | producer l =>
    obtain ⟨eff, pc, pe, hstep, rfl, rfl⟩ := step_producer hs
    exact h.producer_moves hstep
  | consumer l =>
    obtain ⟨eff, pc, pe, hstep, rfl, rfl⟩ := step_consumer hs
    exact h.consumer_moves hstep
  | claim =>
    obtain ⟨hpending, hactions, hpush, hpop⟩ := pending_claim hs
    rw [hactions]
    refine .stay ?_
    unfold abstraction
    rw [hpending, waiting_quiet hpush hpop]

end Steps

/-- `SPSCQueue` is an atomic queue of at most `Capacity` values. From every file in which both
counters have the same value, also where they wrap, for slots that fit into the range of offsets, in
every interleaving of single accesses and bytes of the two parties, of a producer that may die at
any step and of those that take its place: the calls of `try_push` and `try_pop` and what they
return are a history of the bounded queue, in which a push is refused only if there are `Capacity`
values in the queue and a pop returns false only if there is none. What is in the queue then are the
values that were pushed and not popped. -/
theorem atomic_bounded_queue {file : Mapping} {start : ℕ} {s : State g}
    {tr : List (Label g × Event g)} (hfits : g.Fits) (hlt : start < 2^64)
    (htail : file.shared.control.tailPublish = start)
    (hhead : file.shared.control.headPublish = start)
    (hrun : (machine g file).logged.Reaches s tr) :
    ∃ a, (boundedRules g.capacity).object.Moves (boundedRules g.capacity).object.start
        (Machine.history actions tr) a ∧ a.state = waiting (tr.map Prod.snd) := by
  have hinit : (boundedRules g.capacity).object.start = abstraction (machine g file).init [] := by
    unfold abstraction AtomicObject.start
    congr
    funext p
    cases p <;> rfl
  have hstep : ∀ s tr l s' e a, (machine g file).Reaches s tr → a = abstraction s tr →
      (machine g file).step s l = some (s', e) →
      ∃ a', (boundedRules g.capacity).object.Moves a (actions l e) a' ∧
      a' = abstraction s' (tr ++ [e]) := by
    intro s tr l s' e a hreach ha hs
    rw [ha]
    exact ⟨_, (inv_of_reaches hfits hlt htail hhead hreach).moves hs, rfl⟩
  obtain ⟨a, hmoves, ha⟩ := Machine.Run.simulated (boundedRules g.capacity).object actions
    (fun _ _ _ => True) (fun s tr a => a = abstraction s tr) (fun _ => True)
    (fun _ _ _ => trivial) hinit (fun s tr l s' e a hreach _ _ => hstep s tr l s' e a hreach)
    hrun trivial
  exact ⟨a, hmoves, by rw [ha]; rfl⟩

/-- The run across the wrap, in which a producer dies in its second push: its history is one of the
bounded queue, and two values are left in it. -/
theorem atomic_bounded_queue_crash : ∃ mapping file s tr a,
    createMapping fourPairs.bytes kFlagFixedSPSC = .ok mapping ∧
    file = { mapping with shared := countersAt (2^64 - 2) mapping.shared } ∧
    (machine fourPairs file).logged.Reaches s tr ∧
    Machine.history actions tr =
      [.invoke .producer (.push [1, 2]), .respond .producer (.pushed true),
        .invoke .producer (.push [9, 9]), .die .producer,
        .invoke .producer (.push [3, 4]), .respond .producer (.pushed true),
        .invoke .producer (.push [5, 6]), .respond .producer (.pushed true),
        .invoke .consumer (.pop ()), .respond .consumer (.popped (some [1, 2]))] ∧
    (boundedRules 4).object.Moves (boundedRules 4).object.start (Machine.history actions tr) a ∧
    a.state = [[3, 4], [5, 6]] := by
  obtain ⟨mapping, hmap⟩ : ∃ mapping,
    createMapping fourPairs.bytes kFlagFixedSPSC = .ok mapping := ⟨_, rfl⟩
  obtain ⟨s, tr, hrun, htest⟩ :=
    (machine fourPairs { mapping with
      shared := countersAt (2^64 - 2) mapping.shared }).logged.exists_reaches crashAtWrap
      (fun _ tr => decide (Machine.history actions tr =
        [.invoke .producer (.push [1, 2]), .respond .producer (.pushed true),
          .invoke .producer (.push [9, 9]), .die .producer,
          .invoke .producer (.push [3, 4]), .respond .producer (.pushed true),
          .invoke .producer (.push [5, 6]), .respond .producer (.pushed true),
          .invoke .consumer (.pop ()), .respond .consumer (.popped (some [1, 2]))] ∧
        waiting (tr.map Prod.snd) = [[3, 4], [5, 6]]))
      (by cases hmap; decide +kernel)
  obtain ⟨hhistory, hwaiting⟩ := of_decide_eq_true htest
  have hfits : fourPairs.Fits := by
    unfold Geometry.Fits fourPairs
    decide
  have hlt : 2^64 - 2 < 2^64 := by decide
  obtain ⟨a, hmoves, hstate⟩ := atomic_bounded_queue hfits hlt rfl rfl hrun
  exact ⟨mapping, _, s, tr, a, hmap, rfl, hrun, hhistory, hmoves, hstate.trans hwaiting⟩

end LfRing.Queue

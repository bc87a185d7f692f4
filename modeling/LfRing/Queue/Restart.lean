import LfRing.Queue.Subscriber

/-!
# Starting and stopping an `SpscSubscriber` again and again

`Queue/Subscriber.lean` has one thread and one call of `stop`. Here the owner of an `SpscSubscriber`
calls `start` and `stop` as often as it likes, in any order, and destroys the object at the end:
`start` returns at once if `running_` is set and `stop` if it is not, and every `start` in between
makes a new thread. All threads are consumers of the one queue, and so are right only if there is
never more than one.

C++ ends the program if a `std::thread` is assigned to or destroyed while it is joinable. `Status`
is what excludes this: between the owner's calls, `running_` is set exactly if there is a thread to
join. `restarts_lose_nothing` says so, and that the values passed to `on_message_`, by all threads
together, are what was published, in order and without a gap, up to the last drain of each.

The owner is one thread, other than the polling threads: `start` and `stop` are not made to be
called at the same time, and `stop` is not called from `on_message_`.
-/

namespace LfRing.Queue.Subscriber.Restart

/-! ## The owner -/

/-- Where the owner is. -/
inductive OwnerPc
  /-- Between two calls. -/
  | idle
  /-- In `start`, about to load `running_`. -/
  | startLoad
  /-- In `start`, about to store `running_`. -/
  | startStore
  /-- In `start`, about to make the thread and assign it to `thread_`. -/
  | startSpawn
  /-- In `stop`, which may have been called by the destructor. -/
  | stopping (destroying : Bool)
  /-- In the destructor, about to destroy `thread_`. -/
  | destroyThread
  /-- The object is destroyed. -/
  | gone
deriving DecidableEq, Repr

variable (g : Geometry)

/-- The subscriber and its owner. Before the first `start` there is no thread, which is as if one
had ended. -/
structure State where
  /-- The queue, the thread made last, and the owner's place in `stop`. -/
  sub : Subscriber.State g
  /-- Where the owner is. -/
  owner : OwnerPc
  /-- `thread_.joinable()`. -/
  joinable : Bool
  /-- `std::terminate` has been called. -/
  terminated : Bool

/-- Who moves next. -/
inductive Label
  /-- The publisher. -/
  | publisher (l : PushLabel g.sizeofT)
  /-- Another publisher claims the queue. -/
  | claim
  /-- The thread calls `try_pop`. -/
  | pop (out : Element g.sizeofT)
  /-- The thread takes its next step. -/
  | run
  /-- The thread wakes up. -/
  | wake (timedOut : Bool)
  /-- The owner calls `start`. -/
  | start
  /-- The owner calls `stop`. -/
  | stop
  /-- The owner destroys the object. -/
  | destroy
  /-- The owner takes its next step. -/
  | ownerRun

variable {g}

/-- One step of the owner in `stop`. It reports the call when it has found `running_` set. -/
def stopRun (s : State g) (destroying : Bool) : Option (State g × Event g) :=
  match s.sub.stopper with
  | .loadRunning =>
    (stopStep s.sub).map fun x =>
      ({ s with sub := x.1 }, if s.sub.running then .stopCalled else .internal)
  | .join =>
    if s.joinable then (stopStep s.sub).map fun x => ({ s with sub := x.1, joinable := false }, x.2)
    else some ({ s with sub := { s.sub with stopper := .returned } }, .internal)
  | .returned => some ({ s with owner := if destroying then .destroyThread else .idle }, .internal)
  | _ => (stopStep s.sub).map fun x => ({ s with sub := x.1 }, x.2)

/-- One step of the owner. -/
def ownerStep (s : State g) : Option (State g × Event g) :=
  match s.owner with
  | .idle => none
  | .startLoad => some ({ s with owner := if s.sub.running then .idle else .startStore }, .internal)
  | .startStore =>
    some ({ s with sub := { s.sub with running := true }, owner := .startSpawn }, .internal)
  | .startSpawn =>
    if s.joinable then some ({ s with owner := .gone, terminated := true }, .internal)
    else some ({ s with sub := { s.sub with thread := .check }, owner := .idle, joinable := true },
      .internal)
  | .stopping destroying => stopRun s destroying
  | .destroyThread => some ({ s with owner := .gone, terminated := s.joinable }, .internal)
  | .gone => none

/-- The owner calls. -/
def call (s : State g) (owner : OwnerPc) (stopper : StopPc) : Option (State g × Event g) :=
  match s.owner with
  | .idle => some ({ s with sub := { s.sub with stopper }, owner }, .internal)
  | _ => none

/-- A step of the publisher or of the thread. -/
def lift (s : State g) (r : Option (Subscriber.State g × Event g)) : Option (State g × Event g) :=
  r.map fun x => ({ s with sub := x.1 }, x.2)

/-- One step of the publisher, of the thread or of the owner. -/
def step (file : Mapping) (s : State g) : Label g → Option (State g × Event g)
  | .publisher l => lift s (Subscriber.step file s.sub (.publisher l))
  | .claim => lift s (Subscriber.step file s.sub .claim)
  | .pop out => lift s (Subscriber.step file s.sub (.pop out))
  | .run => lift s (Subscriber.step file s.sub .run)
  | .wake timedOut => lift s (Subscriber.step file s.sub (.wake timedOut))
  | .start => call s .startLoad s.sub.stopper
  | .stop => call s (.stopping false) .loadRunning
  | .destroy => call s (.stopping true) .loadRunning
  | .ownerRun => ownerStep s

variable (g) in
/-- A subscriber that has just been constructed. -/
def machine (file : Mapping) : Machine (State g) (Label g) (Event g) where
  init := ⟨⟨(Queue.machine g file).init, .finished, .idle, false, none⟩, .idle, false, false⟩
  step := step file

/-! ## What the owner keeps -/

/-- What there is of a subscriber. -/
inductive Status
  /-- No thread. -/
  | stopped
  /-- In `start`, before the thread is made. -/
  | spawning
  /-- A thread that goes on. -/
  | started
  /-- A thread that is to end. -/
  | stopping

/-- What it means for the members. -/
def Status.Holds (s : State g) : Status → Prop
  | stopped => s.sub.running = false ∧ s.joinable = false ∧ s.sub.thread = .finished
  | spawning => s.sub.running = true ∧ s.joinable = false ∧ s.sub.thread = .finished
  | started => s.sub.running = true ∧ s.joinable = true ∧ s.sub.thread.closing = false
  | stopping => s.sub.running = false ∧ s.joinable = true

/-- Which of them go with a place of the owner. -/
def OwnerPc.Allows : OwnerPc → StopPc → Status → Prop
  | idle, _, st => st = .stopped ∨ st = .started
  | startLoad, _, st => st = .stopped ∨ st = .started
  | startStore, _, st => st = .stopped
  | startSpawn, _, st => st = .spawning
  | stopping _, .idle, _ => False
  | stopping _, .loadRunning, st => st = .stopped ∨ st = .started
  | stopping _, .lock, st => st = .started
  | stopping _, .storeRunning, st => st = .started
  | stopping _, .unlock, st => st = .stopping
  | stopping _, .notify, st => st = .stopping
  | stopping _, .join, st => st = .stopping
  | stopping _, .returned, st => st = .stopped
  | destroyThread, _, st => st = .stopped
  | gone, _, st => st = .stopped

/-- What holds at every moment. -/
structure Inv (start : ℕ) (s : State g) (tr : List (Event g)) : Prop where
  /-- The queue and the thread. -/
  core : Core start s.sub tr
  /-- The members are as the owner's place says. -/
  status : ∃ st : Status, st.Holds s ∧ s.owner.Allows s.sub.stopper st
  /-- The program has not been ended. -/
  ok : s.terminated = false

section Owner

variable {file : Mapping} {start : ℕ} {s s' : State g} {tr : List (Event g)} {e : Event g}

/-- A step of the others keeps the status. -/
theorem Status.Holds.aside {st : Status} {sub : Subscriber.State g} (h : st.Holds s)
    (ha : Aside s.sub sub) : st.Holds { s with sub := sub } := by
  cases st with
  | stopped => exact ⟨ha.running.trans h.1, h.2.1, ha.finished h.2.2⟩
  | spawning => exact ⟨ha.running.trans h.1, h.2.1, ha.finished h.2.2⟩
  | started => exact ⟨ha.running.trans h.1, h.2.1, ha.closing h.1 h.2.2⟩
  | stopping => exact ⟨ha.running.trans h.1, h.2⟩

/-- A step of the others, taken while the owner stands still, keeps what is known. -/
theorem Inv.lifted (h : Inv start s tr) (hfits : g.Fits) {l : Subscriber.Label g}
    (hl : others l = true) (hs : lift s (Subscriber.step file s.sub l) = some (s', e)) :
    Inv start s' (tr ++ [e]) := by
  obtain ⟨⟨sub, x⟩, hsub, heq⟩ := Option.map_eq_some_iff.mp hs
  cases heq
  obtain ⟨hcore, haside⟩ := h.core.step hfits hl hsub
  obtain ⟨st, hst, hallows⟩ := h.status
  refine ⟨hcore, ⟨st, hst.aside haside, ?_⟩, h.ok⟩
  show s.owner.Allows sub.stopper st
  rw [haside.stopper]
  exact hallows

/-- A call of the owner. -/
theorem Inv.call (h : Inv start s tr) {owner : OwnerPc} {stopper : StopPc}
    (howner : ∀ st, st = Status.stopped ∨ st = .started → owner.Allows stopper st)
    (hs : call s owner stopper = some (s', e)) : Inv start s' (tr ++ [e]) := by
  unfold Restart.call at hs
  split at hs
  · rename_i hidle
    cases hs
    obtain ⟨st, hst, hallows⟩ := h.status
    rw [hidle] at hallows
    exact ⟨h.core.internal rfl id, ⟨st, by cases st <;> exact hst, howner st hallows⟩, h.ok⟩
  · cases hs

/-- A step of the owner in `stop`. -/
theorem Inv.stopRun (h : Inv start s tr) {destroying : Bool}
    (howner : s.owner = .stopping destroying) (hs : stopRun s destroying = some (s', e)) :
    Inv start s' (tr ++ [e]) := by
  obtain ⟨st, hst, hallows⟩ := h.status
  rw [howner] at hallows
  unfold Restart.stopRun at hs
  cases hpc : s.sub.stopper <;> simp only [hpc, stopStep] at hs hallows
  case idle => exact hallows.elim
  case loadRunning =>
    cases hs
    rcases hallows with rfl | rfl
    · -- There is nothing to stop.
      rw [if_neg (by rw [hst.1]; decide), if_neg (by rw [hst.1]; decide)]
      refine ⟨h.core.internal rfl id, ⟨.stopped, hst, ?_⟩, h.ok⟩
      rw [howner]
      rfl
    · rw [if_pos hst.1, if_pos hst.1]
      refine ⟨h.core.stop ?_, ⟨.started, hst, ?_⟩, h.ok⟩
      · -- A thread that goes on has not ended.
        intro hend
        have hclosing := hst.2.2
        rw [hend] at hclosing
        cases hclosing
      · rw [howner]
        rfl
  case lock =>
    split_ifs at hs
    · cases hs
      cases hallows
      exact ⟨h.core.internal rfl id, ⟨.started, hst, by rw [howner]; rfl⟩, h.ok⟩
    · cases hs
  case storeRunning =>
    cases hs
    cases hallows
    exact ⟨h.core.internal rfl id, ⟨.stopping, ⟨rfl, hst.2.1⟩, by rw [howner]; rfl⟩, h.ok⟩
  case unlock =>
    cases hs
    cases hallows
    exact ⟨h.core.internal rfl id, ⟨.stopping, hst, by rw [howner]; rfl⟩, h.ok⟩
  case notify =>
    cases hs
    cases hallows
    exact ⟨h.core.internal rfl id, ⟨.stopping, hst, by rw [howner]; rfl⟩, h.ok⟩
  case join =>
    cases hallows
    rw [if_pos hst.2] at hs
    split_ifs at hs with hend
    · cases hs
      exact ⟨h.core.internal rfl id, ⟨.stopped, ⟨hst.1, rfl, hend⟩, by rw [howner]; rfl⟩, h.ok⟩
    · cases hs
  case returned =>
    cases hs
    cases hallows
    refine ⟨h.core.internal rfl id, ⟨.stopped, hst, ?_⟩, h.ok⟩
    cases destroying with
    | true => rfl
    | false => exact Or.inl rfl

/-- A step of the owner. -/
theorem Inv.ownerStep (h : Inv start s tr) (hs : ownerStep s = some (s', e)) :
    Inv start s' (tr ++ [e]) := by
  obtain ⟨st, hst, hallows⟩ := h.status
  unfold Restart.ownerStep at hs
  cases hpc : s.owner <;> simp only [hpc] at hs hallows
  case idle => cases hs
  case startLoad =>
    cases hs
    refine ⟨h.core.internal rfl id, ⟨st, by cases st <;> exact hst, ?_⟩, h.ok⟩
    rcases hallows with rfl | rfl
    · rw [if_neg (by rw [hst.1]; decide)]
      rfl
    · rw [if_pos hst.1]
      exact Or.inr rfl
  case startStore =>
    cases hs
    cases hallows
    exact ⟨h.core.internal rfl id, ⟨.spawning, ⟨rfl, hst.2⟩, rfl⟩, h.ok⟩
  case startSpawn =>
    cases hallows
    rw [if_neg (by rw [hst.2.1]; decide)] at hs
    cases hs
    refine ⟨h.core.internal ?_ nofun, ⟨.started, ⟨hst.1, rfl, rfl⟩, Or.inr rfl⟩, h.ok⟩
    rw [hst.2.2]
    rfl
  case stopping destroying => exact h.stopRun hpc hs
  case destroyThread =>
    cases hs
    cases hallows
    exact ⟨h.core.internal rfl id, ⟨.stopped, hst, rfl⟩, hst.2.1⟩
  case gone => cases hs

/-- Every step keeps the invariant. -/
theorem Inv.step (h : Inv start s tr) (hfits : g.Fits) {l : Label g}
    (hs : (machine g file).step s l = some (s', e)) : Inv start s' (tr ++ [e]) := by
  change Restart.step file s l = some (s', e) at hs
  cases l with
  | publisher l => exact h.lifted hfits rfl hs
  | claim => exact h.lifted hfits rfl hs
  | pop out => exact h.lifted hfits rfl hs
  | run => exact h.lifted hfits rfl hs
  | wake timedOut => exact h.lifted hfits rfl hs
  | start => exact h.call (fun _ => id) hs
  | stop => exact h.call (fun _ => id) hs
  | destroy => exact h.call (fun _ => id) hs
  | ownerRun => exact h.ownerStep hs

/-- There is no thread before `start`. -/
theorem Inv.fresh (hlt : start < 2^64) (htail : file.shared.control.tailPublish = start)
    (hhead : file.shared.control.headPublish = start) : Inv start (machine g file).init [] where
  core := ⟨Queue.Inv.fresh hlt htail hhead, rfl, fun _ => .of_eq rfl⟩
  status := ⟨.stopped, ⟨rfl, rfl, rfl⟩, Or.inl rfl⟩
  ok := rfl

end Owner

/-- Across any number of `start` and `stop`, called in any order, and up to the destructor's own
`stop`: no thread is ever assigned to or destroyed while it can be joined, the values passed to
`on_message_` by all threads together are the first part of those published, each once and in order,
and whenever there is no thread to join, all that was published before any `stop` that had found a
thread to stop has been passed on. -/
theorem restarts_lose_nothing {file : Mapping} {start : ℕ} {s : State g} {tr : List (Event g)}
    (hfits : g.Fits) (hlt : start < 2^64) (htail : file.shared.control.tailPublish = start)
    (hhead : file.shared.control.headPublish = start) (hrun : (machine g file).Reaches s tr) :
    s.terminated = false ∧ delivered tr <+: published tr ∧
      (s.joinable = false → ∀ pre post, tr = pre ++ .stopCalled :: post →
        published pre <+: delivered tr) := by
  have hinv : Inv start s tr := by
    refine hrun.invariant (fun s tr => Inv start s tr) (Inv.fresh hlt htail hhead) ?_
    intro s tr l s' e _ hinv hs
    exact hinv.step hfits hs
  refine ⟨hinv.ok, ?_, ?_⟩
  · exact hinv.core.delivered_first
  · intro hjoin
    obtain ⟨st, hst, -⟩ := hinv.status
    refine hinv.core.drained ?_
    cases st with
    | stopped => exact hst.2.2
    | spawning => exact hst.2.2
    | started => rw [hst.2.1] at hjoin; cases hjoin
    | stopping => rw [hst.2] at hjoin; cases hjoin

/-- The owner calls, and takes `n` steps. -/
def ownerCalls (l : Label fourPairs) (n : ℕ) : List (Label fourPairs) :=
  l :: List.replicate n .ownerRun

/-- The thread calls `try_pop`, and takes `n` steps. -/
def threadPops (n : ℕ) : List (Label fourPairs) := .pop (bytePair 0 0) :: List.replicate n .run

/-- A publisher publishes two bytes. -/
def publishes (x y : UInt8) : List (Label fourPairs) :=
  .publisher (.call (bytePair x y)) :: List.replicate 5 (.publisher .run)

/-- A value is published behind `start`, and passed on in the last drain behind `stop`. Another one
is published while there is no thread, and passed on by the next one, before the object is
destroyed. -/
def twoCycles : List (Label fourPairs) :=
  ownerCalls .start 3 ++ publishes 1 2 ++ ownerCalls .stop 5 ++ .run :: threadPops 6 ++
    threadPops 2 ++ [.ownerRun, .ownerRun] ++ publishes 3 4 ++ ownerCalls .start 3 ++ .run ::
    threadPops 6 ++ ownerCalls .destroy 5 ++ threadPops 2 ++ .run :: threadPops 2 ++
    List.replicate 3 .ownerRun

/-- Both values have been passed on when the object is gone, and both calls of `stop` had a thread
to stop. -/
theorem restarts_lose_nothing_twoCycles : ∃ mapping s tr,
    createMapping fourPairs.bytes kFlagFixedSPSC = .ok mapping ∧
    (machine fourPairs mapping).Reaches s tr ∧ s.owner = .gone ∧ s.terminated = false ∧
    tr.countP Event.isStop = 2 ∧ published tr = [[1, 2], [3, 4]] ∧ delivered tr <+: published tr ∧
    ∀ pre post, tr = pre ++ .stopCalled :: post → published pre <+: delivered tr := by
  obtain ⟨mapping, hmap⟩ : ∃ mapping,
    createMapping fourPairs.bytes kFlagFixedSPSC = .ok mapping := ⟨_, rfl⟩
  obtain ⟨s, tr, hrun, htest⟩ := (machine fourPairs mapping).exists_reaches twoCycles
    (fun s tr => decide (s.owner = .gone ∧ s.joinable = false ∧ tr.countP Event.isStop = 2 ∧
      published tr = [[1, 2], [3, 4]])) (by cases hmap; decide +kernel)
  obtain ⟨hgone, hjoin, hstops, hpublished⟩ := of_decide_eq_true htest
  have hfits : fourPairs.Fits := by
    unfold Geometry.Fits fourPairs
    decide
  have htail : mapping.shared.control.tailPublish = 0 := by cases hmap; rfl
  have hhead : mapping.shared.control.headPublish = 0 := by cases hmap; rfl
  obtain ⟨hok, hfirst, hdrained⟩ := restarts_lose_nothing hfits (by decide) htail hhead hrun
  exact ⟨mapping, s, tr, hmap, hrun, hgone, hok, hstops, hpublished, hfirst, hdrained hjoin⟩

end LfRing.Queue.Subscriber.Restart

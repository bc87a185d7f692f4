import LfRing.Queue.Overlap

/-!
# `SpscSubscriber` and its shutdown

`poll_loop` and `stop` of `SpscSubscriber` in `include/lf_ring/ipc_adapter.hpp`, over the machine of
the queue. The polling thread drains the queue and passes every value to `on_message_`. When it has
found none it waits on a condition variable, for a while or until it is woken. `stop` clears
`running_` under the mutex, notifies, and joins the thread, which drains the queue once more before
it ends.

The thread is the queue's consumer, so what it pops is what the queue gives it (`Queue.Inv`), and
what it has popped it passes on (`Core`, which does not depend on who calls `stop`, or how often).
It leaves the last drain when a pop finds the queue empty. By then `stop` has been called, so
everything that was published before has been popped, and passed on (`nothing_lost`). As the queue
itself, this needs the offsets of the slots to be exact: where slots overlap, the subscriber is
given values that were never published (`mixed_up`).
-/

namespace LfRing.Queue.Subscriber

/-! ## The polling thread and `stop` -/

/-- The two drain loops. -/
inductive Phase
  /-- The one in the loop, with `got_any`. -/
  | loop (got : Bool)
  /-- The last one. -/
  | final
deriving DecidableEq, Repr

/-- Where the thread is in `poll_loop`. -/
inductive ThreadPc
  /-- About to load `running_` for the loop's condition. -/
  | check
  /-- In `try_pop`, or about to call it. -/
  | drain (phase : Phase)
  /-- About to call `on_message_`. -/
  | deliver (phase : Phase) (v : List UInt8)
  /-- About to lock `mutex_`. -/
  | lock
  /-- In `wait_for`, about to load `running_` for the predicate. -/
  | test
  /-- In `wait_for`, waiting, with `mutex_` released. -/
  | wait
  /-- In `wait_for`, awake, about to lock `mutex_` again. -/
  | relock (timedOut : Bool)
  /-- In `wait_for`, with the time over, about to load `running_` for the predicate. -/
  | retest
  /-- About to release `mutex_`. -/
  | unlock
  /-- The thread has ended. -/
  | finished
deriving DecidableEq, Repr

/-- Where the caller of `stop` is. -/
inductive StopPc
  /-- `stop` has not been called. -/
  | idle
  /-- About to load `running_`. -/
  | loadRunning
  /-- About to lock `mutex_`. -/
  | lock
  /-- About to store `running_`. -/
  | storeRunning
  /-- About to release `mutex_`. -/
  | unlock
  /-- About to notify. -/
  | notify
  /-- About to join the thread. -/
  | join
  /-- `stop` has returned. -/
  | returned
deriving DecidableEq, Repr

/-- Who holds `mutex_`. -/
inductive Holder
  /-- The polling thread. -/
  | thread
  /-- The caller of `stop`. -/
  | stopper
deriving DecidableEq, Repr

variable (g : Geometry)

/-- The queue, the thread and the caller of `stop`. -/
structure State where
  /-- The queue, whose consumer is the thread. -/
  queue : Queue.State g
  /-- Where the thread is. -/
  thread : ThreadPc
  /-- Where the caller of `stop` is. -/
  stopper : StopPc
  /-- `running_`. -/
  running : Bool
  /-- Who holds `mutex_`. -/
  mutex : Option Holder

/-- Who moves next. -/
inductive Label
  /-- The publisher. -/
  | publisher (l : PushLabel g.sizeofT)
  /-- Another publisher, which claims the queue in place of one that has died. -/
  | claim
  /-- The thread calls `try_pop`, with what its variable holds. -/
  | pop (out : Element g.sizeofT)
  /-- The thread takes its next step. -/
  | run
  /-- The thread wakes up: its time is over, or it was notified, or for no reason. -/
  | wake (timedOut : Bool)
  /-- `stop` is called. -/
  | stop
  /-- The caller of `stop` takes its next step. -/
  | stopRun

/-- What a step reports. -/
inductive Event
  /-- A step of the queue. -/
  | queue (e : Queue.Event g)
  /-- `on_message_` has been called. -/
  | delivered (v : List UInt8)
  /-- `stop` has been called. -/
  | stopCalled
  /-- Another step of the thread or of the caller of `stop`. -/
  | internal

variable {g}

/-- Where the thread goes when `try_pop` has returned false. -/
def Phase.emptied : Phase → ThreadPc
  | loop true => .check
  | loop false => .lock
  | final => .finished

/-- The phase behind a value. -/
def Phase.more : Phase → Phase
  | loop _ => .loop true
  | final => .final

/-- Where the thread is after a step of `try_pop`. -/
def Phase.popStep (phase : Phase) : Queue.Event g → ThreadPc
  | .consumer .refused => phase.emptied
  | .consumer (.popped out) => .deliver phase out
  | _ => .drain phase

/-- A step of the queue's consumer, taken by the thread. -/
def popStep (file : Mapping) (s : State g) (phase : Phase) (l : PopLabel g.sizeofT) :
    Option (State g × Event g) :=
  (Queue.step file s.queue (.consumer l)).map fun x =>
    ({ s with queue := x.1, thread := phase.popStep x.2 }, .queue x.2)

/-- One step of the thread. A locked mutex has to be free. -/
def threadStep (file : Mapping) (s : State g) : Option (State g × Event g) :=
  match s.thread with
  | .check =>
    some ({ s with thread := .drain (if s.running then .loop false else .final) }, .internal)
  | .drain phase => popStep file s phase .run
  | .deliver phase v => some ({ s with thread := .drain phase.more }, .delivered v)
  | .lock =>
    if s.mutex = none then some ({ s with thread := .test, mutex := some .thread }, .internal)
    else none
  | .test =>
    if s.running then some ({ s with thread := .wait, mutex := none }, .internal)
    else some ({ s with thread := .unlock }, .internal)
  | .wait => none
  | .relock timedOut =>
    if s.mutex = none then
      some ({ s with thread := if timedOut then .retest else .test, mutex := some .thread },
        .internal)
    else none
  | .retest => some ({ s with thread := .unlock }, .internal)
  | .unlock => some ({ s with thread := .check, mutex := none }, .internal)
  | .finished => none

/-- One step of the caller of `stop`. A join waits for the thread. -/
def stopStep (s : State g) : Option (State g × Event g) :=
  match s.stopper with
  | .idle => none
  | .loadRunning => some ({ s with stopper := if s.running then .lock else .returned }, .internal)
  | .lock =>
    if s.mutex = none then
      some ({ s with stopper := .storeRunning, mutex := some .stopper }, .internal)
    else none
  | .storeRunning => some ({ s with stopper := .unlock, running := false }, .internal)
  | .unlock => some ({ s with stopper := .notify, mutex := none }, .internal)
  | .notify => some ({ s with stopper := .join }, .internal)
  | .join =>
    if s.thread = .finished then some ({ s with stopper := .returned }, .internal) else none
  | .returned => none

/-- A step of the publisher's side of the queue. -/
def publishStep (file : Mapping) (s : State g) (l : Queue.Label g) : Option (State g × Event g) :=
  (Queue.step file s.queue l).map fun x => ({ s with queue := x.1 }, .queue x.2)

/-- One step of the publisher, of the thread or of the caller of `stop`. -/
def step (file : Mapping) (s : State g) : Label g → Option (State g × Event g)
  | .publisher l => publishStep file s (.producer l)
  | .claim => publishStep file s .claim
  | .pop out =>
    match s.thread with
    | .drain phase => popStep file s phase (.call out)
    | _ => none
  | .run => threadStep file s
  | .wake timedOut =>
    match s.thread with
    | .wait => some ({ s with thread := .relock timedOut }, .internal)
    | _ => none
  | .stop =>
    match s.stopper with
    | .idle => some ({ s with stopper := .loadRunning }, .stopCalled)
    | _ => none
  | .stopRun => stopStep s

variable (g) in
/-- A subscriber on a file, behind `start`. -/
def machine (file : Mapping) : Machine (State g) (Label g) (Event g) where
  init := ⟨(Queue.machine g file).init, .check, .idle, true, none⟩
  step := step file

/-! ## What has happened so far -/

/-- The queue's event. -/
def Event.queue? : Event g → List (Queue.Event g)
  | .queue e => [e]
  | _ => []

/-- The value that is passed to `on_message_`. -/
def Event.delivered? : Event g → List (List UInt8)
  | .delivered v => [v]
  | _ => []

/-- The events of the queue. -/
def queueEvents (tr : List (Event g)) : List (Queue.Event g) := tr.flatMap Event.queue?

/-- The values whose `publish` has returned true, in order. -/
def published (tr : List (Event g)) : List (List UInt8) := pushed (queueEvents tr)

/-- The values passed to `on_message_`, in order. -/
def delivered (tr : List (Event g)) : List (List UInt8) := tr.flatMap Event.delivered?

/-- One more step adds what it does to the queue. -/
@[simp] theorem queueEvents_append (tr : List (Event g)) (e : Event g) :
    queueEvents (tr ++ [e]) = queueEvents tr ++ e.queue? := by
  simp [queueEvents]

/-- One more step adds the element that it pushes, if it pushes one. -/
@[simp] theorem published_append (tr : List (Event g)) (e : Event g) :
    published (tr ++ [e]) = published tr ++ pushed e.queue? := by
  simp [published, pushed]

/-- One more step adds the element that it delivers, if it delivers one. -/
@[simp] theorem delivered_append (tr : List (Event g)) (e : Event g) :
    delivered (tr ++ [e]) = delivered tr ++ e.delivered? := by
  simp [delivered]

/-- `stop` has been called. -/
def Event.isStop : Event g → Bool
  | .stopCalled => true
  | _ => false

/-- What happened before `stop` was called. -/
def beforeStop (tr : List (Event g)) : List (Event g) := tr.takeWhile fun e => !e.isStop

/-- What happened before is what stands before the first call. -/
theorem exists_beforeStop {tr : List (Event g)} (h : tr.any Event.isStop = true) :
    ∃ post, tr = beforeStop tr ++ .stopCalled :: post := by
  induction tr with
  | nil => cases h
  | cons e tr ih =>
    have hlater : tr.any Event.isStop = true → e.isStop = false →
        ∃ post, e :: tr = beforeStop (e :: tr) ++ .stopCalled :: post := by
      intro hany he
      obtain ⟨post, hpost⟩ := ih hany
      refine ⟨post, ?_⟩
      rw [beforeStop, List.takeWhile_cons, he, ← beforeStop]
      exact congrArg (e :: ·) hpost
    cases e with
    | stopCalled => exact ⟨tr, rfl⟩
    | queue x => exact hlater h rfl
    | delivered v => exact hlater h rfl
    | internal => exact hlater h rfl

/-! ## What the thread keeps -/

/-- The value that was popped and not passed on yet. -/
def ThreadPc.pending : ThreadPc → List (List UInt8)
  | .deliver _ v => [v]
  | _ => []

/-- The thread is in its last drain, or has ended. -/
def ThreadPc.closing : ThreadPc → Bool
  | .drain .final => true
  | .deliver .final _ => true
  | .finished => true
  | _ => false

/-- A pop that returned false leaves nothing to pass on. -/
theorem Phase.emptied_pending (phase : Phase) : phase.emptied.pending = [] := by
  cases phase with
  | loop got => cases got <;> rfl
  | final => rfl

/-- No step of `try_pop` begins or ends the last drain. -/
theorem Phase.popStep_closing (phase : Phase) (e : PopEvent) :
    (phase.popStep (.consumer e : Queue.Event g)).closing = (ThreadPc.drain phase).closing := by
  cases phase with
  | loop got => cases got <;> cases e <;> rfl
  | final => cases e <;> rfl

/-- The thread ends where the last drain finds the queue empty. -/
theorem Phase.popStep_finished {phase : Phase} {e : PopEvent}
    (h : phase.popStep (.consumer e : Queue.Event g) = .finished) : e = .refused := by
  cases e with
  | refused => rfl
  | internal => cases h
  | popped out => cases h

/-- What was published before any call of `stop` has been passed on. -/
def Drained (tr : List (Event g)) : Prop :=
  ∀ pre post, tr = pre ++ .stopCalled :: post → published pre <+: delivered tr

/-- It stays so until `stop` is called again. -/
theorem Drained.append {tr : List (Event g)} {e : Event g} (h : Drained tr)
    (he : e.isStop = false) :
    Drained (tr ++ [e]) := by
  intro pre post heq
  rcases List.eq_nil_or_concat post with rfl | ⟨post', x, rfl⟩
  · obtain ⟨-, hlast⟩ := List.append_inj' heq rfl
    cases hlast
    cases he
  · rw [List.concat_eq_append, ← List.cons_append, ← List.append_assoc] at heq
    obtain ⟨rfl, -⟩ := List.append_inj' heq rfl
    rw [delivered_append]
    exact (h pre post' rfl).trans (List.prefix_append _ _)

/-- If all that was published has been passed on. -/
theorem Drained.of_eq {tr : List (Event g)} (h : published tr = delivered tr) : Drained tr := by
  intro pre post heq
  rw [← h, heq]
  refine ⟨published (.stopCalled :: post), ?_⟩
  simp only [published, queueEvents, pushed, List.flatMap_append]

/-- What the queue and the thread keep. -/
structure Core (start : ℕ) (s : State g) (tr : List (Event g)) : Prop where
  /-- The queue is one. -/
  queue : Queue.Inv start s.queue (queueEvents tr)
  /-- What was popped has been passed on, or is about to be. -/
  passed : popped (queueEvents tr) = delivered tr ++ s.thread.pending
  /-- When the thread has ended, nothing is left that was published before a call of `stop`. -/
  drained : s.thread = .finished → Drained tr

/-- What a step of the publisher or of the thread leaves alone. -/
structure Aside (s s' : State g) : Prop where
  /-- `running_` is cleared by the caller of `stop`. -/
  running : s'.running = s.running
  /-- Nor does the caller move. -/
  stopper : s'.stopper = s.stopper
  /-- A thread that has ended remains so. -/
  finished : s.thread = .finished → s'.thread = .finished
  /-- While `running_` is set, the last drain does not begin. -/
  closing : s.running = true → s.thread.closing = false → s'.thread.closing = false

section Core

variable {file : Mapping} {start : ℕ} {s s' : State g} {tr : List (Event g)} {e : Event g}

/-- A step that leaves the queue alone and passes nothing on. -/
theorem Core.internal (h : Core start s tr) {thread : ThreadPc} {stopper : StopPc} {running : Bool}
    {mutex : Option Holder} (hpending : thread.pending = s.thread.pending)
    (hend : thread = .finished → s.thread = .finished) :
    Core start ⟨s.queue, thread, stopper, running, mutex⟩ (tr ++ [.internal]) where
  queue := by simpa [Event.queue?] using h.queue
  passed := by simpa [Event.queue?, Event.delivered?, hpending] using h.passed
  drained := fun ht => (h.drained (hend ht)).append rfl

/-- What has been passed on is the first part of what was published. -/
theorem Core.delivered_first (h : Core start s tr) : delivered tr <+: published tr :=
  List.IsPrefix.trans ⟨s.thread.pending, h.passed.symm⟩ h.queue.consumed

/-- `stop` is called while the thread goes on. -/
theorem Core.stop (h : Core start s tr) (hgoes : s.thread ≠ .finished) {stopper : StopPc} :
    Core start { s with stopper } (tr ++ [.stopCalled]) where
  queue := by simpa [Event.queue?] using h.queue
  passed := by simpa [Event.queue?, Event.delivered?] using h.passed
  drained := fun hend => absurd hend hgoes

/-- A step of the publisher's side of the queue. -/
theorem Core.publish (h : Core start s tr) (hfits : g.Fits) {l : Queue.Label g} {q : Queue.State g}
    {x : Queue.Event g} (hs : Queue.step file s.queue l = some (q, x)) (hpop : x.popped? = []) :
    Core start { s with queue := q } (tr ++ [.queue x]) where
  queue := by
    rw [queueEvents_append]
    exact h.queue.step hfits (show (Queue.machine g file).step s.queue l = some (q, x) from hs)
  passed := by simpa [Event.queue?, Event.delivered?, hpop] using h.passed
  drained := fun ht => (h.drained ht).append rfl

/-- The thread takes a step of `try_pop`. -/
theorem Core.pop (h : Core start s tr) (hfits : g.Fits) {phase : Phase} {l : PopLabel g.sizeofT}
    {q : Queue.State g} {x : Queue.Event g} (hpc : s.thread = .drain phase)
    (hs : Queue.step file s.queue (.consumer l) = some (q, x)) :
    Core start { s with queue := q, thread := phase.popStep x } (tr ++ [.queue x]) := by
  have hqueue : Queue.Inv start q (queueEvents tr ++ [x]) :=
    h.queue.step hfits (show (Queue.machine g file).step s.queue (.consumer l) =
      some (q, x) from hs)
  have hpassed := h.passed
  rw [hpc] at hpassed
  obtain ⟨eff, pc, pe, hstep, rfl, rfl⟩ := step_consumer hs
  refine ⟨by rwa [queueEvents_append], ?_, ?_⟩
  · rw [queueEvents_append, delivered_append, Event.queue?, popped_append, hpassed]
    cases pe with
    | internal => rfl
    | refused =>
      rw [Phase.popStep, phase.emptied_pending]
      rfl
    | popped out => rfl
  · intro hend
    -- The queue was empty, so all that was published has been popped, and passed on.
    obtain rfl := Phase.popStep_finished hend
    apply Drained.of_eq
    have hall : published tr = delivered tr := by
      rw [published, ← h.queue.popped_eq_of_refused hstep, hpassed]
      exact List.append_nil _
    rw [published_append, delivered_append, hall]
    rfl

/-- A step of `try_pop` leaves the caller of `stop` alone. -/
theorem aside_pop {phase : Phase} {l : PopLabel g.sizeofT} {q : Queue.State g} {x : Queue.Event g}
    (hpc : s.thread = .drain phase) (hs : Queue.step file s.queue (.consumer l) = some (q, x)) :
    Aside s { s with queue := q, thread := phase.popStep x } := by
  obtain ⟨-, -, pe, -, -, rfl⟩ := step_consumer hs
  refine ⟨rfl, rfl, by rw [hpc]; nofun, ?_⟩
  intro _ hc
  show (phase.popStep (.consumer pe : Queue.Event g)).closing = false
  rw [phase.popStep_closing, ← hpc]
  exact hc

/-- The thread passes a value on. -/
theorem Core.deliver (h : Core start s tr) {phase : Phase} {v : List UInt8}
    (hpc : s.thread = .deliver phase v) :
    Core start { s with thread := .drain phase.more } (tr ++ [.delivered v]) := by
  have hpassed := h.passed
  rw [hpc] at hpassed
  refine ⟨?_, ?_, nofun⟩
  · rw [queueEvents_append]
    exact (List.append_nil (queueEvents tr)).symm ▸ h.queue
  · rw [queueEvents_append, delivered_append]
    exact (congrArg popped (List.append_nil _)).trans (hpassed.trans (List.append_nil _).symm)

/-- A step of the thread. -/
theorem Core.thread (h : Core start s tr) (hfits : g.Fits) (hs : threadStep file s = some (s', e)) :
    Core start s' (tr ++ [e]) ∧ Aside s s' := by
  unfold threadStep at hs
  cases hpc : s.thread <;> simp only [hpc] at hs
  case drain phase =>
    obtain ⟨⟨q, x⟩, hq, heq⟩ := Option.map_eq_some_iff.mp hs
    cases heq
    exact ⟨h.pop hfits hpc hq, aside_pop hpc hq⟩
  case deliver phase v =>
    cases hs
    refine ⟨h.deliver hpc, rfl, rfl, by rw [hpc]; nofun, ?_⟩
    rw [hpc]
    intro _ hc
    cases phase with
    | loop got => rfl
    | final => cases hc
  case check =>
    cases hs
    refine ⟨h.internal (by rw [hpc]; rfl) nofun, rfl, rfl, by rw [hpc]; nofun, ?_⟩
    intro hrunning _
    show (ThreadPc.drain (if s.running then .loop false else .final)).closing = false
    rw [hrunning]
    rfl
  case wait => cases hs
  case finished => cases hs
  all_goals
    -- The other steps are those around the mutex.
    try split_ifs at hs
    all_goals
      cases hs
      exact ⟨h.internal (by rw [hpc]; rfl) nofun, rfl, rfl, by rw [hpc]; nofun, fun _ _ => rfl⟩

/-- The label is not one of the caller's of `stop`. -/
def others : Label g → Bool
  | .stop => false
  | .stopRun => false
  | _ => true

/-- A step of the publisher or of the thread. -/
theorem Core.step (h : Core start s tr) (hfits : g.Fits) {l : Label g} (hl : others l = true)
    (hs : Subscriber.step file s l = some (s', e)) : Core start s' (tr ++ [e]) ∧ Aside s s' := by
  cases l with
  | publisher l =>
    obtain ⟨⟨q, x⟩, hq, heq⟩ := Option.map_eq_some_iff.mp hs
    cases heq
    have hpop : x.popped? = [] := by
      obtain ⟨-, -, pe, -, -, rfl⟩ := step_producer hq
      rfl
    exact ⟨h.publish hfits hq hpop, rfl, rfl, id, fun _ => id⟩
  | claim =>
    obtain ⟨⟨q, x⟩, hq, heq⟩ := Option.map_eq_some_iff.mp hs
    cases heq
    exact ⟨h.publish hfits hq (step_claim hq).2.2.2.2, rfl, rfl, id, fun _ => id⟩
  | pop out =>
    simp only [Subscriber.step] at hs
    split at hs
    · rename_i phase hpc
      obtain ⟨⟨q, x⟩, hq, heq⟩ := Option.map_eq_some_iff.mp hs
      cases heq
      exact ⟨h.pop hfits hpc hq, aside_pop hpc hq⟩
    · cases hs
  | run => exact h.thread hfits hs
  | wake timedOut =>
    simp only [Subscriber.step] at hs
    split at hs
    · rename_i hpc
      cases hs
      refine ⟨h.internal (by rw [hpc]; rfl) ?_, rfl, rfl, ?_, fun _ _ => rfl⟩
      · intro hend
        cases hend
      · intro hend
        rw [hpc] at hend
        cases hend
    · cases hs
  | stop => cases hl
  | stopRun => cases hl

end Core

/-! ## What one call of `stop` keeps -/

/-- `running_` has been cleared. -/
def StopPc.cleared : StopPc → Bool
  | .unlock => true
  | .notify => true
  | .join => true
  | .returned => true
  | _ => false

/-- What holds at every moment. -/
structure Inv (start : ℕ) (s : State g) (tr : List (Event g)) : Prop where
  /-- The queue and the thread. -/
  core : Core start s tr
  /-- `running_` is cleared by `stop` only. -/
  running : s.running = !s.stopper.cleared
  /-- The caller of `stop` has called it. -/
  called : s.stopper ≠ .idle → tr.any Event.isStop = true
  /-- The last drain comes after that. -/
  closing : s.thread.closing = true → s.running = false
  /-- `stop` returns when the thread has ended. -/
  joined : s.stopper = .returned → s.thread = .finished

namespace Inv

variable {file : Mapping} {start : ℕ} {s s' : State g} {tr : List (Event g)} {e : Event g}

/-- The invariant holds at the start. -/
theorem fresh (hlt : start < 2^64) (htail : file.shared.control.tailPublish = start)
    (hhead : file.shared.control.headPublish = start) : Inv start (machine g file).init [] where
  core := ⟨Queue.Inv.fresh hlt htail hhead, rfl, nofun⟩
  running := rfl
  called := fun h => absurd rfl h
  closing := nofun
  joined := nofun

/-- What was called stays called. -/
theorem called_append (h : Inv start s tr) (hne : s.stopper ≠ .idle) (e : Event g) :
    (tr ++ [e]).any Event.isStop = true := by
  rw [List.any_append, h.called hne]
  rfl

/-- A step of the publisher or of the thread. -/
theorem aside (h : Inv start s tr) (hcore : Core start s' (tr ++ [e])) (ha : Aside s s') :
    Inv start s' (tr ++ [e]) where
  core := hcore
  running := by
    rw [ha.running, ha.stopper]
    exact h.running
  called := by
    rw [ha.stopper]
    exact fun hne => h.called_append hne e
  closing := by
    intro hclosing
    rw [ha.running]
    cases hrunning : s.running with
    | false => rfl
    | true =>
      -- The last drain had not begun, and does not begin while `running_` is set.
      have hbefore : s.thread.closing = false := by
        by_contra hc
        rw [h.closing (Bool.eq_true_of_not_eq_false hc)] at hrunning
        cases hrunning
      rw [ha.closing hrunning hbefore] at hclosing
      cases hclosing
  joined := by
    rw [ha.stopper]
    exact fun hreturned => ha.finished (h.joined hreturned)

/-- A step of the caller of `stop` that leaves the thread alone. -/
theorem stopper_internal (h : Inv start s tr) {stopper : StopPc} {running : Bool}
    {mutex : Option Holder} (hrunning : running = !stopper.cleared) (hcalled : s.stopper ≠ .idle)
    (hclosing : running = true → s.running = true)
    (hjoined : stopper = .returned → s.thread = .finished) :
    Inv start ⟨s.queue, s.thread, stopper, running, mutex⟩ (tr ++ [.internal]) where
  core := h.core.internal rfl id
  running := hrunning
  called := fun _ => h.called_append hcalled _
  closing := by
    intro hthread
    have hfalse := h.closing hthread
    cases running with
    | false => rfl
    | true => rw [hclosing rfl] at hfalse; cases hfalse
  joined := hjoined

/-- A step of the caller of `stop`. -/
theorem stop_step (h : Inv start s tr) (hs : stopStep s = some (s', e)) :
    Inv start s' (tr ++ [e]) := by
  have hrunning := h.running
  unfold stopStep at hs
  cases hpc : s.stopper <;> simp only [hpc, StopPc.cleared] at hs hrunning
  case idle => cases hs
  case loadRunning =>
    -- `running_` has not been cleared yet, so `stop` does not return here.
    rw [hrunning] at hs
    cases hs
    exact h.stopper_internal rfl (by rw [hpc]; nofun) (fun _ => hrunning) nofun
  case lock =>
    split_ifs at hs
    cases hs
    exact h.stopper_internal hrunning (by rw [hpc]; nofun) id nofun
  case storeRunning =>
    cases hs
    exact h.stopper_internal rfl (by rw [hpc]; nofun) nofun nofun
  case unlock =>
    cases hs
    exact h.stopper_internal hrunning (by rw [hpc]; nofun) id nofun
  case notify =>
    cases hs
    exact h.stopper_internal hrunning (by rw [hpc]; nofun) id nofun
  case join =>
    split_ifs at hs with hend
    cases hs
    exact h.stopper_internal hrunning (by rw [hpc]; nofun) id fun _ => hend
  case returned => cases hs

/-- `stop` is called. -/
theorem stop (h : Inv start s tr) (hpc : s.stopper = .idle) :
    Inv start { s with stopper := .loadRunning } (tr ++ [.stopCalled]) := by
  have hrunning : s.running = true := by
    rw [h.running, hpc]
    rfl
  refine ⟨h.core.stop ?_, hrunning, fun _ => by simp [Event.isStop], h.closing, nofun⟩
  intro hend
  rw [h.closing (by rw [hend]; rfl)] at hrunning
  cases hrunning

/-- Every step keeps the invariant. -/
theorem step (h : Inv start s tr) (hfits : g.Fits) {l : Label g}
    (hs : (machine g file).step s l = some (s', e)) : Inv start s' (tr ++ [e]) := by
  change Subscriber.step file s l = some (s', e) at hs
  cases l with
  | stop =>
    simp only [Subscriber.step] at hs
    split at hs
    · rename_i hpc
      cases hs
      exact h.stop hpc
    · cases hs
  | stopRun => exact h.stop_step hs
  | _ =>
    obtain ⟨hcore, haside⟩ := h.core.step hfits rfl hs
    exact h.aside hcore haside

end Inv

/-- `SpscSubscriber` loses nothing at shutdown. For every power of two `Capacity` and every element
size whose slots fit into the range of offsets, from every file in which both counters have the same
value, in every interleaving of the single accesses of a publisher, of a started subscriber's thread
and of one call of `stop`: what was passed to `on_message_` is the first part of what was published,
and when `stop` has returned, all that was published before it was called has been passed on. -/
theorem nothing_lost {file : Mapping} {start : ℕ} {s : State g} {tr : List (Event g)}
    (hfits : g.Fits) (hlt : start < 2^64) (htail : file.shared.control.tailPublish = start)
    (hhead : file.shared.control.headPublish = start) (hrun : (machine g file).Reaches s tr) :
    delivered tr <+: published tr ∧
      (s.stopper = .returned → tr.any Event.isStop = true ∧
        published (beforeStop tr) <+: delivered tr) := by
  have hinv : Inv start s tr := by
    refine hrun.invariant (fun s tr => Inv start s tr) (Inv.fresh hlt htail hhead) ?_
    intro s tr l s' e _ hinv hs
    exact hinv.step hfits hs
  refine ⟨hinv.core.delivered_first, ?_⟩
  intro hreturned
  have hcalled := hinv.called (by rw [hreturned]; nofun)
  obtain ⟨post, hpost⟩ := exists_beforeStop hcalled
  exact ⟨hcalled, hinv.core.drained (hinv.joined hreturned) _ post hpost⟩

/-- A publisher publishes two bytes. -/
def publishPair (x y : UInt8) : List (Label fourPairs) :=
  .publisher (.call (bytePair x y)) :: List.replicate 5 (.publisher .run)

/-- The thread calls `try_pop`, and takes `n` steps. -/
def popPair (n : ℕ) : List (Label fourPairs) := .pop (bytePair 0 0) :: List.replicate n .run

/-- The thread finds the queue empty, and waits. A value is published, and `stop` is called. The
thread wakes up, passes the value on in its last drain, and ends. Another value is published, and
`stop` returns. -/
def stopWhileWaiting : List (Label fourPairs) :=
  .run :: popPair 4 ++ publishPair 1 2 ++ (.stop :: List.replicate 5 .stopRun) ++
    (.wake false :: List.replicate 4 .run) ++ popPair 6 ++ popPair 2 ++
    publishPair 3 4 ++ [.stopRun]

/-- What was published before the call has been passed on then. -/
theorem nothing_lost_waiting : ∃ mapping s tr,
    createMapping fourPairs.bytes kFlagFixedSPSC = .ok mapping ∧
    (machine fourPairs mapping).Reaches s tr ∧ s.stopper = .returned ∧
    published tr = [[1, 2], [3, 4]] ∧ published (beforeStop tr) = [[1, 2]] ∧
    delivered tr <+: published tr ∧ published (beforeStop tr) <+: delivered tr := by
  obtain ⟨mapping, hmap⟩ : ∃ mapping,
    createMapping fourPairs.bytes kFlagFixedSPSC = .ok mapping := ⟨_, rfl⟩
  obtain ⟨s, tr, hrun, htest⟩ := (machine fourPairs mapping).exists_reaches stopWhileWaiting
    (fun s tr => decide (s.stopper = .returned ∧ published tr = [[1, 2], [3, 4]] ∧
      published (beforeStop tr) = [[1, 2]]))
    (by cases hmap; decide +kernel)
  obtain ⟨hreturned, hpublished, hbefore⟩ := of_decide_eq_true htest
  have hfits : fourPairs.Fits := by
    unfold Geometry.Fits fourPairs
    decide
  have htail : mapping.shared.control.tailPublish = 0 := by cases hmap; rfl
  have hhead : mapping.shared.control.headPublish = 0 := by cases hmap; rfl
  obtain ⟨hfirst, hstopped⟩ := nothing_lost hfits (by decide) htail hhead hrun
  exact ⟨mapping, s, tr, hmap, hrun, hreturned, hpublished, hbefore, hfirst, (hstopped hreturned).2⟩

/-! ## Slots that overlap -/

/-- The state of a subscriber that has not been stopped, with its thread somewhere in the loop. -/
def looping (q : Queue.State g) (thread : ThreadPc) : State g := ⟨q, thread, .idle, true, none⟩

/-- A thread that has waited, until its time was over, goes on to the next drain. -/
def waitOver : List (Label g) := [.run, .run, .wake true, .run, .run, .run, .run]

section Lifted

variable {file : Mapping} {q : Queue.State g} {tr : List (Event g)}

/-- A thread whose drain is over comes to the next one. -/
theorem exists_next_drain {got : Bool}
    (h : (machine g file).Reaches (looping q (Phase.loop got).emptied) tr) :
    ∃ tr', (machine g file).Reaches (looping q (.drain (.loop false))) tr' ∧
      queueEvents tr' = queueEvents tr ∧ delivered tr' = delivered tr := by
  cases got with
  | true =>
    refine ⟨tr ++ [.internal], .step .run h trivial rfl, ?_, ?_⟩
    · simp [Event.queue?]
    · simp [Event.delivered?]
  | false =>
    refine ⟨_, Machine.Run.exec (fun _ _ _ _ => trivial) waitOver h
      (g := fun _ _ _ => true) rfl, ?_, ?_⟩
    · simp [queueEvents, Event.queue?]
    · simp [delivered, Event.delivered?]

/-- The publisher's side of the queue takes a step. -/
theorem step_publish {q' : Queue.State g} {e : Queue.Event g} {l : Queue.Label g}
    {thread : ThreadPc} (hs : Queue.step file q l = some (q', e)) :
    publishStep file (looping q thread) l = some (looping q' thread, .queue e) :=
  Option.map_eq_some_iff.mpr ⟨(q', e), hs, rfl⟩

/-- The thread takes a step of `try_pop`. -/
theorem exists_step_pop {q' : Queue.State g} {e : Queue.Event g} {l : PopLabel g.sizeofT}
    (phase : Phase) (hs : Queue.step file q (.consumer l) = some (q', e)) :
    ∃ l', (machine g file).step (looping q (.drain phase)) l' =
      some (looping q' (phase.popStep e), .queue e) := by
  have hpop : popStep file (looping q (.drain phase)) phase l =
      some (looping q' (phase.popStep e), .queue e) := Option.map_eq_some_iff.mpr ⟨(q', e), hs, rfl⟩
  cases l with
  | call out => exact ⟨.pop out, hpop⟩
  | run => exact ⟨.run, hpop⟩

/-- A subscriber that is not stopped lets every run of its queue happen, and passes on what is
popped in it. -/
theorem exists_lifted {events : List (Queue.Event g)}
    (h : (Queue.machine g file).Reaches q events) :
    ∃ got tr, (machine g file).Reaches (looping q (.drain (.loop got))) tr ∧
      queueEvents tr = events ∧ delivered tr = popped events := by
  induction h with
  | init => exact ⟨false, [.internal], .step .run .init trivial rfl, rfl, rfl⟩
  | @step q events q' e l _ _ hs ih =>
    obtain ⟨got, tr, hrun, rfl, hdelivered⟩ := ih
    change Queue.step file q l = some (q', e) at hs
    cases l with
    | producer l =>
      have hstep : (machine g file).step (looping q (.drain (.loop got))) (.publisher l) =
        some (looping q' (.drain (.loop got)), .queue e) := step_publish hs
      refine ⟨got, tr ++ [.queue e], .step _ hrun trivial hstep, ?_, ?_⟩
      · rw [queueEvents_append, Event.queue?]
      · obtain ⟨-, -, pe, -, -, rfl⟩ := step_producer hs
        rw [delivered_append, popped_append, hdelivered]
        rfl
    | claim =>
      have hstep : (machine g file).step (looping q (.drain (.loop got))) .claim =
        some (looping q' (.drain (.loop got)), .queue e) := step_publish hs
      refine ⟨got, tr ++ [.queue e], .step _ hrun trivial hstep, ?_, ?_⟩
      · rw [queueEvents_append, Event.queue?]
      · rw [delivered_append, popped_append, hdelivered, (step_claim hs).2.2.2.2]
        rfl
    | consumer l =>
      obtain ⟨l', hl'⟩ := exists_step_pop (.loop got) hs
      have hnext := hrun.step l' trivial hl'
      obtain ⟨-, -, pe, -, -, rfl⟩ := step_consumer hs
      cases pe with
      | internal =>
        refine ⟨got, _, hnext, by rw [queueEvents_append, Event.queue?], ?_⟩
        rw [delivered_append, popped_append, hdelivered]
        rfl
      | refused =>
        -- The drain is over. The thread goes round the loop once to pop again.
        obtain ⟨tr', hrun', hqueue, hsame⟩ := exists_next_drain hnext
        refine ⟨false, tr', hrun', by rw [hqueue, queueEvents_append, Event.queue?], ?_⟩
        rw [hsame, delivered_append, popped_append, hdelivered]
        rfl
      | popped out =>
        refine ⟨true, _, .step .run hnext trivial rfl, ?_, ?_⟩
        · rw [queueEvents_append, queueEvents_append]
          exact List.append_nil _
        · rw [delivered_append, delivered_append, popped_append, hdelivered]
          exact congrArg (· ++ [out]) (List.append_nil _)

end Lifted

/-- In a queue of huge values, with the counters at the last slot, what is passed on is not what was
published, although every slot used lies in the ring that was created. -/
theorem mixed_up : ∃ mapping file s tr,
    createMapping hugeValues.bytes kFlagFixedSPSC = .ok mapping ∧
    file = { mapping with shared := countersAt (2^33 - 1) mapping.shared } ∧
    hugeValues.slot (2^33 - 1) + hugeValues.sizeofT ≤ mapping.capacity ∧
    hugeValues.slot (2^33) + hugeValues.sizeofT ≤ mapping.capacity ∧
    (machine hugeValues file).Reaches s tr ∧ ¬ delivered tr <+: published tr := by
  obtain ⟨mapping, hmap⟩ : ∃ mapping,
    createMapping hugeValues.bytes kFlagFixedSPSC = .ok mapping := ⟨_, rfl⟩
  obtain ⟨q, events, hrun, hnot⟩ := exists_overwritten (g := hugeValues)
    { mapping with shared := countersAt (2^33 - 1) mapping.shared } (2^33 - 1) (by decide) rfl rfl
    (by decide) (by decide) (by decide)
  obtain ⟨got, tr, hlifted, rfl, hdelivered⟩ := exists_lifted hrun
  refine ⟨mapping, _, _, tr, hmap, rfl, ?_, ?_, hlifted, ?_⟩
  · cases hmap
    decide
  · cases hmap
    decide
  · rw [hdelivered]
    exact hnot

end LfRing.Queue.Subscriber

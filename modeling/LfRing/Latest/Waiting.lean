import LfRing.Latest.Behind

/-!
# Waiting for a notification

`write_and_notify`, `wait_for_update` and `notify_counter` of `include/lf_ring/shared_latest.hpp`,
with the futex calls of `include/lf_ring/futex.hpp`, over the machine of a slot. A reader takes the
low 32 bits of the notification counter as a snapshot, may call `try_read`, and waits. The kernel
compares the snapshot with the low 32 bits of the counter and puts the reader to sleep, or lets it
go on, in one step. A process that notifies increments the counter, and then wakes all readers that
are asleep.

A reader that is asleep has the current low bits as its snapshot, unless a process is between its
increment and its wake (`Inv.asleep`). Between the snapshot and the wait the counter may have come
round once its low bits have taken all values. If not, nothing was notified in between, and nothing
completely since (`Inv.waited`).

The machine allows any number of processes that write, claim and die, at any moment. A process that
dies between the increment and the wake is between them from then on: nobody wakes the readers in
its place.
-/

namespace LfRing.Latest.Waiting

variable {size : ℕ}

/-! ## Futexes -/

/-- `futex_load`: the low 32 bits. -/
def futexLoad (a : ℕ) : ℕ := a % 2^32

/-- `notify_counter`. -/
def notifyCounter (m : Shared) : ℕ := futexLoad m.control.tailPublish

/-- How a `FUTEX_WAIT` comes back. -/
inductive WaitOutcome
  /-- Woken by `FUTEX_WAKE`. -/
  | woken
  /-- `EAGAIN`: the value was another one. -/
  | again
  /-- `EINTR`. -/
  | interrupted
  /-- `ETIMEDOUT`. -/
  | timedOut
  /-- `EINVAL`: the timeout is negative. -/
  | invalid
deriving DecidableEq, Repr

/-- What `futex_wait_timeout` returns. -/
def WaitOutcome.result : WaitOutcome → Bool
  | woken => true
  | again => true
  | interrupted => true
  | timedOut => false
  | invalid => false

/-- Where a reader is with `wait_for_update`, and its snapshot. -/
inductive WaitPc
  /-- Not in a call. -/
  | awake (seen : Option ℕ)
  /-- Asleep in the kernel's queue. -/
  | asleep (seen : ℕ)
  /-- Taken out of the queue by `FUTEX_WAKE`, about to return. -/
  | woken (seen : ℕ)
deriving DecidableEq, Repr

/-- The snapshot. -/
def WaitPc.seen : WaitPc → Option ℕ
  | awake seen => seen
  | asleep seen => some seen
  | woken seen => some seen

/-- `FUTEX_WAKE` takes every reader out of the queue. -/
def WaitPc.wake : WaitPc → WaitPc
  | asleep seen => woken seen
  | pc => pc

/-- What a step of a process does about the futex. -/
inductive Notify
  /-- Nothing. -/
  | none
  /-- It increments the counter. -/
  | add
  /-- It calls `futex_wake_all`. -/
  | wake
deriving DecidableEq, Repr

/-- What the next step of a process does about the futex. -/
def notifies : WriterPc size → WriterLabel size → Notify
  | .announce, .run => .add
  | .recoverNotify, .run => .add
  | .wake, .run => .wake
  | .recoverWake, .run => .wake
  | _, _ => .none

/-! ## The machine -/

/-- The slot, and where every reader is with its waiting. -/
structure State (size : ℕ) where
  /-- The slot. -/
  slot : Latest.State size
  /-- Where the readers are. -/
  waits : ℕ → WaitPc

/-- Who moves next. -/
inductive Label (size : ℕ)
  /-- A process as a writer. -/
  | writer (i : ℕ) (l : WriterLabel size)
  /-- A reader, in `try_read`. -/
  | reader (j : ℕ) (l : ReadLabel size)
  /-- The clock, by `d` nanoseconds. -/
  | tick (d : ℕ)
  /-- A reader calls `notify_counter`. -/
  | snapshot (j : ℕ)
  /-- A reader calls `wait_for_update` with its snapshot and a timeout in milliseconds. -/
  | wait (j : ℕ) (timeout : ℤ)
  /-- A reader that was woken returns. -/
  | resume (j : ℕ)
  /-- The time of a reader that is asleep is over. -/
  | expire (j : ℕ)
  /-- A signal interrupts a reader that is asleep. -/
  | interrupt (j : ℕ)

/-- What a step reports. -/
inductive Event (size : ℕ)
  /-- A step of the slot. -/
  | slot (e : Latest.Event size)
  /-- A process has incremented the counter. -/
  | announced (i : ℕ) (e : Latest.Event size)
  /-- A process has woken the readers. -/
  | woke (i : ℕ) (e : Latest.Event size)
  /-- A reader has taken a snapshot. -/
  | snapshot (j : ℕ)
  /-- A reader has fallen asleep. -/
  | enqueued (j : ℕ)
  /-- `wait_for_update` has returned. -/
  | returned (j : ℕ) (result : Bool)

/-- A step of a process. -/
def writerStep (cap : ℕ) (s : State size) (i : ℕ) (l : WriterLabel size) :
    Option (State size × Event size) :=
  (Latest.step cap s.slot (.writer i l)).map fun x =>
    match notifies (s.slot.writers i) l with
    | .none => ({ s with slot := x.1 }, .slot x.2)
    | .add => ({ s with slot := x.1 }, .announced i x.2)
    | .wake => (⟨x.1, fun j => (s.waits j).wake⟩, .woke i x.2)

/-- The call of `FUTEX_WAIT`. The kernel looks at the timeout first, and then compares and puts the
reader to sleep in one step. -/
def waitStep (s : State size) (j seen : ℕ) (timeout : ℤ) : State size × Event size :=
  if timeout < 0 then (s, .returned j WaitOutcome.invalid.result)
  else if seen = notifyCounter s.slot.mem then
    ({ s with waits := Function.update s.waits j (.asleep seen) }, .enqueued j)
  else (s, .returned j WaitOutcome.again.result)

/-- A reader comes back from `wait_for_update`. -/
def leave (s : State size) (j seen : ℕ) (outcome : WaitOutcome) : State size × Event size :=
  ({ s with waits := Function.update s.waits j (.awake (some seen)) }, .returned j outcome.result)

/-- One step of a process, of a reader or of the clock. A reader does one thing at a time. -/
def step (cap : ℕ) (s : State size) : Label size → Option (State size × Event size)
  | .writer i l => writerStep cap s i l
  | .reader j l =>
    match s.waits j with
    | .awake _ =>
      (Latest.step cap s.slot (.reader j l)).map fun x => ({ s with slot := x.1 }, .slot x.2)
    | _ => none
  | .tick d => (Latest.step cap s.slot (.tick d)).map fun x => ({ s with slot := x.1 }, .slot x.2)
  | .snapshot j =>
    match s.waits j, s.slot.readers j with
    | .awake _, .idle =>
      some ({ s with
        waits := Function.update s.waits j (.awake (some (notifyCounter s.slot.mem))) },
          .snapshot j)
    | _, _ => none
  | .wait j timeout =>
    match s.waits j, s.slot.readers j with
    | .awake (some seen), .idle => some (waitStep s j seen timeout)
    | _, _ => none
  | .resume j =>
    match s.waits j with
    | .woken seen => some (leave s j seen .woken)
    | _ => none
  | .expire j =>
    match s.waits j with
    | .asleep seen => some (leave s j seen .timedOut)
    | _ => none
  | .interrupt j =>
    match s.waits j with
    | .asleep seen => some (leave s j seen .interrupted)
    | _ => none

/-- Processes and readers on a mapping, from the time `start` on. -/
def machine (size : ℕ) (mapping : Mapping) (start : ℕ) :
    Machine (State size) (Label size) (Event size) where
  init := ⟨(Latest.machine size mapping start).init, fun _ => .awake none⟩
  step := step mapping.capacity

/-! ## What has happened so far -/

/-- The slot's event. -/
def Event.slot? : Event size → List (Latest.Event size)
  | .slot e => [e]
  | .announced _ e => [e]
  | .woke _ e => [e]
  | _ => []

/-- The events of the slot. -/
def slots (tr : List (Event size)) : List (Latest.Event size) := tr.flatMap Event.slot?

/-- Process `i` is between its increment of the counter and its wake. -/
def between (i : ℕ) (tr : List (Event size)) : Bool :=
  tr.foldl (fun b e => match e with
    | .announced k _ => if k = i then true else b
    | .woke k _ => if k = i then false else b
    | _ => b) false

/-- What has been notified, as a reader sees it. -/
structure Ledger where
  /-- The increments of the counter since its last snapshot. -/
  notified : ℕ
  /-- Those of them before it last fell asleep. -/
  atWait : ℕ
  /-- The processes that have incremented the counter since the snapshot. -/
  begun : ℕ → Bool
  /-- Whether one of them has woken the readers since. -/
  completed : Bool

/-- One more event, as it concerns reader `j`. -/
def Ledger.next (j : ℕ) (g : Ledger) : Event size → Ledger
  | .announced i _ =>
    { g with notified := g.notified + 1, begun := Function.update g.begun i true }
  | .woke i _ => { g with completed := g.completed || g.begun i }
  | .snapshot k => if k = j then ⟨0, 0, fun _ => false, false⟩ else g
  | .enqueued k => if k = j then { g with atWait := g.notified } else g
  | _ => g

/-- What has been notified since the last snapshot of reader `j`. -/
def ledger (j : ℕ) (tr : List (Event size)) : Ledger :=
  tr.foldl (Ledger.next j) ⟨0, 0, fun _ => false, false⟩

section Histories

variable (tr : List (Event size)) (e : Event size)

/-- One more step adds what it does to the slot. -/
@[simp] theorem slots_append : slots (tr ++ [e]) = slots tr ++ e.slot? := by
  simp [slots]

/-- The ledger with one more event is the one before it, carried on by the event. -/
@[simp] theorem ledger_append (j : ℕ) : ledger j (tr ++ [e]) = (ledger j tr).next j e := by
  simp [ledger]

/-- Process `i` enters the gap when it increments the counter, and leaves it when it wakes the
readers. -/
theorem between_append (i : ℕ) : between i (tr ++ [e]) = match e with
    | .announced k _ => if k = i then true else between i tr
    | .woke k _ => if k = i then false else between i tr
    | _ => between i tr := by
  simp only [between, List.foldl_append, List.foldl_cons, List.foldl_nil]

end Histories

/-! ## What a step can do -/

/-- The counter changes where it is incremented. -/
theorem tailPublish_step {cap now : ℕ} {m : Shared} {pc pc' : WriterPc size} {l : WriterLabel size}
    {eff : Effect} {e : WriterEvent size} (hs : pc.step cap m now l = some (eff, pc', e)) :
    (eff.apply m).control.tailPublish =
      if notifies pc l = .add then u64 (m.control.tailPublish + 1) else m.control.tailPublish := by
  cases l with
  | crash => cases pc <;> cases hs <;> rfl
  | claim threshold => cases pc <;> cases hs; rfl
  | write v notify => cases pc <;> cases hs; rfl
  | run =>
    cases pc with
    | gone => cases hs
    | idle => cases hs
    | claimExchange old t =>
      simp only [WriterPc.step, WriterPc.exchange] at hs
      split_ifs at hs <;> cases hs <;> rfl
    | _ =>
      obtain ⟨rfl, -⟩ := Prod.mk.inj (Option.some.inj hs)
      rfl

/-- The transitions. Those of the slot come with its step, which is a writer's only if the label
is. -/
inductive Moves (cap : ℕ) (s : State size) (l : Label size) : State size → Event size → Prop
  /-- A step of the slot that leaves the counter alone. -/
  | slot {l' : Latest.Label size} {slot' : Latest.State size} {e : Latest.Event size}
    (hl : ∀ i wl, l' = .writer i wl → l = .writer i wl)
    (hs : Latest.step cap s.slot l' = some (slot', e))
    (h : notifyCounter slot'.mem = notifyCounter s.slot.mem) :
    Moves cap s l { s with slot := slot' } (.slot e)
  /-- A process increments the counter. -/
  | announce {i : ℕ} {wl : WriterLabel size} {slot' : Latest.State size} {e : Latest.Event size}
    (hl : l = .writer i wl) (hs : Latest.step cap s.slot (.writer i wl) = some (slot', e))
    (h : notifyCounter slot'.mem = futexLoad (notifyCounter s.slot.mem + 1)) :
    Moves cap s l { s with slot := slot' } (.announced i e)
  /-- A process wakes the readers. -/
  | wake {i : ℕ} {wl : WriterLabel size} {slot' : Latest.State size} {e : Latest.Event size}
    (hl : l = .writer i wl) (hs : Latest.step cap s.slot (.writer i wl) = some (slot', e))
    (h : notifyCounter slot'.mem = notifyCounter s.slot.mem) :
    Moves cap s l ⟨slot', fun j => (s.waits j).wake⟩ (.woke i e)
  /-- A reader takes a snapshot. -/
  | snapshot (j : ℕ) : Moves cap s l { s with
      waits := Function.update s.waits j (.awake (some (notifyCounter s.slot.mem))) } (.snapshot j)
  /-- A reader falls asleep. -/
  | sleep (j : ℕ) (h : (s.waits j).seen = some (notifyCounter s.slot.mem)) : Moves cap s l { s with
      waits := Function.update s.waits j (.asleep (notifyCounter s.slot.mem)) } (.enqueued j)
  /-- A reader does not fall asleep. -/
  | refuse (j : ℕ) (result : Bool) : Moves cap s l s (.returned j result)
  /-- A reader comes back. -/
  | leave (j seen : ℕ) (result : Bool) (h : (s.waits j).seen = some seen) : Moves cap s l { s with
      waits := Function.update s.waits j (.awake (some seen)) } (.returned j result)

section Steps

variable {cap : ℕ} {s s' : State size} {e : Event size}

/-- The steps of a process. -/
theorem moves_writer {i : ℕ} {l : WriterLabel size} (hs : writerStep cap s i l = some (s', e)) :
    Moves cap s (.writer i l) s' e := by
  obtain ⟨⟨slot', x⟩, hslot, heq⟩ := Option.map_eq_some_iff.mp hs
  obtain ⟨eff, pc, we, hstep, hslot', -⟩ := step_writer hslot
  have htail := tailPublish_step hstep
  rw [show eff.apply s.slot.mem = slot'.mem by rw [hslot']] at htail
  cases hnotify : notifies (s.slot.writers i) l with
  | none =>
    rw [hnotify, if_neg nofun] at htail
    rw [hnotify] at heq
    cases heq
    refine .slot (fun k wl hl => ?_) hslot (congrArg futexLoad htail)
    cases hl
    rfl
  | add =>
    rw [hnotify, if_pos rfl] at htail
    rw [hnotify] at heq
    cases heq
    refine .announce rfl hslot ((congrArg futexLoad htail).trans ?_)
    unfold notifyCounter futexLoad u64
    omega
  | wake =>
    rw [hnotify, if_neg nofun] at htail
    rw [hnotify] at heq
    cases heq
    exact .wake rfl hslot (congrArg futexLoad htail)

/-- The call of `FUTEX_WAIT`. -/
theorem moves_wait {l : Label size} {j seen : ℕ} (timeout : ℤ)
    (hpc : s.waits j = .awake (some seen)) :
    Moves cap s l (waitStep s j seen timeout).1 (waitStep s j seen timeout).2 := by
  unfold waitStep
  split_ifs with htimeout hseen
  · exact .refuse j _
  · subst hseen
    exact .sleep j (by rw [hpc]; rfl)
  · exact .refuse j _

/-- Every step is one of the transitions. -/
theorem step_moves {l : Label size} (hs : step cap s l = some (s', e)) : Moves cap s l s' e := by
  cases l with
  | writer i l => exact moves_writer hs
  | reader j l =>
    simp only [step] at hs
    split at hs
    · obtain ⟨⟨slot', x⟩, hslot, heq⟩ := Option.map_eq_some_iff.mp hs
      cases heq
      have hl : ∀ i wl, Latest.Label.reader j l = .writer i wl →
          Label.reader j l = .writer i wl := nofun
      refine .slot hl hslot ?_
      obtain ⟨pc, re, -, rfl, -⟩ := step_reader hslot
      rfl
    · cases hs
  | tick d =>
    cases hs
    have hl : ∀ i wl, (.tick d : Latest.Label size) = .writer i wl →
        .tick d = Label.writer i wl := nofun
    exact .slot hl rfl rfl
  | snapshot j =>
    simp only [step] at hs
    split at hs
    · cases hs
      exact .snapshot j
    · cases hs
  | wait j timeout =>
    simp only [step] at hs
    split at hs
    · rename_i seen hpc _
      have hstate : (waitStep s j seen timeout).1 = s' := by rw [Option.some.inj hs]
      have hevent : (waitStep s j seen timeout).2 = e := by rw [Option.some.inj hs]
      rw [← hstate, ← hevent]
      exact moves_wait timeout hpc
    · cases hs
  | resume j =>
    simp only [step] at hs
    split at hs
    · rename_i seen hpc
      cases hs
      exact .leave j seen _ (by rw [hpc]; rfl)
    · cases hs
  | expire j =>
    simp only [step] at hs
    split at hs
    · rename_i seen hpc
      cases hs
      exact .leave j seen _ (by rw [hpc]; rfl)
    · cases hs
  | interrupt j =>
    simp only [step] at hs
    split at hs
    · rename_i seen hpc
      cases hs
      exact .leave j seen _ (by rw [hpc]; rfl)
    · cases hs

/-- What a transition does to the slot. -/
theorem Moves.slot_step {l : Label size} (h : Moves cap s l s' e) :
    (s'.slot = s.slot ∧ e.slot? = []) ∨ ∃ l' e', (∀ i wl, l' = .writer i wl → l = .writer i wl) ∧
      Latest.step cap s.slot l' = some (s'.slot, e') ∧ e.slot? = [e'] := by
  cases h with
  | slot hl hs _ => exact Or.inr ⟨_, _, hl, hs, rfl⟩
  | announce hl hs _ =>
    refine Or.inr ⟨_, _, fun k wl hk => ?_, hs, rfl⟩
    rw [hl]
    cases hk
    rfl
  | wake hl hs _ =>
    refine Or.inr ⟨_, _, fun k wl hk => ?_, hs, rfl⟩
    rw [hl]
    cases hk
    rfl
  | _ => exact Or.inl ⟨rfl, rfl⟩

end Steps

/-! ## The invariant -/

/-- What holds at every moment. -/
structure Inv (s : State size) (tr : List (Event size)) : Prop where
  /-- The counter has gone on from a reader's snapshot. -/
  counter : ∀ j n, (s.waits j).seen = some n →
    notifyCounter s.slot.mem = futexLoad (n + (ledger j tr).notified)
  /-- A reader that is asleep has the current counter as its snapshot, or it will be woken. -/
  asleep : ∀ j n, s.waits j = .asleep n →
    n = notifyCounter s.slot.mem ∨ ∃ i, between i tr = true
  /-- When it fell asleep the counter had come round a number of times, and if that number is zero,
  no process has notified the readers since the snapshot and woken them. -/
  waited : ∀ j n, s.waits j = .asleep n → futexLoad (ledger j tr).atWait = 0 ∧
    ((ledger j tr).atWait = 0 → (ledger j tr).completed = false)
  /-- Before the first increment no process has begun to notify. -/
  unbegun : ∀ j, (ledger j tr).notified = 0 →
    (∀ i, (ledger j tr).begun i = false) ∧ (ledger j tr).completed = false

namespace Inv

variable {s s' : State size} {tr : List (Event size)} {e : Event size}

/-- The invariant holds at the start. -/
theorem fresh (slot : Latest.State size) : Inv ⟨slot, fun _ => .awake none⟩ [] where
  counter := nofun
  asleep := nofun
  waited := nofun
  unbegun := fun _ _ => ⟨fun _ => rfl, rfl⟩

/-- A step that concerns no reader's waiting. -/
theorem of_slot (h : Inv s tr) {slot' : Latest.State size}
    (hcounter : notifyCounter slot'.mem = notifyCounter s.slot.mem)
    (hledger : ∀ j, (ledger j tr).next j e = ledger j tr)
    (hbetween : ∀ i, between i (tr ++ [e]) = between i tr) :
    Inv { s with slot := slot' } (tr ++ [e]) := by
  constructor
  · intro j n hn
    rw [hcounter, ledger_append, hledger]
    exact h.counter j n hn
  · intro j n hn
    simp only [hcounter, hbetween]
    exact h.asleep j n hn
  · intro j n hn
    rw [ledger_append, hledger]
    exact h.waited j n hn
  · intro j
    rw [ledger_append, hledger]
    exact h.unbegun j

/-- A process increments the counter. -/
theorem announce (h : Inv s tr) {slot' : Latest.State size} {x : Latest.Event size} (i : ℕ)
    (hcounter : notifyCounter slot'.mem = futexLoad (notifyCounter s.slot.mem + 1)) :
    Inv { s with slot := slot' } (tr ++ [.announced i x]) := by
  have hledger : ∀ j, ledger j (tr ++ [.announced i x]) = { ledger j tr with
      notified := (ledger j tr).notified + 1
      begun := Function.update (ledger j tr).begun i true } := fun j => ledger_append tr _ j
  constructor
  · intro j n hn
    have hbefore := h.counter j n hn
    rw [hledger]
    change notifyCounter slot'.mem = futexLoad (n + ((ledger j tr).notified + 1))
    rw [hcounter, hbefore]
    unfold futexLoad
    omega
  · -- The process is between its two steps now.
    intro j n _
    refine Or.inr ⟨i, ?_⟩
    rw [between_append]
    exact if_pos rfl
  · intro j n hn
    rw [hledger]
    exact h.waited j n hn
  · intro j hzero
    rw [hledger] at hzero
    exact absurd hzero (Nat.succ_ne_zero _)

/-- A process wakes the readers. -/
theorem wake (h : Inv s tr) {slot' : Latest.State size} {x : Latest.Event size} (i : ℕ)
    (hcounter : notifyCounter slot'.mem = notifyCounter s.slot.mem) :
    Inv ⟨slot', fun j => (s.waits j).wake⟩ (tr ++ [.woke i x]) := by
  have hledger : ∀ j, ledger j (tr ++ [.woke i x]) = { ledger j tr with
      completed := (ledger j tr).completed || (ledger j tr).begun i } := fun j =>
        ledger_append tr _ j
  have hnobody : ∀ j n, (s.waits j).wake ≠ .asleep n := by
    intro j n
    cases s.waits j <;> exact nofun
  have hseen : ∀ j, (s.waits j).wake.seen = (s.waits j).seen := by
    intro j
    cases s.waits j <;> rfl
  constructor
  · intro j n hn
    rw [hledger, hcounter]
    exact h.counter j n ((hseen j).symm.trans hn)
  · exact fun j n hn => absurd hn (hnobody j n)
  · exact fun j n hn => absurd hn (hnobody j n)
  · intro j hzero
    rw [hledger] at hzero ⊢
    obtain ⟨hbegun, hcompleted⟩ := h.unbegun j hzero
    exact ⟨hbegun, by rw [hcompleted, hbegun]; rfl⟩

/-- Reader `j` is awake then, or asleep with the current counter as its snapshot. What it knows is
to be shown, and the others know what they did. -/
theorem of_reader (h : Inv s tr) {j : ℕ} {pc : WaitPc}
    (hother : ∀ k, k ≠ j → (ledger k tr).next k e = ledger k tr)
    (hbetween : ∀ i, between i (tr ++ [e]) = between i tr)
    (hcounter : ∀ n, pc.seen = some n → notifyCounter s.slot.mem = futexLoad
      (n + ((ledger j tr).next j e).notified))
    (hasleep : ∀ n, pc = .asleep n → n = notifyCounter s.slot.mem)
    (hwaited : ∀ n, pc = .asleep n → futexLoad ((ledger j tr).next j e).atWait = 0 ∧
      (((ledger j tr).next j e).atWait = 0 → ((ledger j tr).next j e).completed = false))
    (hunbegun : ((ledger j tr).next j e).notified = 0 →
      (∀ i, ((ledger j tr).next j e).begun i = false) ∧
      ((ledger j tr).next j e).completed = false) :
    Inv { s with waits := Function.update s.waits j pc } (tr ++ [e]) := by
  constructor
  · refine (Function.forall_update_iff s.waits fun k pc => ∀ n, pc.seen = some n →
      notifyCounter s.slot.mem = futexLoad (n + (ledger k (tr ++ [e])).notified)).mpr ⟨?_, ?_⟩
    · rw [ledger_append]
      exact hcounter
    · intro k hk
      rw [ledger_append, hother k hk]
      exact h.counter k
  · refine (Function.forall_update_iff s.waits fun k pc => ∀ n, pc = .asleep n →
      n = notifyCounter s.slot.mem ∨ ∃ i, between i (tr ++ [e]) = true).mpr ⟨?_, ?_⟩
    · exact fun n hn => Or.inl (hasleep n hn)
    · intro k _
      simp only [hbetween]
      exact h.asleep k
  · refine (Function.forall_update_iff s.waits fun k pc => ∀ n, pc = .asleep n →
      futexLoad (ledger k (tr ++ [e])).atWait = 0 ∧
        ((ledger k (tr ++ [e])).atWait = 0 → (ledger k (tr ++ [e])).completed = false)).mpr ⟨?_, ?_⟩
    · rw [ledger_append]
      exact hwaited
    · intro k hk
      rw [ledger_append, hother k hk]
      exact h.waited k
  · intro k
    rw [ledger_append]
    by_cases hk : k = j
    · subst hk
      exact hunbegun
    · rw [hother k hk]
      exact h.unbegun k

/-- Every step keeps the invariant. -/
theorem step {cap : ℕ} {l : Label size} (h : Inv s tr) (hs : Moves cap s l s' e) :
    Inv s' (tr ++ [e]) := by
  cases hs with
  | slot _ _ hcounter => exact h.of_slot hcounter (fun _ => rfl) fun i => between_append tr _ i
  | announce _ _ hcounter => exact h.announce _ hcounter
  | wake _ _ hcounter => exact h.wake _ hcounter
  | snapshot j =>
    have hledger : (ledger j tr).next j (.snapshot j : Event size) =
        ⟨0, 0, fun _ => false, false⟩ :=
      if_pos rfl
    refine h.of_reader (fun k hk => if_neg hk.symm) (fun i => between_append tr _ i) ?_
      nofun nofun ?_
    · rw [hledger]
      rintro n ⟨⟩
      exact (Nat.mod_mod _ _).symm
    · rw [hledger]
      exact fun _ => ⟨fun _ => rfl, rfl⟩
  | sleep j hseen =>
    have hledger : (ledger j tr).next j (.enqueued j : Event size) =
        { ledger j tr with atWait := (ledger j tr).notified } := if_pos rfl
    have hcounter := h.counter j _ hseen
    refine h.of_reader (fun k hk => if_neg hk.symm) (fun i => between_append tr _ i) ?_ ?_ ?_ ?_
    · rw [hledger]
      rintro n ⟨⟩
      exact hcounter
    · rintro n ⟨⟩
      rfl
    · -- The low bits are those of the snapshot again.
      rw [hledger]
      rintro n ⟨⟩
      refine ⟨?_, fun hzero => (h.unbegun j hzero).2⟩
      change futexLoad (ledger j tr).notified = 0
      unfold notifyCounter futexLoad at hcounter
      unfold futexLoad
      omega
    · rw [hledger]
      exact h.unbegun j
  | refuse j result =>
    exact h.of_slot rfl (fun _ => rfl) fun i => between_append tr _ i
  | leave j seen result hseen =>
    refine h.of_reader (fun _ _ => rfl) (fun i => between_append tr _ i) ?_ nofun nofun
      (h.unbegun j)
    rintro n ⟨⟩
    exact h.counter j _ hseen

end Inv

/-- One writer at a time: a process that takes the slot over finds no other alive that is the
writer. -/
def soleWriter (s : State size) (_ : List (Event size)) (l : Label size) : Prop :=
  ∀ i wl, l = .writer i wl → Latest.soleWriter s.slot [] (.writer i wl)

/-- No wake-up is lost. In every interleaving of the single accesses of any number of processes that
write, notify, claim and die, and of any number of readers:

* where no process is between its increment of the counter and its wake, every reader that is asleep
  has the current low 32 bits of the counter as its snapshot;
* a reader is not asleep behind a notification that came after its snapshot and is complete, if the
  counter was incremented less than `2^32` times between the snapshot and the wait;
* with one writer at a time, a read that is called behind a committed write, with no recovery won
  since and fewer than `2^63` writes begun while it is under way, returns the value of that write or
  of a later one, if it succeeds. -/
theorem no_lost_wakeup {mapping : Mapping} {start : ℕ}
    (hcreate : createMapping size kFlagLatest = .ok mapping) :
    (∀ s tr, (machine size mapping start).Reaches s tr →
      ((∀ i, between i tr = false) → ∀ j n, s.waits j = .asleep n → n = notifyCounter s.slot.mem) ∧
      ∀ j, (ledger j tr).atWait < 2^32 → (ledger j tr).completed = true →
        ∀ n, s.waits j ≠ .asleep n) ∧
    ∀ s tr pre es i (w : Payload size), (machine size mapping start).Run soleWriter s tr →
      slots tr = pre ++ .writer i (.committed w) :: es → (∀ k, .writer k .won ∉ es) →
      ∀ j n out, (n, out) ∈ (readsSince j es).done → n < 2^63 → out ∈ w.1 :: committed es := by
  constructor
  · intro s tr hrun
    have hinv : Inv s tr := by
      refine hrun.invariant Inv (Inv.fresh _) ?_
      exact fun s tr l s' e _ hinv hs => hinv.step (step_moves hs)
    constructor
    · intro hnobody j n hn
      refine (hinv.asleep j n hn).resolve_right ?_
      rintro ⟨i, hi⟩
      rw [hnobody i] at hi
      cases hi
    · intro j hlt hcompleted n hn
      obtain ⟨hround, hnone⟩ := hinv.waited j n hn
      rw [hnone ((Nat.mod_eq_of_lt hlt).symm.trans hround)] at hcompleted
      cases hcompleted
  · intro s tr pre es i w hrun hslots hwon j n out hdone hn
    have hslot : (Latest.machine size mapping start).Run Latest.soleWriter s.slot (slots tr) := by
      refine hrun.project_of State.slot Event.slot? rfl fun s tr l s' e hsole hs => ?_
      rcases (step_moves hs).slot_step with hsame | ⟨l', e', hlabel, hs', hone⟩
      · exact Or.inl hsame
      · refine Or.inr ⟨l', e', fun k hk => ?_, hs', hone⟩
        exact hsole k .run (hlabel k .run hk) k rfl
    rw [hslots] at hslot
    exact mem_of_read_behind (createMapping_shared hcreate) hslot hwon hdone hn

/-! ## A reader that is woken, and one that need not wait -/

/-- The test that nobody is about to take the slot over. -/
def soleWriterTest (s : State size) (_ : List (Event size)) : Label size → Bool
  | .writer i l => unclaimedTest s.slot [] (.writer i l)
  | _ => true

/-- Where nobody is about to take the slot over, there is one writer at a time. -/
theorem soleWriter_of_test (s : State size) (tr : List (Event size)) (l : Label size)
    (h : soleWriterTest s tr l = true) : soleWriter s tr l := by
  rintro i wl rfl
  exact (unclaimed_of_test s.slot [] _ h).1

/-- Process `i` commits a write. -/
def commits (i : ℕ) : Latest.Event size → Bool
  | .writer k (.committed _) => k = i
  | _ => false

/-- `write_and_notify` or `write` of process `i` returns. -/
def returns (i : ℕ) : Latest.Event size → Bool
  | .writer k .written => k = i
  | _ => false

/-- The claim has won the exchange of the heartbeat. -/
def wins : Latest.Event size → Bool
  | .writer _ .won => true
  | _ => false

/-- What happened behind the first event with `p`. -/
def behindFirst (p : Latest.Event size → Bool) (es : List (Latest.Event size)) :
    List (Latest.Event size) :=
  (es.dropWhile fun e => !p e).tail

/-- If there is one, it stands before them. -/
theorem eq_append_behindFirst {p : Latest.Event size → Bool} {es : List (Latest.Event size)}
    (h : es.any p = true) : ∃ pre e, p e = true ∧ es = pre ++ e :: behindFirst p es := by
  induction es with
  | nil => cases h
  | cons x es ih =>
    cases hx : p x with
    | true => exact ⟨[], x, hx, by simp [behindFirst, hx]⟩
    | false =>
      have hrest : behindFirst p (x :: es) = behindFirst p es := by simp [behindFirst, hx]
      rw [List.any_cons, hx, Bool.false_or] at h
      obtain ⟨pre, e, he, heq⟩ := ih h
      refine ⟨x :: pre, e, he, ?_⟩
      rw [hrest, List.cons_append, ← heq]

/-- The event is a commit then. -/
theorem exists_of_commits {i : ℕ} {e : Latest.Event size} (h : commits i e = true) :
    ∃ w, e = .writer i (.committed w) := by
  unfold commits at h
  split at h
  · obtain rfl := of_decide_eq_true h
    exact ⟨_, rfl⟩
  · cases h

/-- The event is the return then. -/
theorem eq_of_returns {i : ℕ} {e : Latest.Event size} (h : returns i e = true) :
    e = .writer i .written := by
  unfold returns at h
  split at h
  · obtain rfl := of_decide_eq_true h
    rfl
  · cases h

/-- No claim wins in these. -/
theorem not_won_of_any {es : List (Latest.Event size)} (h : es.any wins = false) (k : ℕ) :
    .writer k .won ∉ es := by
  intro hk
  rw [List.any_eq_true.mpr ⟨_, hk, rfl⟩] at h
  cases h

/-- The process that increments the counter. -/
def Event.announcer? : Event size → List ℕ
  | .announced i _ => [i]
  | _ => []

/-- A process that has not incremented the counter is not between that and its wake. -/
theorem between_of_not_mem {i : ℕ} {tr : List (Event size)} (h : i ∉ tr.flatMap Event.announcer?) :
    between i tr = false := by
  induction tr using List.reverseRecOn with
  | nil => rfl
  | append_singleton tr e ih =>
    rw [List.flatMap_append, List.flatMap_singleton, List.mem_append, not_or] at h
    rw [between_append]
    cases e with
    | announced k x =>
      have hk : k ≠ i := fun heq => h.2 (List.mem_singleton.mpr heq.symm)
      exact (if_neg hk).trans (ih h.1)
    | woke k x =>
      dsimp only
      split_ifs
      · rfl
      · exact ih h.1
    | _ => exact ih h.1

/-- Readers 4 and 5 take a snapshot. Reader 4 falls asleep, and the creator writes a value and
notifies. Reader 4 is woken and reads the value. Reader 5 waits, and is told at once. Reader 6 takes
a snapshot and falls asleep. -/
def wokenReader : List (Label 2) :=
  [.snapshot 4, .snapshot 5, .wait 4 100, .writer 0 (.write (bytePair 1 2) true)] ++
    List.replicate 9 (.writer 0 .run) ++
    [.resume 4, .reader 4 (.call ⟨none, 8, bytePair 9 9⟩)] ++ List.replicate 5 (.reader 4 .run) ++
    [.wait 5 100, .snapshot 6, .wait 6 100]

/-- Reader 5 is not asleep then, reader 6 is, rightly, and reader 4 has read the value. -/
theorem no_lost_wakeup_woken : ∃ mapping s tr pre es,
    ∃ w : Payload 2, createMapping 2 kFlagLatest = .ok mapping ∧
    (machine 2 mapping 0).Run soleWriter s tr ∧ s.waits 6 = .asleep 1 ∧
      1 = notifyCounter s.slot.mem ∧
    (ledger 5 tr).completed = true ∧ (∀ n, s.waits 5 ≠ .asleep n) ∧
    slots tr = pre ++ .writer 0 (.committed w) :: es ∧
    (readsSince 4 es).done = [(0, [1, 2])] ∧ [1, 2] ∈ w.1 :: committed es := by
  obtain ⟨mapping, hmap⟩ : ∃ mapping, createMapping 2 kFlagLatest = .ok mapping := ⟨_, rfl⟩
  obtain ⟨s, tr, hrun, htest⟩ := (machine 2 mapping 0).exists_run soleWriterTest soleWriter_of_test
    wokenReader (fun s tr => decide (s.waits 6 = .asleep 1 ∧ (ledger 5 tr).completed = true ∧
      (ledger 5 tr).atWait = 0 ∧ between 0 tr = false ∧ tr.flatMap Event.announcer? = [0] ∧
      (slots tr).any (commits 0) = true ∧ (behindFirst (commits 0) (slots tr)).any wins = false ∧
      (readsSince 4 (behindFirst (commits 0) (slots tr))).done = [(0, [1, 2])]))
    (by cases hmap; decide +kernel)
  obtain ⟨hasleep, hcompleted, hwait, hzero, hannounced, hcommits, hwins, hread⟩ :=
    of_decide_eq_true htest
  have hreaches : (machine 2 mapping 0).Reaches s tr :=
    hrun.mono_of (fun _ => True) trivial (fun _ _ _ _ _ _ _ _ => trivial) fun _ _ _ _ _ => trivial
  have hbetween : ∀ i, between i tr = false := by
    intro i
    by_cases hi : i = 0
    · rw [hi]
      exact hzero
    · refine between_of_not_mem ?_
      rw [hannounced, List.mem_singleton]
      exact hi
  obtain ⟨pre, e, he, hslots⟩ := eq_append_behindFirst hcommits
  obtain ⟨w, rfl⟩ := exists_of_commits he
  obtain ⟨hwaits, hreads⟩ := no_lost_wakeup hmap
  obtain ⟨hexpected, hwoken⟩ := hwaits s tr hreaches
  refine ⟨mapping, s, tr, pre, _, w, hmap, hrun, hasleep,
    hexpected hbetween 6 1 hasleep, hcompleted, hwoken 5 (by rw [hwait]; decide) hcompleted,
    hslots, hread, ?_⟩
  refine hreads s tr pre _ 0 w hrun hslots (not_won_of_any hwins) 4 0 [1, 2] ?_ (by decide)
  rw [hread]
  exact List.mem_singleton_self _

/-! ## A read during which the sequence comes round -/

/-- Reader 4 takes a snapshot, and the creator writes ones and notifies. Then the reader calls
`try_read`, and has loaded the sequence and copied the first of the two bytes. -/
def firstByte : List (Label 2) :=
  [.snapshot 4, .writer 0 (.write (bytePair 1 1) true)] ++ List.replicate 9 (.writer 0 .run) ++
    [.reader 4 (.call ⟨none, 8, bytePair 9 9⟩)] ++ List.replicate 3 (.reader 4 .run)

/-- The test that the reader is there, and the creator between two calls. -/
def firstByteCopied (s : State 2) : Bool :=
  match s.slot.writers 0, s.slot.readers 4, s.waits 4 with
  | .idle, .copy _ 0 2 1 [1, 9], .awake _ => true
  | _, _, _ => false

/-- The creator writes twos. -/
def writeTwos : List (Label 2) := (completeWrite (bytePair 2 2)).map (.writer 0)

/-- The events of that. -/
def twosWritten : List (Latest.Event 2) :=
  [.writer 0 .internal, .writer 0 .internal, .writer 0 (.begun (bytePair 2 2)), .writer 0 .internal,
    .writer 0 .internal, .writer 0 (.committed (bytePair 2 2)), .writer 0 .internal,
    .writer 0 .written]

/-- The reader has the first byte of the ones, and twos have been written `k` times since. -/
structure Mixing (mapping : Mapping) (pre es es' : List (Latest.Event 2)) (w : Payload 2) (k : ℕ)
    (s : State 2) (tr : List (Event 2)) : Prop where
  /-- There is one writer. -/
  run : (machine 2 mapping 0).Run soleWriter s tr
  /-- It is between two calls. -/
  idle : s.slot.writers 0 = .idle
  /-- The sequence counts the writes. -/
  sequence : s.slot.mem.control.sequence = u64 (2 + 2 * k)
  /-- The ring has the second byte of the newest value. -/
  ring : 0 < k → s.slot.mem.ring 1 = 2
  /-- The reader is about to copy the second byte. -/
  reader : ∃ c, s.slot.readers 4 = .copy c 0 2 1 [1, 9]
  /-- It does not wait. -/
  awake : ∃ seen, s.waits 4 = .awake seen
  /-- What has happened so far. -/
  trace : slots tr = pre ++ .writer 0 (.committed w) :: (es ++ .writer 0 .written :: es')
  /-- The writes behind the first one. -/
  commits : committed es' = List.replicate k [2, 2]
  /-- No claim has won. -/
  calm : es'.any wins = false
  /-- The read is under way. -/
  reads : readsSince 4 es' = ⟨some k, []⟩
  /-- The reader's snapshot came before the first notification. -/
  completed : (ledger 4 tr).completed = true

/-- One more write. -/
theorem Mixing.write {mapping : Mapping} {pre es es' : List (Latest.Event 2)} {w : Payload 2}
    {k : ℕ} {s : State 2} {tr : List (Event 2)} (h : Mixing mapping pre es es' w k s tr) :
    ∃ s' tr', Mixing mapping pre es (es' ++ twosWritten) w (k + 1) s' tr' := by
  obtain ⟨⟨⟨m, clock, writers, readers⟩, waits⟩, hs⟩ : ∃ s', s' = s := ⟨_, rfl⟩
  have hidle := h.idle
  rw [← hs] at hidle
  have hwriters : writers = Function.update writers 0 .idle := by
    rw [← hidle, Function.update_eq_self]
  rw [hwriters] at hs
  have hexec : ∃ s' tr', (machine 2 mapping 0).exec soleWriterTest s tr writeTwos = some (s', tr') ∧
      s'.slot.writers 0 = .idle ∧
      s'.slot.mem.control.sequence = u64 (s.slot.mem.control.sequence + 2) ∧
      s'.slot.mem.ring 1 = 2 ∧ s'.slot.readers = s.slot.readers ∧ s'.waits = s.waits ∧
      slots tr' = slots tr ++ twosWritten ∧ ledger 4 tr' = ledger 4 tr := by
    rw [← hs]
    refine ⟨_, _, rfl, rfl, rfl, rfl, rfl, rfl, ?_, ?_⟩
    · simp [slots, Event.slot?, twosWritten]
    · simp [ledger, Ledger.next]
  obtain ⟨s', tr', hex, hidle', hsequence, hring, hreaders, hwaits, hslots, hledger⟩ := hexec
  refine ⟨s', tr', .exec soleWriter_of_test writeTwos h.run hex, hidle', ?_, fun _ => hring,
    ?_, ?_, ?_, ?_, ?_, ?_, ?_⟩
  · rw [hsequence, h.sequence]
    unfold u64
    omega
  · rw [hreaders]
    exact h.reader
  · rw [hwaits]
    exact h.awake
  · rw [hslots, h.trace]
    simp only [List.append_assoc, List.cons_append]
  · rw [committed, List.flatMap_append, ← committed, h.commits, List.replicate_succ']
    rfl
  · rw [List.any_append, h.calm]
    rfl
  · rw [readsSince, List.foldl_append, ← readsSince, h.reads]
    rfl
  · rw [hledger]
    exact h.completed

/-- Any number of writes. -/
theorem Mixing.writes {mapping : Mapping} {pre es : List (Latest.Event 2)} {w : Payload 2} (k : ℕ) :
    (∃ es' s tr, Mixing mapping pre es es' w 0 s tr) →
      ∃ es' s tr, Mixing mapping pre es es' w k s tr := by
  intro h
  induction k with
  | zero => exact h
  | succ k ih =>
    obtain ⟨es', s, tr, hmixing⟩ := ih
    obtain ⟨s', tr', hnext⟩ := hmixing.write
    exact ⟨_, s', tr', hnext⟩

/-- Once the sequence has come round, the read succeeds with a byte of either value. -/
theorem Mixing.read {mapping : Mapping} {pre es es' : List (Latest.Event 2)} {w : Payload 2}
    {s : State 2} {tr : List (Event 2)} (h : Mixing mapping pre es es' w (2^63) s tr) :
    ∃ s' tr' es'', (machine 2 mapping 0).Run soleWriter s' tr' ∧
      slots tr' = pre ++ .writer 0 (.committed w) :: (es ++ .writer 0 .written :: es'') ∧
      committed es'' = List.replicate (2^63) [2, 2] ∧ es''.any wins = false ∧
      (readsSince 4 es'').done = [(2^63, [1, 2])] ∧ (ledger 4 tr').completed = true := by
  obtain ⟨c, hreader⟩ := h.reader
  obtain ⟨seen, hawake⟩ := h.awake
  have hring := h.ring (by decide)
  have hsequence : s.slot.mem.control.sequence = 2 := h.sequence.trans (by decide)
  have hcopy : (machine 2 mapping 0).step s (.reader 4 .run) = some ({ s with
      slot := { s.slot with readers := Function.update s.slot.readers 4 (.loadS2 c 0 2 [1, 2]) } },
      .slot (.reader 4 .internal)) := by
    simp only [machine, step, hawake, Latest.step, hreader, ReadPc.step, hring]
    rfl
  have hload : (machine 2 mapping 0).step { s with
      slot := { s.slot with readers := Function.update s.slot.readers 4 (.loadS2 c 0 2 [1, 2]) } }
      (.reader 4 .run) = some ({ s with
        slot := { s.slot with
          readers := Function.update (Function.update s.slot.readers 4 (.loadS2 c 0 2 [1, 2]))
            4 .idle } },
        .slot (.reader 4 (.returned .success [1, 2]))) := by
    simp only [machine, step, hawake, Latest.step, Function.update_self, ReadPc.step,
      ReadPc.validate, hsequence, if_true, Option.map_some]
  have hguard : ∀ s tr, soleWriter s tr (.reader 4 .run : Label 2) := by
    rintro s tr i wl ⟨⟩
  refine ⟨_, _, es' ++ [.reader 4 .internal, .reader 4 (.returned .success [1, 2])],
    .step _ (.step _ h.run (hguard _ _) hcopy) (hguard _ _) hload, ?_, ?_, ?_, ?_, ?_⟩
  · rw [slots_append, slots_append, h.trace]
    simp [Event.slot?]
  · rw [committed, List.flatMap_append, ← committed, h.commits]
    exact List.append_nil _
  · rw [List.any_append, h.calm]
    rfl
  · rw [readsSince, List.foldl_append, ← readsSince, h.reads]
    rfl
  · rw [ledger_append, ledger_append]
    exact h.completed

/-- A reader takes a snapshot, the creator writes ones and notifies, and the call completes. A read
that is called then returns a byte of the ones and a byte of the twos that are written `2^63` times
meanwhile. -/
theorem read_mixed : ∃ mapping s tr pre es es', ∃ (w : Payload 2) (n : ℕ),
    createMapping 2 kFlagLatest = .ok mapping ∧ (machine 2 mapping 0).Run soleWriter s tr ∧
    (ledger 4 tr).completed = true ∧
    slots tr = pre ++ .writer 0 (.committed w) :: (es ++ .writer 0 .written :: es') ∧
    (∀ k, .writer k .won ∉ es ++ .writer 0 .written :: es') ∧
      (n, [1, 2]) ∈ (readsSince 4 es').done ∧
    [1, 2] ∉ w.1 :: committed (es ++ .writer 0 .written :: es') := by
  obtain ⟨mapping, hmap⟩ : ∃ mapping, createMapping 2 kFlagLatest = .ok mapping := ⟨_, rfl⟩
  obtain ⟨s, tr, hrun, htest⟩ := (machine 2 mapping 0).exists_run soleWriterTest soleWriter_of_test
    firstByte (fun s tr => decide ((slots tr).any (commits 0) = true ∧
      (behindFirst (commits 0) (slots tr)).any (returns 0) = true ∧ (slots tr).any wins = false ∧
      committed (slots tr) = [[1, 1]] ∧ s.slot.mem.control.sequence = 2 ∧
      (readsSince 4 (behindFirst (returns 0) (behindFirst (commits 0) (slots tr)))).writes =
      some 0 ∧
      (readsSince 4 (behindFirst (returns 0) (behindFirst (commits 0) (slots tr)))).done = [] ∧
      (ledger 4 tr).completed = true) && firstByteCopied s)
    (by cases hmap; decide +kernel)
  obtain ⟨hfacts, hplaces⟩ := Bool.and_eq_true_iff.mp htest
  obtain ⟨hcommits, hreturns, hwins, hones, hsequence, hwrites, hdone, hcompleted⟩ :=
    of_decide_eq_true hfacts
  obtain ⟨pre, e, he, hslots⟩ := eq_append_behindFirst hcommits
  obtain ⟨w, rfl⟩ := exists_of_commits he
  generalize behindFirst (commits 0) (slots tr) = rest at hreturns hslots hwrites hdone
  obtain ⟨es, e', he', hrest⟩ := eq_append_behindFirst hreturns
  obtain rfl := eq_of_returns he'
  generalize behindFirst (returns 0) rest = es' at hrest hwrites hdone
  rw [hrest] at hslots
  -- The ones are all that was committed by then.
  have hall : committed (slots tr) = committed pre ++ w.1 :: (committed es ++ committed es') := by
    rw [hslots]
    simp [committed, Latest.Event.committed?]
  rw [hones] at hall
  have hlength := congrArg List.length hall
  simp only [List.length_append, List.length_cons, List.length_nil] at hlength
  have hpre : committed pre = [] := List.eq_nil_of_length_eq_zero (by omega)
  have hes : committed es = [] := List.eq_nil_of_length_eq_zero (by omega)
  have hes' : committed es' = [] := List.eq_nil_of_length_eq_zero (by omega)
  rw [hpre, hes, hes'] at hall
  have hw : w.1 = [1, 1] := (List.cons.inj hall).1.symm
  rw [hslots] at hwins
  simp only [List.any_append, List.any_cons, Bool.or_eq_false_iff] at hwins
  obtain ⟨-, -, hcalm, -, hcalm'⟩ := hwins
  have hstart : Mixing mapping pre es es' w 0 s tr := by
    unfold firstByteCopied at hplaces
    split at hplaces
    · rename_i c out seen hidle hreader hawake
      refine ⟨hrun, hidle, hsequence, fun h => absurd h (lt_irrefl 0), ⟨_, hreader⟩, ⟨_, hawake⟩,
        hslots, hes', hcalm', ?_, hcompleted⟩
      rw [← hwrites, ← hdone]
    · cases hplaces
  obtain ⟨es₁, s₁, tr₁, hmixing⟩ := Mixing.writes (2^63) ⟨es', s, tr, hstart⟩
  obtain ⟨s₂, tr₂, es₂, hrun₂, hslots₂, htwos, hcalm₂, hread, hcompleted₂⟩ := hmixing.read
  have hbehind : committed (es ++ .writer 0 .written :: es₂) = List.replicate (2^63) [2, 2] := by
    rw [← htwos]
    simp only [committed, List.flatMap_append, List.flatMap_cons] at hes ⊢
    rw [hes]
    rfl
  refine ⟨mapping, s₂, tr₂, pre, es, es₂, w, 2^63, hmap, hrun₂, hcompleted₂, hslots₂,
    not_won_of_any ?_, ?_, ?_⟩
  · simp only [List.any_append, List.any_cons, hcalm, hcalm₂]
    rfl
  · rw [hread]
    exact List.mem_singleton_self _
  · rw [hbehind, hw, List.mem_cons, List.mem_replicate]
    decide

end LfRing.Latest.Waiting

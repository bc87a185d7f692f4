import LfRing.Latest.Reads

/-!
# The subscriber of a `SharedLatest`

`SharedLatestSubscriber::poll_loop` of `include/lf_ring/ipc_adapter.hpp`, as a party of the slot's
machine: one writer that does not die, and one subscriber that reads as reader 0. An iteration calls
`try_read`. If that succeeds, it loads the sequence once more through `raw_sequence`, and passes the
value to `on_message` if that sequence is not the last one it has seen.

The value and the sequence come from two moments. If a write is committed between them, the
subscriber notes the sequence of the new value and delivers the old one, and as long as nothing else
is written it will not deliver the new one (`stale_delivery`). `loadsInTime` is the condition on the
second load, and `settles` is what every run that meets it keeps. An odd sequence does no harm: it
is never that of a value, so the next value is delivered.
-/

namespace LfRing.Latest.Subscriber

variable {size : ℕ}

/-- Where the subscriber's thread is in `poll_loop`. -/
inductive PollPc
  /-- About to test `running_`. -/
  | top
  /-- In `try_read`. -/
  | reading
  /-- Behind a read that has succeeded, about to load the sequence through `raw_sequence`. -/
  | loadSequence
  /-- Behind the `switch`, about to sleep. -/
  | sleeping
  /-- The loop has ended. -/
  | exited
deriving DecidableEq

/-- The slot and the locals of `poll_loop`. -/
structure State (size : ℕ) where
  /-- The slot, with the subscriber as reader 0. -/
  slot : Latest.State size
  /-- Where the thread is. -/
  poll : PollPc
  /-- `last_seq`. -/
  lastSeq : ℕ
  /-- `value`. -/
  value : Payload size
  /-- `running_`. -/
  running : Bool

/-- Who moves next. -/
inductive Label (size : ℕ)
  /-- The writer calls `write`, or `write_and_notify`. -/
  | write (v : Payload size) (notify : Bool)
  /-- The writer takes the next step. -/
  | writer
  /-- The clock moves. -/
  | tick (d : ℕ)
  /-- The subscriber's thread takes the next step. -/
  | poll
  /-- `stop` is called. -/
  | stop

/-- What a step reports. -/
inductive Event (size : ℕ)
  /-- A step of the slot's machine. -/
  | slot (e : Latest.Event size)
  /-- `on_message` has been called with a value. -/
  | delivered (v : List UInt8)
  /-- The sequence was the last one seen. -/
  | unchanged
  /-- The thread has slept. -/
  | slept
  /-- `running_` is false. -/
  | stopped
  /-- The loop has ended. -/
  | exited

/-- The bytes of a value, for a list that has as many as the type. -/
def toPayload (bytes : List UInt8) : Payload size :=
  ⟨(bytes ++ List.replicate size 0).take size, by simp⟩

/-- Where the thread is behind a step of `try_read`. -/
def PollPc.after : Latest.Event size → PollPc
  | .reader _ (.returned .success _) => .loadSequence
  | .reader _ (.returned _ _) => .sleeping
  | _ => .reading

/-- `value` behind a step of `try_read`. -/
def valueAfter (value : Payload size) : Latest.Event size → Payload size
  | .reader _ (.returned _ out) => toPayload out
  | _ => value

/-- The call of `try_read`, with its default of `max_retries`. -/
def readCall (threshold : ℕ) (value : Payload size) : ReadCall size := ⟨some threshold, 1024, value⟩

/-- One step of `poll_loop`. -/
def pollStep (cap threshold : ℕ) (s : State size) : Option (State size × Event size) :=
  match s.poll with
  | .top =>
    if s.running then
      (Latest.step cap s.slot (.reader 0 (.call (readCall threshold s.value)))).map fun x =>
        ({ s with slot := x.1, poll := .reading }, .slot x.2)
    else some ({ s with poll := .exited }, .exited)
  | .reading =>
    (Latest.step cap s.slot (.reader 0 .run)).map fun x =>
      ({ s with slot := x.1, poll := .after x.2, value := valueAfter s.value x.2 }, .slot x.2)
  | .loadSequence =>
    if s.slot.mem.control.sequence ≠ s.lastSeq then
      some ({ s with poll := .sleeping, lastSeq := s.slot.mem.control.sequence },
        .delivered s.value.1)
    else some ({ s with poll := .sleeping }, .unchanged)
  | .sleeping => some ({ s with poll := .top }, .slept)
  | .exited => none

/-- One step of the writer, of the clock or of the subscriber. -/
def step (cap threshold : ℕ) (s : State size) : Label size → Option (State size × Event size)
  | .write v notify => (Latest.step cap s.slot (.writer 0 (.write v notify))).map fun x =>
      ({ s with slot := x.1 }, .slot x.2)
  | .writer => (Latest.step cap s.slot (.writer 0 .run)).map fun x =>
      ({ s with slot := x.1 }, .slot x.2)
  | .tick d => (Latest.step cap s.slot (.tick d)).map fun x => ({ s with slot := x.1 }, .slot x.2)
  | .poll => pollStep cap threshold s
  | .stop => some ({ s with running := false }, .stopped)

/-- The writer that created the slot and a subscriber, from the time `start` on. -/
def machine (size : ℕ) (mapping : Mapping) (start threshold : ℕ) :
    Machine (State size) (Label size) (Event size) where
  init := ⟨(Latest.machine size mapping start).init, .top, 0, toPayload [], true⟩
  step := step mapping.capacity threshold

/-- The steps of `poll_loop`, one constructor each. -/
inductive PollStep (cap threshold : ℕ) (s : State size) : State size → Event size → Prop
  /-- `try_read` is called. -/
  | call (slot' : Latest.State size) (e : Latest.Event size) (hpc : s.poll = .top)
    (hs : Latest.step cap s.slot (.reader 0 (.call (readCall threshold s.value))) =
      some (slot', e)) :
    PollStep cap threshold s { s with slot := slot', poll := .reading } (.slot e)
  /-- The loop ends. -/
  | exit (hpc : s.poll = .top) : PollStep cap threshold s { s with poll := .exited } .exited
  /-- A step of `try_read`. -/
  | read (slot' : Latest.State size) (e : Latest.Event size) (hpc : s.poll = .reading)
    (hs : Latest.step cap s.slot (.reader 0 .run) = some (slot', e)) :
    PollStep cap threshold s
      { s with slot := slot', poll := .after e, value := valueAfter s.value e } (.slot e)
  /-- `raw_sequence` is not the last one seen. -/
  | deliver (hpc : s.poll = .loadSequence) (hnew : s.slot.mem.control.sequence ≠ s.lastSeq) :
    PollStep cap threshold s { s with poll := .sleeping, lastSeq := s.slot.mem.control.sequence }
      (.delivered s.value.1)
  /-- `raw_sequence` is the last one seen. -/
  | unchanged (hpc : s.poll = .loadSequence) (hold : s.slot.mem.control.sequence = s.lastSeq) :
    PollStep cap threshold s { s with poll := .sleeping } .unchanged
  /-- The thread sleeps. -/
  | sleep (hpc : s.poll = .sleeping) : PollStep cap threshold s { s with poll := .top } .slept

/-- Every step of `poll_loop` is one of these. -/
theorem pollStep_cases {cap threshold : ℕ} {s s' : State size} {e : Event size}
    (h : pollStep cap threshold s = some (s', e)) : PollStep cap threshold s s' e := by
  cases hpc : s.poll with
  | top =>
    rw [pollStep, hpc] at h
    dsimp only at h
    split_ifs at h
    · obtain ⟨⟨slot', se⟩, hstep, heq⟩ := Option.map_eq_some_iff.mp h
      cases heq
      exact .call slot' se hpc hstep
    · cases h
      exact .exit hpc
  | reading =>
    rw [pollStep, hpc] at h
    obtain ⟨⟨slot', se⟩, hstep, heq⟩ := Option.map_eq_some_iff.mp h
    cases heq
    exact .read slot' se hpc hstep
  | loadSequence =>
    rw [pollStep, hpc] at h
    dsimp only at h
    split_ifs at h with hnew
    · cases h
      exact .deliver hpc hnew
    · cases h
      exact .unchanged hpc (not_ne_iff.mp hnew)
  | sleeping =>
    rw [pollStep, hpc] at h
    cases h
    exact .sleep hpc
  | exited =>
    rw [pollStep, hpc] at h
    cases h

/-! ## What has happened so far -/

/-- The step of the slot's machine. -/
def Event.slot? : Event size → List (Latest.Event size)
  | .slot e => [e]
  | _ => []

/-- The steps of the slot's machine. -/
def slots (tr : List (Event size)) : List (Latest.Event size) := tr.flatMap Event.slot?

/-- What the events so far leave. -/
structure Log where
  /-- The writer has taken no step since the iteration began. -/
  quiet : Bool
  /-- No write has been committed since `try_read` last succeeded. -/
  current : Bool
  /-- `try_read` has succeeded in this iteration. -/
  success : Bool
  /-- The value last passed to `on_message`. -/
  shown : Option (List UInt8)

/-- One more event. An iteration begins with the call of `try_read`. -/
def Log.next (g : Log) : Event size → Log
  | .slot (.writer _ (.committed _)) => { g with quiet := false, current := false }
  | .slot (.writer _ _) => { g with quiet := false }
  | .slot (.reader _ .called) => { g with quiet := true, success := false }
  | .slot (.reader _ (.returned .success _)) => { g with current := true, success := true }
  | .delivered v => { g with shown := some v }
  | _ => g

/-- The log of a run. -/
def log (tr : List (Event size)) : Log := tr.foldl Log.next ⟨false, false, false, none⟩

/-- When the subscriber loads the sequence behind its read, either no write has been committed since
the read succeeded, or one is under way. -/
def loadsInTime (s : State size) (tr : List (Event size)) (l : Label size) : Prop :=
  l = .poll → s.poll = .loadSequence →
    (log tr).current = true ∨ s.slot.mem.control.sequence % 2 = 1

section Histories

variable (tr : List (Event size)) (e : Event size)

/-- One more step adds what it does to the slot. -/
@[simp] theorem slots_append : slots (tr ++ [e]) = slots tr ++ e.slot? := by simp [slots]

/-- The log with one more event is the one before it, carried on by the event. -/
@[simp] theorem log_append : log (tr ++ [e]) = (log tr).next e := by simp [log]

variable {tr e} in
/-- A bound on the writes begun holds of what came before. -/
theorem begun_slots_lt {n : ℕ} (h : begun (slots (tr ++ [e])) < n) : begun (slots tr) < n := by
  rw [slots_append, begun, List.map_append, List.sum_append] at h
  exact lt_of_le_of_lt (Nat.le_add_right _ _) h

end Histories

/-! ## The slot under a subscriber -/

/-- While process 0 is the writer and no other comes, there is one writer at a time and no
recovery. -/
theorem oneWriter_of_owns {s : Latest.State size} (hw : (s.writers 0).owns = true)
    (tr : List (Latest.Event size)) {l : Latest.Label size}
    (hl : ∀ i l', l = .writer i l' → i = 0) : oneWriter s tr l := by
  constructor
  · rintro i rfl htake
    obtain rfl := hl i .run rfl
    rcases htake with ⟨⟨t, hpc⟩, -⟩ | ⟨hb, now, hpc, -⟩
    · rw [hpc] at hw
      cases hw
    · rw [hpc] at hw
      cases hw
  · rintro i hb now rfl hpc
    obtain rfl := hl i .run rfl
    rw [hpc] at hw
    cases hw

/-- A read in progress: behind its first load, something has been written. -/
def Begun (m : Shared) : ReadPc size → Prop
  | .idle => False
  | .initial _ => True
  | _ => 0 < m.control.sequence

/-- A read that copies has begun. -/
theorem begun_copying {m : Shared} (c : ReadCall size) (i s1 j : ℕ) (out : List UInt8)
    (h : 0 < m.control.sequence) : Begun m (.copying c i s1 j out) :=
  ReadPc.copying_ind (P := Begun m) (fun _ => h) h j

/-- A read behind its load of `s1` has begun. -/
theorem begun_examine {m : Shared} (c : ReadCall size) (i s1 : ℕ) (out : List UInt8)
    (h : 0 < m.control.sequence) : Begun m (.examine c i s1 out) := by
  unfold ReadPc.examine
  split_ifs
  · exact begun_copying _ _ _ _ _ h
  · exact ReadPc.spin_ind (P := Begun m) (fun _ => h) h

/-- A read that has begun stays so as the sequence goes up. -/
theorem Begun.mono {m m' : Shared} {pc : ReadPc size} (h : Begun m pc)
    (hle : m.control.sequence ≤ m'.control.sequence) : Begun m' pc := by
  cases pc with
  | idle => exact h
  | initial c => trivial
  | _ => exact lt_of_lt_of_le h hle

/-- A read that has begun stays so until it returns. -/
theorem Begun.step {m : Shared} {now : ℕ} {pc pc' : ReadPc size} {e : ReadEvent} (h : Begun m pc)
    (hs : pc.step m now .run = some (pc', e)) (he : ∀ res out, e ≠ .returned res out) :
    Begun m pc' := by
  cases ReadPc.step_cases hs with
  | call c => cases hs
  | empty c hzero => exact absurd rfl (he _ _)
  | contended c i out hi => exact absurd rfl (he _ _)
  | dead c t i hb out hdead => exact absurd rfl (he _ _)
  | success c i s1 out hs1 => exact absurd rfl (he _ _)
  | nonempty c hne => exact Nat.pos_of_ne_zero hne
  | loadS1 c i out => exact begun_examine _ _ _ _ h
  | copy c i s1 j out => exact begun_copying _ _ _ _ _ h
  | _ => exact h

/-- A value's bytes, from a list of as many. -/
theorem toPayload_val {bytes : List UInt8} (h : bytes.length = size) :
    (toPayload bytes : Payload size).1 = bytes :=
  List.take_left' h

/-! ## What the subscriber keeps -/

/-- What holds of the slot, the subscriber's locals and the log at each place of `poll_loop`. -/
def PollOk (s : State size) (tr : List (Event size)) : Prop :=
  match s.poll with
  | .top => s.slot.readers 0 = .idle
  | .reading => (log tr).success = false ∧ Begun s.slot.mem (s.slot.readers 0)
  | .loadSequence => s.slot.readers 0 = .idle ∧ 0 < s.slot.mem.control.sequence ∧
      ((log tr).current = true → s.value.1 = (past (slots tr)).content) ∧
      ((log tr).quiet = true → (log tr).current = true ∧ s.slot.mem.control.sequence % 2 = 0)
  | .sleeping => s.slot.readers 0 = .idle ∧
      ((log tr).quiet = true → (log tr).success = true →
        0 < (past (slots tr)).commits ∧ (log tr).shown = some (past (slots tr)).content)
  | .exited => True

/-- The invariant. -/
structure Inv (cap : ℕ) (s : State size) (tr : List (Event size)) : Prop where
  /-- The slot's invariant. -/
  slot : Latest.Inv cap s.slot (slots tr)
  /-- Nobody recovers. -/
  plain : Plain s.slot (slots tr)
  /-- Process 0 is the writer. -/
  writer : (s.slot.writers 0).owns = true
  /-- If the last sequence seen is that of a value, this is the value last delivered. -/
  last : ∀ k, 0 < k → s.lastSeq = 2 * k →
    ∃ v, (log tr).shown = some v ∧ valueOf (slots tr) k = some v
  /-- What holds where the subscriber is. -/
  poll : PollOk s tr

namespace Inv

variable {cap threshold : ℕ} {s : State size} {tr : List (Event size)}

/-- The initial state. -/
theorem fresh (cap start : ℕ) (value : Payload size) :
    Inv cap ⟨⟨Shared.fresh, start, creator, fun _ => .idle⟩, .top, 0, value, true⟩ [] where
  slot := Latest.Inv.fresh cap start
  plain := Plain.fresh _ start
  writer := rfl
  last := by
    intro k hk hzero
    dsimp only at hzero
    omega
  poll := rfl

/-- The slot's part of a step of the slot's machine. -/
theorem slot_step (h : Inv cap s tr) {l : Latest.Label size} {slot' : Latest.State size}
    {e : Latest.Event size} (hl : ∀ i l', l = .writer i l' → i = 0)
    (hs : Latest.step cap s.slot l = some (slot', e)) (hlt : begun (slots tr ++ [e]) < 2^63) :
    Latest.Inv cap slot' (slots tr ++ [e]) ∧ Plain slot' (slots tr ++ [e]) := by
  obtain ⟨hsole, hno⟩ := oneWriter_of_owns h.writer (slots tr) hl
  exact ⟨h.slot.step hs hsole (recoversOdd_of_noRecovery hno) (Or.inr hno) hlt, h.plain.step hno hs⟩

/-- What was delivered keeps its number as the history grows. -/
theorem last_append (h : Inv cap s tr) (e : Latest.Event size) {g : Log}
    (hg : g.shown = (log tr).shown) :
    ∀ k, 0 < k → s.lastSeq = 2 * k → ∃ v, g.shown = some v ∧ valueOf (slots tr ++ [e]) k =
      some v := by
  intro k hk heq
  obtain ⟨v, hv, hvalue⟩ := h.last k hk heq
  exact ⟨v, hg.trans hv, valueOf_append e hvalue⟩

/-- A step of the writer. The iteration is no longer quiet, and a commit makes the value read an old
one. -/
theorem writer_step (h : Inv cap s tr) {l : WriterLabel size} {slot' : Latest.State size}
    {e : Latest.Event size} (hl : l ≠ .crash)
    (hs : Latest.step cap s.slot (.writer 0 l) = some (slot', e))
    (hlt : begun (slots tr ++ [e]) < 2^63) :
    Inv cap { s with slot := slot' } (tr ++ [.slot e]) := by
  have hslots : slots (tr ++ [.slot e]) = slots tr ++ [e] := slots_append _ _
  have hzero : ∀ i l', Latest.Label.writer 0 l = .writer i l' → i = 0 := by
    rintro i l' ⟨⟩
    rfl
  obtain ⟨hslot, hplain⟩ := h.slot_step hzero hs hlt
  obtain ⟨-, hno⟩ := oneWriter_of_owns h.writer (slots tr) hzero
  obtain ⟨eff, pc, we, hstep, rfl, rfl⟩ := step_writer hs
  obtain ⟨-, hreset⟩ := WriterPc.recovering_step hstep (h.plain.calm 0)
    fun hb t hrun hpc => hno 0 hb t (by rw [hrun]) hpc
  have hseq := (h.slot.sequence_le hstep hreset hlt).1
  -- What a writer's event does to the log.
  obtain ⟨hquiet, hsuccess, hshown, hcurrent⟩ :
      (log (tr ++ [.slot (.writer 0 we)])).quiet = false ∧
      (log (tr ++ [.slot (.writer 0 we)])).success = (log tr).success ∧
      (log (tr ++ [.slot (.writer 0 we)])).shown = (log tr).shown ∧
      ((log (tr ++ [.slot (.writer 0 we)])).current = true →
        (log tr).current = true ∧ past (slots tr ++ [.writer 0 we]) = past (slots tr)) := by
    rw [log_append, past_append]
    cases we with
    | committed v => exact ⟨rfl, rfl, rfl, by rintro ⟨⟩⟩
    | reset => exact absurd rfl hreset
    | _ => exact ⟨rfl, rfl, rfl, fun hc => ⟨hc, rfl⟩⟩
  refine ⟨by rw [hslots]; exact hslot, by rw [hslots]; exact hplain, ?_, ?_, ?_⟩
  · change (Function.update s.slot.writers 0 pc 0).owns = true
    rw [Function.update_self]
    exact WriterPc.owns_step hstep hl h.writer
  · rw [hslots]
    exact h.last_append _ hshown
  · have hpoll := h.poll
    unfold PollOk at hpoll ⊢
    dsimp only
    cases hp : s.poll with
    | top =>
      rw [hp] at hpoll
      exact hpoll
    | reading =>
      rw [hp] at hpoll
      obtain ⟨hfail, hbegun⟩ := hpoll
      exact ⟨hsuccess.trans hfail, hbegun.mono hseq⟩
    | loadSequence =>
      rw [hp] at hpoll
      obtain ⟨hidle, hpos, hvalue, -⟩ := hpoll
      refine ⟨hidle, lt_of_lt_of_le hpos hseq, fun hc => ?_, fun hq => ?_⟩
      · obtain ⟨hold, hpast⟩ := hcurrent hc
        rw [hslots, hpast]
        exact hvalue hold
      · rw [hquiet] at hq
        cases hq
    | sleeping =>
      rw [hp] at hpoll
      refine ⟨hpoll.1, fun hq => ?_⟩
      rw [hquiet] at hq
      cases hq
    | exited => trivial

/-- A step that leaves the slot's memory, its readers, the subscriber and the log as they are. -/
theorem of_same (h : Inv cap s tr) {s' : State size} {e : Event size}
    (hslot : Latest.Inv cap s'.slot (slots (tr ++ [e])))
    (hplain : Plain s'.slot (slots (tr ++ [e]))) (hmem : s'.slot.mem = s.slot.mem)
    (hreaders : s'.slot.readers = s.slot.readers) (hwriters : s'.slot.writers = s.slot.writers)
    (hpc : s'.poll = s.poll) (hlast : s'.lastSeq = s.lastSeq) (hvalue : s'.value = s.value)
    (hlog : log (tr ++ [e]) = log tr) (hpast : past (slots (tr ++ [e])) = past (slots tr))
    (hvalues : ∀ k v, valueOf (slots tr) k = some v → valueOf (slots (tr ++ [e])) k = some v) :
    Inv cap s' (tr ++ [e]) := by
  refine ⟨hslot, hplain, by rw [hwriters]; exact h.writer, ?_, ?_⟩
  · rw [hlog, hlast]
    intro k hk heq
    obtain ⟨v, hv, hval⟩ := h.last k hk heq
    exact ⟨v, hv, hvalues k v hval⟩
  · have hpoll := h.poll
    unfold PollOk at hpoll ⊢
    rw [hpc, hlog, hpast, hmem, hreaders, hvalue]
    exact hpoll

/-- The clock moves. -/
theorem tick (h : Inv cap s tr) (d : ℕ) :
    Inv cap { s with slot := { s.slot with clock := s.slot.clock + d } } (tr ++ [.slot .tick]) := by
  have hslots : slots (tr ++ [.slot .tick]) = slots tr ++ [.tick] := slots_append _ _
  refine h.of_same ?_ ?_ rfl rfl rfl rfl rfl rfl (log_append _ _) ?_ ?_
  · rw [hslots]
    exact h.slot.tick d
  · rw [hslots]
    exact h.plain.of_quiet h.plain.calm rfl (by rintro _ ⟨⟩) rfl
  · rw [hslots, past_append]
    rfl
  · intro k v hv
    rw [hslots]
    exact valueOf_append _ hv

/-- `stop` is called. -/
theorem stop (h : Inv cap s tr) : Inv cap { s with running := false } (tr ++ [.stopped]) := by
  have hslots : slots (tr ++ [.stopped]) = slots tr := by simp [Event.slot?]
  refine h.of_same ?_ ?_ rfl rfl rfl rfl rfl rfl (log_append _ _) (by rw [hslots]) ?_
  · rw [hslots]
    exact h.slot
  · rw [hslots]
    exact h.plain
  · rw [hslots]
    exact fun _ _ hv => hv

/-- A step of the subscriber that is not one of the slot's machine and delivers nothing. -/
theorem of_local (h : Inv cap s tr) {pc : PollPc} {e : Event size} (hslots : e.slot? = [])
    (hlog : log (tr ++ [e]) = log tr) (hpoll : PollOk { s with poll := pc } (tr ++ [e])) :
    Inv cap { s with poll := pc } (tr ++ [e]) := by
  have heq : slots (tr ++ [e]) = slots tr := by rw [slots_append, hslots, List.append_nil]
  refine ⟨by rw [heq]; exact h.slot, by rw [heq]; exact h.plain, h.writer, ?_, hpoll⟩
  rw [heq, hlog]
  exact h.last

/-- A step of `try_read`, its call included, with where the subscriber is then. -/
theorem of_read (h : Inv cap s tr) {l : ReadLabel size} {slot' : Latest.State size}
    {e : Latest.Event size} {pc : PollPc} {value : Payload size}
    (hs : Latest.step cap s.slot (.reader 0 l) = some (slot', e))
    (hlt : begun (slots tr ++ [e]) < 2^63)
    (hpoll : PollOk { s with slot := slot', poll := pc, value := value } (tr ++ [.slot e])) :
    Inv cap { s with slot := slot', poll := pc, value := value } (tr ++ [.slot e]) := by
  have hslots : slots (tr ++ [.slot e]) = slots tr ++ [e] := slots_append _ _
  obtain ⟨hslot, hplain⟩ := h.slot_step (by rintro i l' ⟨⟩) hs hlt
  obtain ⟨pc', re, -, rfl, rfl⟩ := step_reader hs
  refine ⟨by rw [hslots]; exact hslot, by rw [hslots]; exact hplain, h.writer, ?_, hpoll⟩
  have hshown : (log (tr ++ [.slot (.reader 0 re)])).shown = (log tr).shown := by
    rw [log_append]
    cases re with
    | returned res out => cases res <;> rfl
    | _ => rfl
  rw [hslots]
  exact h.last_append _ hshown

/-- A step inside `try_read`. -/
theorem read_step (h : Inv cap s tr) (hreading : s.poll = .reading) {slot' : Latest.State size}
    {e : Latest.Event size} (hs : Latest.step cap s.slot (.reader 0 .run) = some (slot', e))
    (hlt : begun (slots tr ++ [e]) < 2^63) :
    Inv cap { s with slot := slot', poll := .after e, value := valueAfter s.value e }
      (tr ++ [.slot e]) := by
  refine h.of_read hs hlt ?_
  have hpoll := h.poll
  rw [PollOk, hreading] at hpoll
  obtain ⟨hfail, hbegun⟩ := hpoll
  have hslots : slots (tr ++ [.slot e]) = slots tr ++ [e] := slots_append _ _
  obtain ⟨pc, re, hstep, rfl, rfl⟩ := step_reader hs
  have hreader : Function.update s.slot.readers 0 pc 0 = pc := Function.update_self _ _ _
  generalize hpc : s.slot.readers 0 = pc₀ at hstep hbegun
  -- A read that goes on has begun, and one that has failed is not a success.
  have hon : PollPc.after (.reader 0 re : Latest.Event size) = .reading →
      (∀ res out, re ≠ .returned res out) →
      (log (tr ++ [.slot (.reader 0 re)])).success = false →
      PollOk { s with
        slot := { s.slot with readers := Function.update s.slot.readers 0 pc }
        poll := .after (.reader 0 re : Latest.Event size)
        value := valueAfter s.value (.reader 0 re) } (tr ++ [.slot (.reader 0 re)]) := by
    intro hafter hre hfail'
    rw [PollOk, hafter]
    refine ⟨hfail', ?_⟩
    change Begun s.slot.mem (Function.update s.slot.readers 0 pc 0)
    rw [hreader]
    exact hbegun.step hstep hre
  have hend : PollPc.after (.reader 0 re : Latest.Event size) = .sleeping → pc = .idle →
      (log (tr ++ [.slot (.reader 0 re)])).success = false →
      PollOk { s with
        slot := { s.slot with readers := Function.update s.slot.readers 0 pc }
        poll := .after (.reader 0 re : Latest.Event size)
        value := valueAfter s.value (.reader 0 re) } (tr ++ [.slot (.reader 0 re)]) := by
    intro hafter hidle hfail'
    rw [PollOk, hafter]
    refine ⟨hreader.trans hidle, fun _ hsucc => ?_⟩
    rw [hfail'] at hsucc
    cases hsucc
  cases ReadPc.step_cases hstep with
  | call c => cases hstep
  | empty c hzero => exact hend rfl rfl (by rw [log_append]; exact hfail)
  | contended c i out hi => exact hend rfl rfl (by rw [log_append]; exact hfail)
  | dead c t i hb out hdead => exact hend rfl rfl (by rw [log_append]; exact hfail)
  | success c i s1 out hs1 =>
    obtain ⟨hout, hcount⟩ := h.slot.validated hpc hs1.symm (h.plain.unreset 0)
    have hlen : out.length = size := by
      rw [hout]
      exact h.slot.length
    refine ⟨hreader, hbegun, fun _ => ?_, fun _ => ⟨?_, ?_⟩⟩
    · rw [hslots, past_append]
      exact (toPayload_val hlen).trans hout
    · rw [log_append]
      rfl
    · change s.slot.mem.control.sequence % 2 = 0
      omega
  | _ => exact hon rfl (by rintro _ _ ⟨⟩) (by rw [log_append]; exact hfail)

/-- The start of an iteration. -/
theorem call (h : Inv cap s tr) {slot' : Latest.State size} {e : Latest.Event size}
    (hs : Latest.step cap s.slot (.reader 0 (.call (readCall threshold s.value))) = some (slot', e))
    (hlt : begun (slots tr ++ [e]) < 2^63) :
    Inv cap { s with slot := slot', poll := .reading } (tr ++ [.slot e]) := by
  refine h.of_read hs hlt ?_
  obtain ⟨pc, re, hstep, rfl, rfl⟩ := step_reader hs
  generalize s.slot.readers 0 = pc₀ at hstep
  cases pc₀ with
  | idle =>
    cases hstep
    refine ⟨by rw [log_append]; rfl, ?_⟩
    change Begun s.slot.mem (Function.update s.slot.readers 0 _ 0)
    rw [Function.update_self]
    trivial
  | _ => cases hstep

/-- A delivery: what the subscriber has shown then is what it has read, and the sequence it notes is
that of the value or odd. -/
theorem deliver (h : Inv cap s tr) (hpc : s.poll = .loadSequence)
    (hguard : (log tr).current = true ∨ s.slot.mem.control.sequence % 2 = 1) :
    Inv cap { s with poll := .sleeping, lastSeq := s.slot.mem.control.sequence }
      (tr ++ [.delivered s.value.1]) := by
  have hpoll := h.poll
  rw [PollOk, hpc] at hpoll
  obtain ⟨hidle, hpos, hvalue, hquiet⟩ := hpoll
  have hcommits := h.plain.commits
  have hcontent := h.plain.content
  have hsequence := h.slot.sequence
  have hslots : slots (tr ++ [.delivered s.value.1]) = slots tr := by simp [Event.slot?]
  have hshown : (log (tr ++ [.delivered s.value.1])).shown = some s.value.1 := by
    rw [log_append]
    rfl
  refine ⟨by rw [hslots]; exact h.slot, by rw [hslots]; exact h.plain, h.writer, ?_, hidle, ?_⟩
  · -- An even sequence is that of the value, as no write has been committed since the read.
    intro k hk heq
    change s.slot.mem.control.sequence = 2 * k at heq
    have hcurrent : (log tr).current = true := by
      rcases hguard with hcur | hodd
      · exact hcur
      · omega
    refine ⟨s.value.1, hshown, ?_⟩
    have hk' : k = (committed (slots tr)).length := by omega
    rw [hslots, hk', hvalue hcurrent]
    exact hcontent
  · intro hq _
    rw [log_append] at hq
    obtain ⟨hcur, heven⟩ := hquiet hq
    rw [hslots, hshown, hvalue hcur]
    exact ⟨by omega, rfl⟩

/-- Nothing is delivered: the sequence is that of the last value, and it was noted when this value
was delivered. -/
theorem unchanged (h : Inv cap s tr) (hpc : s.poll = .loadSequence)
    (hold : s.slot.mem.control.sequence = s.lastSeq) :
    Inv cap { s with poll := .sleeping } (tr ++ [.unchanged]) := by
  have hpoll := h.poll
  rw [PollOk, hpc] at hpoll
  obtain ⟨hidle, hpos, -, hquiet⟩ := hpoll
  have hcommits := h.plain.commits
  have hsequence := h.slot.sequence
  refine h.of_local rfl (log_append _ _) ⟨hidle, ?_⟩
  intro hq _
  rw [log_append] at hq ⊢
  obtain ⟨hcur, heven⟩ := hquiet hq
  have hslots : slots (tr ++ [.unchanged]) = slots tr := by simp [Event.slot?]
  rw [hslots]
  have hpositive : 0 < (past (slots tr)).commits := by omega
  obtain ⟨v, hv, hval⟩ := h.last (past (slots tr)).commits hpositive (by omega)
  rw [hcommits, h.plain.content] at hval
  refine ⟨hpositive, ?_⟩
  change (log tr).shown = _
  rw [hv, hval]

/-- Every step of the subscriber keeps the invariant. -/
theorem poll_step (h : Inv cap s tr) {s' : State size} {e : Event size}
    (hguard : loadsInTime s tr .poll) (hs : PollStep cap threshold s s' e)
    (hlt : begun (slots (tr ++ [e])) < 2^63) : Inv cap s' (tr ++ [e]) := by
  cases hs with
  | call slot' e hpc hstep => exact h.call hstep (by rw [slots_append] at hlt; exact hlt)
  | exit hpc => exact h.of_local rfl (log_append _ _) trivial
  | read slot' e hpc hstep => exact h.read_step hpc hstep (by rw [slots_append] at hlt; exact hlt)
  | deliver hpc hnew => exact h.deliver hpc (hguard rfl hpc)
  | unchanged hpc hold => exact h.unchanged hpc hold
  | sleep hpc =>
    have hpoll := h.poll
    rw [PollOk, hpc] at hpoll
    exact h.of_local rfl (log_append _ _) hpoll.1

/-- Every step keeps the invariant, as long as the subscriber loads the sequence in time. -/
theorem step (h : Inv cap s tr) {l : Label size} {s' : State size} {e : Event size}
    (hguard : loadsInTime s tr l) (hs : Subscriber.step cap threshold s l = some (s', e))
    (hlt : begun (slots (tr ++ [e])) < 2^63) : Inv cap s' (tr ++ [e]) := by
  cases l with
  | write v notify =>
    obtain ⟨⟨slot', se⟩, hstep, heq⟩ := Option.map_eq_some_iff.mp hs
    cases heq
    exact h.writer_step (by rintro ⟨⟩) hstep (by rw [slots_append] at hlt; exact hlt)
  | writer =>
    obtain ⟨⟨slot', se⟩, hstep, heq⟩ := Option.map_eq_some_iff.mp hs
    cases heq
    exact h.writer_step (by rintro ⟨⟩) hstep (by rw [slots_append] at hlt; exact hlt)
  | tick d =>
    cases hs
    exact h.tick d
  | poll => exact h.poll_step hguard (pollStep_cases hs) hlt
  | stop =>
    cases hs
    exact h.stop

end Inv

/-- The invariant of every run in which the subscriber loads the sequence in time. -/
theorem inv_of_run {mapping : Mapping} {start threshold : ℕ} {s : State size}
    {tr : List (Event size)} (hfresh : mapping.shared = Shared.fresh)
    (h : (machine size mapping start threshold).Run loadsInTime s tr)
    (hlt : begun (slots tr) < 2^63) : Inv mapping.capacity s tr := by
  refine h.invariant_of (fun tr => begun (slots tr) < 2^63) ?_ (Inv mapping.capacity) ?_ ?_ hlt
  · exact fun tr e hb => begun_slots_lt hb
  · simp only [machine, Latest.machine, hfresh]
    exact Inv.fresh _ _ _
  · intro s tr l s' e hguard hb hinv hs
    exact hinv.step hguard hs hb

/-- At the end of an iteration during which the writer took no step and whose `try_read` succeeded,
the value last passed to `on_message` is the last one committed. This holds in every run in which,
whenever the subscriber loads the sequence behind a read, no write has been committed since the read
succeeded or one is under way, and in which fewer than `2^63` writes have begun. -/
theorem settles {mapping : Mapping} {start threshold : ℕ} {s : State size} {tr : List (Event size)}
    (hcreate : createMapping size kFlagLatest = .ok mapping)
    (hrun : (machine size mapping start threshold).Run loadsInTime s tr)
    (hlt : begun (slots tr) < 2^63) (hend : s.poll = .sleeping) (hquiet : (log tr).quiet = true)
    (hsuccess : (log tr).success = true) :
    ∃ v, (log tr).shown = some v ∧ (committed (slots tr)).getLast? = some v := by
  have hinv := inv_of_run (createMapping_shared hcreate) hrun hlt
  have hpoll := hinv.poll
  rw [PollOk, hend] at hpoll
  obtain ⟨hpos, hshown⟩ := hpoll.2 hquiet hsuccess
  refine ⟨_, hshown, ?_⟩
  -- The content is the value of the last write, and there is one.
  have hcontent := hinv.plain.content
  rw [hinv.plain.commits] at hpos
  obtain ⟨n, hn⟩ : ∃ n, (committed (slots tr)).length = n + 1 :=
    ⟨(committed (slots tr)).length - 1, by omega⟩
  rw [valueOf, hn, List.getElem?_cons_succ] at hcontent
  rw [List.getLast?_eq_getElem?, hn, Nat.add_sub_cancel]
  exact hcontent

/-- `loadsInTime`, as a test. -/
def inTimeTest (s : State size) (tr : List (Event size)) : Label size → Bool
  | .poll => s.poll != .loadSequence || (log tr).current || s.slot.mem.control.sequence % 2 == 1
  | _ => true

/-- The test is sound. -/
theorem loadsInTime_of_test (s : State size) (tr : List (Event size)) (l : Label size)
    (h : inTimeTest s tr l = true) : loadsInTime s tr l := by
  rintro rfl hpc
  simp only [inTimeTest, hpc, Bool.or_eq_true, bne_self_eq_false, Bool.false_eq_true, false_or,
    beq_iff_eq] at h
  exact h

/-- A complete write of one byte. -/
def writeByte (x : UInt8) : List (Label 1) := .write (oneByte x) false :: List.replicate 6 .writer

/-- An iteration up to the load of the sequence behind the read, for a value of one byte. -/
def readByte : List (Label 1) := List.replicate 6 .poll

/-- A value is written, and the next iteration shows it. -/
theorem settles_firstValue : ∃ mapping s tr, createMapping 1 kFlagLatest = .ok mapping ∧
    (machine 1 mapping 0 5).Run loadsInTime s tr ∧ begun (slots tr) < 2^63 ∧ s.poll = .sleeping ∧
    (log tr).quiet = true ∧ (log tr).success = true ∧
    ∃ v, (log tr).shown = some v ∧ (committed (slots tr)).getLast? = some v := by
  obtain ⟨mapping, hmap⟩ : ∃ mapping, createMapping 1 kFlagLatest = .ok mapping := ⟨_, rfl⟩
  obtain ⟨s, tr, hrun, htest⟩ :=
    (machine 1 mapping 0 5).exists_run inTimeTest loadsInTime_of_test
      (writeByte 1 ++ readByte ++ [.poll])
      (fun s tr => decide (begun (slots tr) < 2^63 ∧ s.poll = .sleeping ∧ (log tr).quiet = true ∧
        (log tr).success = true))
      (by cases hmap; decide +kernel)
  obtain ⟨hlt, hend, hquiet, hsuccess⟩ := of_decide_eq_true htest
  exact ⟨mapping, s, tr, hmap, hrun, hlt, hend, hquiet, hsuccess,
    settles hmap hrun hlt hend hquiet hsuccess⟩

/-- The value 2 is committed between the subscriber's read of the value 1 and its load of the
sequence. At the end of the next iteration, in which the writer does nothing, it has still shown the
value 1 last. -/
theorem stale_delivery : ∃ mapping s tr, createMapping 1 kFlagLatest = .ok mapping ∧
    (machine 1 mapping 0 5).Reaches s tr ∧ begun (slots tr) < 2^63 ∧ s.poll = .sleeping ∧
    (log tr).quiet = true ∧ (log tr).success = true ∧ (log tr).shown = some [1] ∧
    (committed (slots tr)).getLast? = some [2] := by
  obtain ⟨mapping, hmap⟩ : ∃ mapping, createMapping 1 kFlagLatest = .ok mapping := ⟨_, rfl⟩
  obtain ⟨s, tr, hrun, htest⟩ :=
    (machine 1 mapping 0 5).exists_reaches
      (writeByte 1 ++ readByte ++ writeByte 2 ++ [.poll, .poll] ++ readByte ++ [.poll])
      (fun s tr => decide (begun (slots tr) < 2^63 ∧ s.poll = .sleeping ∧ (log tr).quiet = true ∧
        (log tr).success = true ∧ (log tr).shown = some [1] ∧
        (committed (slots tr)).getLast? = some [2]))
      (by cases hmap; decide +kernel)
  exact ⟨mapping, s, tr, hmap, hrun, of_decide_eq_true htest⟩

end LfRing.Latest.Subscriber

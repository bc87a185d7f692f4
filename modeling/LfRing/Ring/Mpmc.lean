import LfRing.Library.Machine
import LfRing.Library.Matching
import LfRing.Mapping
import LfRing.Ring.History
import LfRing.Ring.MpmcReader

/-!
# `SharedRingBufferMPMC`: many producers, many consumers

The machine of a `SharedRingBufferMPMC`: any number of producers in `detail::try_push` and any
number of consumers in `try_pop`, interleaved at single accesses to the shared memory.

A consumer loads `tail_publish` first and `head_reserve` second, and takes the ring to be empty only
if the two are equal. If other consumers empty the ring between the two loads, `head_reserve` is
past the tail that was loaded, the difference `tail - head` wraps to a huge number, and the consumer
pops what no producer has published (`overrun`). Everywhere else delivery is exactly once.
`currentTail` is the condition on the load of `head_reserve`, and `exactly_once` is what every run
that meets it keeps.
-/

namespace LfRing.Mpmc

/-- The shared memory and the place of every party. -/
structure State where
  /-- The shared memory. -/
  mem : Shared
  /-- Where each producer is in `try_push`. -/
  procs : ℕ → PushPc
  /-- Where each consumer is in `try_pop`. -/
  consumers : ℕ → Pc

/-- Who moves next. -/
inductive Label
  /-- A producer. -/
  | producer (i : ℕ) (l : PushLabel)
  /-- A consumer. -/
  | consumer (i : ℕ) (l : PopLabel)

/-- What a step reports. -/
inductive Event
  /-- A producer's step. -/
  | producer (i : ℕ) (e : PushEvent)
  /-- A consumer's step. -/
  | consumer (i : ℕ) (e : PopEvent)

/-- One step of a producer or of a consumer. -/
def step (cap : ℕ) (s : State) : Label → Option (State × Event)
  | .producer i l =>
    match (s.procs i).step cap s.mem l with
    | none => none
    | some (eff, pc, e) =>
      some ({ s with mem := eff.apply s.mem, procs := Function.update s.procs i pc }, .producer i e)
  | .consumer i l =>
    match (s.consumers i).step cap s.mem l with
    | none => none
    | some (eff, pc, e) =>
      some ({ s with mem := eff.apply s.mem, consumers := Function.update s.consumers i pc },
        .consumer i e)

/-- Producers and consumers on a mapping. -/
def machine (mapping : Mapping) : Machine State Label Event where
  init := ⟨mapping.shared, fun _ => .idle, fun _ => .idle⟩
  step := step mapping.capacity

/-- A consumer that loads `head_reserve` finds the tail it has loaded before, or finds a head that
is below `tail_publish` at that moment. -/
def currentTail (s : State) (_ : List Event) (l : Label) : Prop :=
  ∀ i c tail, l = .consumer i .run → s.consumers i = .loadHead c tail →
    s.mem.control.headReserve = tail ∨ s.mem.control.headReserve < s.mem.control.tailPublish

/-! ## What has happened so far -/

/-- The event of a producer. -/
def Event.push? : Event → List PushEvent
  | .producer _ e => [e]
  | .consumer _ _ => []

/-- The result that a step returns. -/
def Event.returned? : Event → List (ℕ × PopCall × Popped)
  | .producer _ _ => []
  | .consumer _ e => e.returned?

/-- The events of the producers. -/
def pushes (tr : List Event) : List PushEvent := tr.flatMap Event.push?

/-- The records published by the producers' calls of `try_push`. -/
def published (tr : List Event) : List Record :=
  (publications (pushes tr)).map fun p => p.1.record p.2

/-- The results of successful calls of `try_pop`, each with the position it was found at and the
arguments of the call. -/
def returned (tr : List Event) : List (ℕ × PopCall × Popped) := tr.flatMap Event.returned?

/-- A call has returned the record: its payload, which is all that the vector has unless it was
longer before, its type, and its sequence number if asked for. -/
def Delivers (c : PopCall) (res : Popped) (r : Record) : Prop :=
  res.out.take r.payload.length = r.payload ∧
    (c.out.length ≤ r.payload.length → res.out = r.payload) ∧ res.type = r.type ∧
    (c.wantSequence = true → res.sequence = some r.sequence)

/-- What `try_pop` must return for a record delivers it. -/
theorem delivers_of {c : PopCall} {res : Popped} {r : Record} (h : res.Of c r) :
    Delivers c res r := by
  obtain ⟨hout, htype, hseq⟩ := h
  refine ⟨?_, ?_, htype, ?_⟩
  · rw [hout, List.take_left]
  · intro hlen
    rw [hout, List.drop_eq_nil_of_le hlen, List.append_nil]
  · intro hwant
    rw [hseq, hwant]
    rfl

section Histories

variable (tr : List Event) (i : ℕ)

/-- A step of a producer adds its event to those of the producers. -/
@[simp] theorem pushes_producer (e : PushEvent) :
    pushes (tr ++ [.producer i e]) = pushes tr ++ [e] := by
  simp [pushes, Event.push?]

/-- A step of a consumer adds nothing to them. -/
@[simp] theorem pushes_consumer (e : PopEvent) : pushes (tr ++ [.consumer i e]) = pushes tr := by
  simp [pushes, Event.push?]

/-- A step of a producer returns nothing to a consumer. -/
@[simp] theorem returned_producer (e : PushEvent) :
    returned (tr ++ [.producer i e]) = returned tr := by
  simp [returned, Event.returned?]

/-- A step of a consumer adds the result that it returns, if it returns one. -/
@[simp] theorem returned_consumer (e : PopEvent) :
    returned (tr ++ [.consumer i e]) = returned tr ++ e.returned? := by
  simp [returned, Event.returned?]

end Histories

/-- The steps of a producer, taken apart. -/
theorem step_producer {cap i : ℕ} {s s' : State} {l : PushLabel} {e : Event}
    (h : step cap s (.producer i l) = some (s', e)) :
    ∃ eff pc pe, (s.procs i).step cap s.mem l = some (eff, pc, pe) ∧
      s' = { s with mem := eff.apply s.mem, procs := Function.update s.procs i pc } ∧
      e = .producer i pe := by
  simp only [step] at h
  split at h
  · cases h
  · rename_i eff pc pe hs
    cases h
    exact ⟨eff, pc, pe, hs, rfl, rfl⟩

/-- The steps of a consumer, taken apart. -/
theorem step_consumer {cap i : ℕ} {s s' : State} {l : PopLabel} {e : Event}
    (h : step cap s (.consumer i l) = some (s', e)) :
    ∃ eff pc pe, (s.consumers i).step cap s.mem l = some (eff, pc, pe) ∧
      s' = { s with mem := eff.apply s.mem, consumers := Function.update s.consumers i pc } ∧
      e = .consumer i pe := by
  simp only [step] at h
  split at h
  · cases h
  · rename_i eff pc pe hs
    cases h
    exact ⟨eff, pc, pe, hs, rfl, rfl⟩

/-- What the condition says of a consumer's step, whichever it is. -/
theorem loadHead_of_currentTail {cap i : ℕ} {s : State} {tr : List Event} {l : PopLabel}
    {eff : Effect} {pc : Pc} {e : PopEvent} (hok : currentTail s tr (.consumer i l))
    (hs : (s.consumers i).step cap s.mem l = some (eff, pc, e)) :
    ∀ c tail, s.consumers i = .loadHead c tail →
      s.mem.control.headReserve = tail ∨ s.mem.control.headReserve < s.mem.control.tailPublish := by
  intro c tail hpc
  rw [hpc] at hs
  -- Only the label `run` is enabled at this load.
  cases l with
  | run => exact hok i c tail rfl hpc
  | call c' => cases hs
  | fail => cases hs

/-! ## The invariant of a run -/

/-- What the two sides have in common. -/
structure Inv (cap : ℕ) (s : State) (tr : List Event) (pending : List Reservation)
    (passed claimed ahead : List Chunk) : Prop where
  /-- The producers' side. -/
  writer : WriterHistory cap s.mem s.procs (pushes tr) pending
  /-- The consumers' side. -/
  pool : PoolInv cap s.mem s.consumers passed claimed ahead (returned tr)
  /-- What is passed, claimed and ahead is what was published. -/
  split : passed ++ (claimed ++ ahead) = publishedChunks (pushes tr)

/-- Every step keeps the invariant, as long as the reservation counter does not wrap and consumers
load `head_reserve` as they should. -/
theorem Inv.step {cap : ℕ} {s s' : State} {tr : List Event} {l : Label} {e : Event}
    {pending : List Reservation} {passed claimed ahead : List Chunk}
    (h : Inv cap s tr pending passed claimed ahead) (hok : currentTail s tr l)
    (hs : Mpmc.step cap s l = some (s', e)) (hlt : reservedBytes (pushes (tr ++ [e])) < 2^64) :
    ∃ pending' passed' claimed' ahead', Inv cap s' (tr ++ [e]) pending' passed' claimed'
      ahead' := by
  cases l with
  | producer i l =>
    obtain ⟨eff, pc, pe, hstep, rfl, rfl⟩ := step_producer hs
    rw [pushes_producer] at hlt
    obtain ⟨pending', hw, hview⟩ := h.writer.step hstep hlt
    refine ⟨pending', passed, claimed, ahead ++ pe.newChunks, ?_, ?_, ?_⟩
    · rw [pushes_producer]
      exact hw
    · rw [returned_producer]
      exact h.pool.producer hview
    · rw [pushes_producer, publishedChunks_append, publishedChunks_singleton, ← h.split]
      simp only [List.append_assoc]
  | consumer i l =>
    obtain ⟨eff, pc, pe, hstep, rfl, rfl⟩ := step_consumer hs
    obtain ⟨passed', claimed', ahead', hsplit, hpool, hview⟩ :=
      h.pool.step h.writer.tailPublish_lt (loadHead_of_currentTail hok hstep) hstep
    refine ⟨pending, passed', claimed', ahead', ?_, ?_, ?_⟩
    · rw [pushes_consumer]
      exact h.writer.advance hview.le_headPublish hview.headPublish_le hview.tailPublish_eq
        hview.tailReserve_eq hview.ring_eq
    · rw [returned_consumer]
      exact hpool
    · rw [pushes_consumer, hsplit]
      exact h.split

/-- The invariant holds in every run that meets the condition and does not make the reservation
counter wrap. -/
theorem inv_of_run {mapping : Mapping} {s : State} {tr : List Event}
    (hfresh : mapping.shared = Shared.fresh) (h : (machine mapping).Run currentTail s tr)
    (hlt : reservedBytes (pushes tr) < 2^64) :
    ∃ pending passed claimed ahead, Inv mapping.capacity s tr pending passed claimed ahead := by
  refine h.invariant_of (fun tr => reservedBytes (pushes tr) < 2^64) ?_
    (fun s tr => ∃ pending passed claimed ahead,
      Inv mapping.capacity s tr pending passed claimed ahead) ?_ ?_ hlt
  · exact fun tr e => reservedBytes_lt_of_append Event.push? tr [e]
  · refine ⟨[], [], [], [], ?_⟩
    simp only [machine, hfresh]
    exact ⟨.fresh _, .fresh _, rfl⟩
  · intro s tr l s' e hok hb ⟨pending, passed, claimed, ahead, hinv⟩ hs
    exact hinv.step hok hs hb

/-! ## Exactly once -/

/-- The records published, with their positions in the stream. -/
theorem records_recordsAt (tr : List Event) :
    (recordsAt 0 (publishedChunks (pushes tr))).map Prod.snd = published tr := by
  rw [map_snd_recordsAt, records_publishedChunks]
  rfl

/-- `SharedRingBufferMPMC` delivers exactly once while consumers load `head_reserve` as
`currentTail` says. On every ring that `create` makes, for any number of producers and consumers, in
every interleaving of single accesses that reserves fewer than `2^64` bytes: `head_reserve` is not
past `tail_publish`, and every successful call of `try_pop` has a published record of its own, which
it has returned. -/
theorem exactly_once {capacityBytes : ℕ} {mapping : Mapping}
    (hcreate : createMapping capacityBytes kFlagMPMC = .ok mapping) {s : State} {tr : List Event}
    (hrun : (machine mapping).Run currentTail s tr) (hbytes : reservedBytes (pushes tr) < 2^64) :
    s.mem.control.headReserve ≤ s.mem.control.tailPublish ∧
      ∃ f : Fin (returned tr).length → Fin (published tr).length, Function.Injective f ∧
        ∀ k, Delivers ((returned tr).get k).2.1 ((returned tr).get k).2.2
          ((published tr).get (f k)) := by
  obtain ⟨pending, passed, claimed, ahead, hinv⟩ :=
    inv_of_run (createMapping_shared hcreate) hrun hbytes
  refine ⟨hinv.pool.headReserve_le, ?_⟩
  -- The key is the position in the stream, and no position is returned twice.
  rw [← records_recordsAt]
  have hmatch : ∀ p ∈ returned tr, ∃ q ∈ recordsAt 0 (publishedChunks (pushes tr)),
      Prod.fst q = p.1 ∧ Delivers p.2.1 p.2.2 (Prod.snd q) := by
    intro p hp
    obtain ⟨r, hr, hof⟩ := hinv.pool.results_of p hp
    refine ⟨(p.1, r), ?_, rfl, delivers_of hof⟩
    rw [← hinv.split, recordsAt_append]
    exact List.mem_append_left _ hr
  exact exists_injective_of_keys hinv.pool.nodup hmatch

/-- A producer pushes an empty message of type 5. -/
def pushEmpty : List Label :=
  let a : PushArgs := .ofBytes none 5
  .producer 0 (.call a) :: List.replicate 11 (.producer 0 .run)

/-- Consumer `i` calls `try_pop` and takes `n` steps. -/
def popSteps (i n : ℕ) : List Label :=
  .consumer i (.call ⟨[], true⟩) :: List.replicate n (.consumer i .run)

/-- The test that `head_reserve` is loaded as `currentTail` says. -/
def currentTailTest (s : State) (_ : List Event) : Label → Bool
  | .consumer i .run =>
    match s.consumers i with
    | .loadHead _ tail => s.mem.control.headReserve == tail ||
        s.mem.control.headReserve < s.mem.control.tailPublish
    | _ => true
  | _ => true

/-- The test is the condition. -/
theorem currentTail_of_test (s : State) (tr : List Event) (l : Label)
    (h : currentTailTest s tr l = true) : currentTail s tr l := by
  rintro i c tail rfl hpc
  simpa [currentTailTest, hpc] using h

/-- One message through a ring of 64 bytes, with the consumer's load of `head_reserve` as it should
be. -/
theorem exactly_once_pushEmpty : ∃ mapping s tr, createMapping 64 kFlagMPMC = .ok mapping ∧
    (machine mapping).Run currentTail s tr ∧ reservedBytes (pushes tr) < 2^64 ∧
    (returned tr).length = 1 ∧ s.mem.control.headReserve ≤ s.mem.control.tailPublish := by
  obtain ⟨mapping, hmap⟩ : ∃ mapping, createMapping 64 kFlagMPMC = .ok mapping := ⟨_, rfl⟩
  obtain ⟨s, tr, hrun, htest⟩ := (machine mapping).exists_run currentTailTest currentTail_of_test
    (pushEmpty ++ popSteps 0 9)
    (fun _ tr => decide (reservedBytes (pushes tr) < 2^64) && decide ((returned tr).length = 1))
    (by cases hmap; decide +kernel)
  simp only [Bool.and_eq_true, decide_eq_true_eq] at htest
  exact ⟨mapping, s, tr, hmap, hrun, htest.1, htest.2, (exactly_once hmap hrun htest.1).1⟩

/-- A consumer overruns the ring. It loads `tail_publish` while the ring is fresh, one message is
pushed and popped by another consumer, and then it loads `head_reserve`. It returns a message of a
type that nobody pushed, and leaves `head_reserve` past `tail_publish`. -/
theorem overrun : ∃ mapping s tr, createMapping 64 kFlagMPMC = .ok mapping ∧
    (machine mapping).Reaches s tr ∧ reservedBytes (pushes tr) < 2^64 ∧
    s.mem.control.tailPublish < s.mem.control.headReserve ∧
    (published tr).length < (returned tr).length ∧
    ∃ p ∈ returned tr, ∀ r ∈ published tr, p.2.2.type ≠ r.type := by
  obtain ⟨mapping, hmap⟩ : ∃ mapping, createMapping 64 kFlagMPMC = .ok mapping := ⟨_, rfl⟩
  obtain ⟨s, tr, hrun, htest⟩ := (machine mapping).exists_reaches
    (popSteps 0 1 ++ pushEmpty ++ popSteps 1 9 ++ List.replicate 8 (.consumer 0 .run))
    (fun s tr => decide (reservedBytes (pushes tr) < 2^64) &&
      decide (s.mem.control.tailPublish < s.mem.control.headReserve) &&
      decide ((published tr).length < (returned tr).length) &&
      (returned tr).any fun p => (published tr).all fun r => p.2.2.type != r.type)
    (by cases hmap; decide +kernel)
  simp only [Bool.and_eq_true, decide_eq_true_eq, List.any_eq_true, List.all_eq_true,
    bne_iff_ne] at htest
  obtain ⟨⟨⟨hbytes, hover⟩, hmore⟩, hbogus⟩ := htest
  exact ⟨mapping, s, tr, hmap, hrun, hbytes, hover, hmore, hbogus⟩

end LfRing.Mpmc

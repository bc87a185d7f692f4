import LfRing.Library.Machine
import LfRing.Mapping
import LfRing.Ring.History
import LfRing.Ring.Reader

/-!
# `SharedRingBuffer`: many producers, one consumer

The machine of a `SharedRingBuffer`: any number of producers in `detail::try_push` and one consumer
in `try_pop`, interleaved at single accesses to the shared memory.

The two sides meet in the stream of chunks that are published. The producers extend it in the order
of their reservations (`WriterHistory`), and the consumer passes it from the front (`ReaderInv`).
`Inv` says that both speak about the same stream, and that what was published when the consumer last
loaded `tail_publish` can be read off the events of the run. `fifo` follows: messages are popped
exactly once and in the order in which they were reserved.
-/

namespace LfRing.Mpsc

/-- The shared memory and the place of every party. -/
structure State where
  /-- The shared memory. -/
  mem : Shared
  /-- Where each producer is in `try_push`. -/
  procs : ℕ → PushPc
  /-- Where the consumer is in `try_pop`. -/
  consumer : PopPc

/-- Who moves next. -/
inductive Label
  /-- A producer. -/
  | producer (i : ℕ) (l : PushLabel)
  /-- The consumer. -/
  | consumer (l : PopLabel)

/-- What a step reports. -/
inductive Event
  /-- A producer's step. -/
  | producer (i : ℕ) (e : PushEvent)
  /-- The consumer's step. -/
  | consumer (e : PopEvent)

/-- One step of a producer or of the consumer. -/
def step (cap : ℕ) (s : State) : Label → Option (State × Event)
  | .producer i l =>
    match (s.procs i).step cap s.mem l with
    | none => none
    | some (eff, pc, e) =>
      some ({ s with mem := eff.apply s.mem, procs := Function.update s.procs i pc }, .producer i e)
  | .consumer l =>
    match s.consumer.step .publishFirst cap s.mem l with
    | none => none
    | some (eff, pc, e) => some ({ s with mem := eff.apply s.mem, consumer := pc }, .consumer e)

/-- Producers and consumer on a mapping. -/
def machine (mapping : Mapping) : Machine State Label Event where
  init := ⟨mapping.shared, fun _ => .idle, .idle⟩
  step := step mapping.capacity

/-! ## What has happened so far -/

/-- The event of a producer. -/
def Event.push? : Event → List PushEvent
  | .producer _ e => [e]
  | .consumer _ => []

/-- The event of the consumer. -/
def Event.pop? : Event → List PopEvent
  | .producer _ _ => []
  | .consumer e => [e]

/-- The events of the producers. -/
def pushes (tr : List Event) : List PushEvent := tr.flatMap Event.push?

/-- The events of the consumer. -/
def pops (tr : List Event) : List PopEvent := tr.flatMap Event.pop?

/-- The messages reserved, in the order of the compare-exchanges on `tail_reserve`. -/
def reserved (tr : List Event) : List Message := (reservations (pushes tr)).map (·.args.message)

/-- The messages published. -/
def published (tr : List Event) : List Message :=
  (publications (pushes tr)).map (·.1.args.message)

/-- The results consumed. -/
def consumed (tr : List Event) : List (PopCall × Popped) := (pops tr).flatMap PopEvent.consumed?

/-- The results returned. -/
def returned (tr : List Event) : List (PopCall × Popped) := (pops tr).flatMap PopEvent.returned?

/-- The messages returned by successful calls of `try_pop`. -/
def popped (tr : List Event) : List Message := (returned tr).map fun p => ⟨p.2.out, p.2.type⟩

/-- The consumer has just loaded `tail_publish`. -/
def Event.LoadsTail : Event → Prop
  | .consumer .loadedTail => True
  | _ => False

/-- Every call of `try_pop` is given an empty vector. -/
def intoEmpty (_ : State) (_ : List Event) (l : Label) : Prop :=
  ∀ c, l = .consumer (.call c) → c.out = []

section Histories

variable (tr : List Event) (i : ℕ)

/-- A step of a producer adds its event to those of the producers. -/
@[simp] theorem pushes_producer (e : PushEvent) :
    pushes (tr ++ [.producer i e]) = pushes tr ++ [e] := by
  simp [pushes, Event.push?]

/-- A step of the consumer adds nothing to them. -/
@[simp] theorem pushes_consumer (e : PopEvent) : pushes (tr ++ [.consumer e]) = pushes tr := by
  simp [pushes, Event.push?]

/-- A step of a producer consumes nothing. -/
@[simp] theorem consumed_producer (e : PushEvent) :
    consumed (tr ++ [.producer i e]) = consumed tr := by
  simp [consumed, pops, Event.pop?]

/-- A step of the consumer adds the result that it consumes, if it consumes one. -/
@[simp] theorem consumed_consumer (e : PopEvent) :
    consumed (tr ++ [.consumer e]) = consumed tr ++ e.consumed? := by
  simp [consumed, pops, Event.pop?]

/-- A step of a producer returns nothing to the consumer. -/
@[simp] theorem returned_producer (e : PushEvent) :
    returned (tr ++ [.producer i e]) = returned tr := by
  simp [returned, pops, Event.pop?]

/-- A step of the consumer adds the result that it returns, if it returns one. -/
@[simp] theorem returned_consumer (e : PopEvent) :
    returned (tr ++ [.consumer e]) = returned tr ++ e.returned? := by
  simp [returned, pops, Event.pop?]

end Histories

/-- The steps of a producer, taken apart. -/
theorem step_producer {cap i : ℕ} {s s' : State} {l : PushLabel} {e : Event}
    (h : step cap s (.producer i l) = some (s', e)) :
    ∃ eff pc pe, (s.procs i).step cap s.mem l = some (eff, pc, pe) ∧
      s' = { s with mem := eff.apply s.mem, procs := Function.update s.procs i pc } ∧
      e = .producer i pe := by
  simp only [step] at h
  split at h
  · cases h
  · rename_i eff pc pe hs
    cases h
    exact ⟨eff, pc, pe, hs, rfl, rfl⟩

/-- The steps of the consumer, taken apart. -/
theorem step_consumer {cap : ℕ} {s s' : State} {l : PopLabel} {e : Event}
    (h : step cap s (.consumer l) = some (s', e)) :
    ∃ eff pc pe, s.consumer.step .publishFirst cap s.mem l = some (eff, pc, pe) ∧
      s' = { s with mem := eff.apply s.mem, consumer := pc } ∧ e = .consumer pe := by
  simp only [step] at h
  split at h
  · cases h
  · rename_i eff pc pe hs
    cases h
    exact ⟨eff, pc, pe, hs, rfl, rfl⟩

/-! ## The invariant of a run -/

/-- What the two sides have in common. -/
structure Inv (cap : ℕ) (s : State) (tr : List Event) (pending : List Reservation)
    (passed ahead seen : List Chunk) : Prop where
  /-- The producers' side. -/
  writer : WriterHistory cap s.mem s.procs (pushes tr) pending
  /-- The consumer's side. -/
  reader : ReaderInv cap s.mem s.consumer passed ahead seen (consumed tr)
  /-- What is passed and what is ahead is what was published. -/
  split : passed ++ ahead = publishedChunks (pushes tr)
  /-- What is consumed has been returned, or is just about to be. -/
  consumed_eq : consumed tr = returned tr ++ s.consumer.unreturned
  /-- What the consumer compares with was all that was published when it last loaded
  `tail_publish`, and it has returned nothing since. -/
  load : s.consumer.comparing = true → AtLast Event.LoadsTail
    (fun pre => publishedChunks (pushes pre) = seen ∧ returned pre = returned tr) tr

/-- The initial state. -/
theorem Inv.fresh (cap : ℕ) :
    Inv cap ⟨Shared.fresh, fun _ => .idle, .idle⟩ [] [] [] [] [] :=
  ⟨.fresh cap, .fresh cap, rfl, rfl, by rintro ⟨⟩⟩

section Steps

variable {cap : ℕ} {s : State} {tr : List Event} {pending : List Reservation}
  {passed ahead seen : List Chunk}

/-- A producer's step extends the stream. -/
theorem Inv.producer (h : Inv cap s tr pending passed ahead seen) {i : ℕ} {l : PushLabel}
    {eff : Effect} {pc : PushPc} {e : PushEvent}
    (hs : (s.procs i).step cap s.mem l = some (eff, pc, e))
    (hlt : reservedBytes (pushes tr ++ [e]) < 2^64) :
    ∃ pending' ahead',
      Inv cap { s with mem := eff.apply s.mem, procs := Function.update s.procs i pc }
        (tr ++ [.producer i e]) pending' passed ahead' seen := by
  obtain ⟨pending', hw, hview⟩ := h.writer.step hs hlt
  refine ⟨pending', ahead ++ e.newChunks, ?_, ?_, ?_, ?_, ?_⟩
  · rw [pushes_producer]
    exact hw
  · rw [consumed_producer]
    exact h.reader.publish hview
  · rw [pushes_producer, publishedChunks_append, publishedChunks_singleton, ← h.split,
      List.append_assoc]
  · rw [consumed_producer, returned_producer]
    exact h.consumed_eq
  · intro hcomp
    rw [returned_producer]
    exact (h.load hcomp).later id

/-- A consumer's step passes part of the stream. -/
theorem Inv.consumer (h : Inv cap s tr pending passed ahead seen) {l : PopLabel} {eff : Effect}
    {pc : PopPc} {e : PopEvent}
    (hs : s.consumer.step .publishFirst cap s.mem l = some (eff, pc, e)) :
    ∃ passed' ahead' seen', Inv cap { s with mem := eff.apply s.mem, consumer := pc }
      (tr ++ [.consumer e]) pending passed' ahead' seen' := by
  obtain ⟨passed', ahead', hsplit, hr, hview, -⟩ :=
    h.reader.step h.writer.tailPublish_lt hs
  obtain ⟨hcomp, -, hload⟩ := PopPc.comparing_step hs
  refine ⟨passed', ahead', e.seen (passed ++ ahead) seen, ?_, ?_, ?_, ?_, ?_⟩
  · rw [pushes_consumer]
    exact h.writer.advance hview.le_headPublish hview.headPublish_le hview.tailPublish_eq
      hview.tailReserve_eq hview.ring_eq
  · rw [consumed_consumer]
    exact hr
  · rw [pushes_consumer, hsplit]
    exact h.split
  · rw [consumed_consumer, returned_consumer, h.consumed_eq, List.append_assoc,
      PopPc.unreturned_step hs, List.append_assoc]
  · intro hc
    obtain ⟨hret, hkind⟩ := hcomp hc
    rw [returned_consumer, hret, List.append_nil]
    rcases hkind with rfl | ⟨hne, hold⟩
    · exact .now trivial ⟨h.split.symm, rfl⟩
    · -- Another step of the same pass: the load is still the last one.
      have hseen : e.seen (passed ++ ahead) seen = seen := by
        cases e <;> first | rfl | exact absurd rfl hne
      rw [hseen]
      refine (h.load hold).later ?_
      cases e <;> first | exact id | exact absurd rfl hne

end Steps

/-- The invariant holds in every run that does not make the reservation counter wrap. -/
theorem inv_of_run {mapping : Mapping} {ok : State → List Event → Label → Prop} {s : State}
    {tr : List Event} (hfresh : mapping.shared = Shared.fresh)
    (h : (machine mapping).Run ok s tr) (hlt : reservedBytes (pushes tr) < 2^64) :
    ∃ pending passed ahead seen, Inv mapping.capacity s tr pending passed ahead seen := by
  refine h.invariant_of (fun tr => reservedBytes (pushes tr) < 2^64) ?_
    (fun s tr => ∃ pending passed ahead seen, Inv mapping.capacity s tr pending passed ahead seen)
    ?_ ?_ hlt
  · exact fun tr e => reservedBytes_lt_of_append Event.push? tr [e]
  · refine ⟨[], [], [], [], ?_⟩
    simp only [machine, hfresh]
    exact Inv.fresh _
  · intro s tr l s' e _ hb ⟨pending, passed, ahead, seen, hinv⟩ hs
    cases l with
    | producer i l =>
      obtain ⟨eff, pc, pe, hstep, rfl, rfl⟩ := step_producer hs
      rw [pushes_producer] at hb
      obtain ⟨pending', ahead', hinv'⟩ := hinv.producer hstep hb
      exact ⟨pending', passed, ahead', seen, hinv'⟩
    | consumer l =>
      obtain ⟨eff, pc, pe, hstep, rfl, rfl⟩ := step_consumer hs
      obtain ⟨passed', ahead', seen', hinv'⟩ := hinv.consumer hstep
      exact ⟨pending, passed', ahead', seen', hinv'⟩

/-- Where every call is given an empty vector, every result consumed was written into one. -/
theorem out_eq_nil {mapping : Mapping} {s : State} {tr : List Event}
    (h : (machine mapping).Run intoEmpty s tr) :
    (∀ c, s.consumer.call? = some c → c.out = []) ∧ ∀ p ∈ consumed tr, p.1.out = [] := by
  refine h.invariant (fun s tr => (∀ c, s.consumer.call? = some c → c.out = []) ∧
    ∀ p ∈ consumed tr, p.1.out = []) ⟨by rintro _ ⟨⟩, by simp [consumed, pops]⟩ ?_
  intro s tr l s' e hok ⟨hcall, hcons⟩ hs
  cases l with
  | producer i l =>
    obtain ⟨eff, pc, pe, -, rfl, rfl⟩ := step_producer hs
    rw [consumed_producer]
    exact ⟨hcall, hcons⟩
  | consumer l =>
    obtain ⟨eff, pc, pe, hstep, rfl, rfl⟩ := step_consumer hs
    obtain ⟨h1, h2⟩ := PopPc.call_step hstep
    refine ⟨?_, ?_⟩
    · intro c hc
      rcases h1 c hc with hold | rfl
      · exact hcall c hold
      · exact hok c rfl
    · intro p hp
      rw [consumed_consumer, List.mem_append] at hp
      rcases hp with hp | hp
      · exact hcons p hp
      · exact hcall p.1 (h2 p hp)

/-! ## Exactly once and in order -/

/-- The messages published are those of the records in the stream. -/
theorem published_eq (tr : List Event) :
    published tr = (records (publishedChunks (pushes tr))).map Record.toMessage := by
  rw [records_publishedChunks, List.map_map]
  rfl

/-- The results that were written into empty vectors are the messages of the records passed. -/
theorem messages_eq {results : List (PopCall × Popped)} {rs : List Record}
    (h : List.Forall₂ (fun p r => p.2.Of p.1 r) results rs) (hout : ∀ p ∈ results, p.1.out = []) :
    (results.map fun p => (⟨p.2.out, p.2.type⟩ : Message)) = rs.map Record.toMessage := by
  induction h with
  | nil => rfl
  | @cons p r results rs hof _ ih =>
    obtain ⟨h1, h2, -⟩ := hof
    have hnil : p.1.out = [] := hout p List.mem_cons_self
    rw [List.map_cons, List.map_cons, ih fun q hq => hout q (List.mem_cons_of_mem _ hq), h1, h2,
      hnil, List.drop_nil, List.append_nil]

/-- A consumer that compares has nothing to return. -/
theorem unreturned_of_comparing {pc : PopPc} (h : pc.comparing = true) : pc.unreturned = [] := by
  cases pc <;> first | rfl | cases h

/-- `SharedRingBuffer` delivers every message exactly once and in order. On every ring that `create`
makes, for any number of producers and one consumer that pops into empty vectors, in every
interleaving of single accesses that reserves fewer than `2^64` bytes:

* the messages that `try_pop` has returned are a prefix of the messages reserved, in the order of
  the compare-exchanges on `tail_reserve`;
* when a call of `try_pop` returns false, the messages popped at its last load of `tail_publish`
  were all those published. -/
theorem fifo {capacityBytes : ℕ} {mapping : Mapping}
    (hcreate : createMapping capacityBytes kFlagMPSC = .ok mapping) {s : State} {tr : List Event}
    (hrun : (machine mapping).Run intoEmpty s tr) (hbytes : reservedBytes (pushes tr) < 2^64) :
    popped tr <+: reserved tr ∧
      ∀ l s', (machine mapping).step s l = some (s', .consumer .refused) →
        AtLast Event.LoadsTail (fun pre => popped pre = published pre) tr := by
  obtain ⟨pending, passed, ahead, seen, hinv⟩ :=
    inv_of_run (createMapping_shared hcreate) hrun hbytes
  have hpassed := messages_eq hinv.reader.consumed (out_eq_nil hrun).2
  constructor
  · -- From what is returned over what is consumed and published to what is reserved.
    have h1 : popped tr <+: (consumed tr).map fun p => (⟨p.2.out, p.2.type⟩ : Message) := by
      rw [hinv.consumed_eq, List.map_append]
      exact List.prefix_append _ _
    have h2 : (records passed).map Record.toMessage <+: published tr := by
      rw [published_eq, ← hinv.split, records_append, List.map_append]
      exact List.prefix_append _ _
    have h3 : published tr <+: reserved tr := by
      unfold reserved
      rw [hinv.writer.reservations_eq, List.map_append, List.map_map]
      exact List.prefix_append _ _
    rw [hpassed] at h1
    exact (h1.trans h2).trans h3
  · intro l s' hs
    cases l with
    | producer i l =>
      obtain ⟨eff, pc, pe, -, -, heq⟩ := step_producer hs
      cases heq
    | consumer l =>
      obtain ⟨eff, pc, pe, hstep, -, heq⟩ := step_consumer hs
      cases heq
      obtain ⟨-, -, -, -, -, hseen⟩ := hinv.reader.step hinv.writer.tailPublish_lt hstep
      have hcomp := (PopPc.comparing_step hstep).2.1 rfl
      refine (hinv.load hcomp).imp ?_
      rintro pre ⟨hpre, hret⟩
      -- Nothing was consumed since the load that had not been returned before it.
      have hcons : consumed tr = returned pre := by
        rw [hinv.consumed_eq, unreturned_of_comparing hcomp, List.append_nil, hret]
      rw [published_eq, hpre, hseen rfl, ← hpassed, hcons]
      rfl

/-- A producer pushes three bytes, the consumer pops them, and its next call has loaded
`tail_publish`. -/
def pushThenPop : List Label :=
  let a : PushArgs := .ofBytes (some [1, 2, 3]) 7
  .producer 0 (.call a) :: List.replicate 14 (.producer 0 .run) ++
    (.consumer (.call ⟨[], false⟩) :: List.replicate 10 (.consumer .run) ++
      [.consumer (.call ⟨[], false⟩), .consumer .run])

/-- The test that a call is given an empty vector. -/
def intoEmptyTest (_ : State) (_ : List Event) : Label → Bool
  | .consumer (.call c) => c.out.isEmpty
  | _ => true

/-- The test is the guard. -/
theorem intoEmpty_of_test (s : State) (tr : List Event) (l : Label)
    (h : intoEmptyTest s tr l = true) : intoEmpty s tr l := by
  rintro c rfl
  exact List.isEmpty_iff.mp h

/-- One message through a ring of 64 bytes, and then a call that is about to return false. -/
theorem fifo_pushThenPop : ∃ mapping s tr, createMapping 64 kFlagMPSC = .ok mapping ∧
    (machine mapping).Run intoEmpty s tr ∧ reservedBytes (pushes tr) < 2^64 ∧
    popped tr = [⟨[1, 2, 3], 7⟩] ∧ popped tr <+: reserved tr ∧
    ((machine mapping).step s (.consumer .run)).isSome := by
  obtain ⟨mapping, hmap⟩ : ∃ mapping, createMapping 64 kFlagMPSC = .ok mapping := ⟨_, rfl⟩
  obtain ⟨s, tr, hrun, htest⟩ :=
    (machine mapping).exists_run intoEmptyTest intoEmpty_of_test pushThenPop
    (fun s tr => decide (reservedBytes (pushes tr) < 2^64) &&
      decide (popped tr = [⟨[1, 2, 3], 7⟩]) && ((machine mapping).step s (.consumer .run)).isSome)
    (by cases hmap; decide +kernel)
  simp only [Bool.and_eq_true, decide_eq_true_eq] at htest
  obtain ⟨⟨hbytes, hpop⟩, hnext⟩ := htest
  exact ⟨mapping, s, tr, hmap, hrun, hbytes, hpop, (fifo hmap hrun hbytes).1, hnext⟩

end LfRing.Mpsc

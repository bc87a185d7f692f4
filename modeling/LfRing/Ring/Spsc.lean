import LfRing.Mapping
import LfRing.Ring.Alone
import LfRing.Ring.SpscWriter

/-!
# `SharedRingBufferSPSC`: one producer, one consumer, and crashes

The machine of a `SharedRingBufferSPSC`: one producer in `try_push` and one consumer in `try_pop`,
interleaved at single accesses to the counters and single bytes of the ring. Either may die at any
step. A new producer comes in through `claim`, and a new consumer through `open`, which touches
nothing shared.

A message is committed when `tail_publish` is stored behind its record, and consumed when
`head_publish` is stored behind it. The two sides meet in the stream of the chunks published, as
they do in `SharedRingBuffer`, and neither a death nor a successor changes it (`Inv`).
`crash_consistent` puts together what follows.
-/

namespace LfRing.Spsc

/-- The shared memory and the place of the two parties. -/
structure State where
  /-- The shared memory. -/
  mem : Shared
  /-- Where the producer is. -/
  producer : PushPc
  /-- Where the consumer is in `try_pop`. -/
  consumer : PopPc

/-- Who moves next. -/
inductive Label
  /-- The producer. -/
  | producer (l : PushLabel)
  /-- The consumer. -/
  | consumer (l : PopLabel)
  /-- The consumer dies, and another one opens the ring. -/
  | replace

/-- What a step reports. -/
inductive Event
  /-- The producer's step. -/
  | producer (e : PushEvent)
  /-- The consumer's step. -/
  | consumer (e : PopEvent)
  /-- There is a new consumer. -/
  | replaced

/-- One step of the producer or of the consumer. -/
def step (cap : ℕ) (s : State) : Label → Option (State × Event)
  | .producer l =>
    match s.producer.step cap s.mem l with
    | none => none
    | some (eff, pc, e) => some ({ s with mem := eff.apply s.mem, producer := pc }, .producer e)
  | .consumer l =>
    match s.consumer.step .reserveFirst cap s.mem l with
    | none => none
    | some (eff, pc, e) => some ({ s with mem := eff.apply s.mem, consumer := pc }, .consumer e)
  | .replace => some ({ s with consumer := .idle }, .replaced)

/-- Producer and consumer on a mapping. -/
def machine (mapping : Mapping) : Machine State Label Event where
  init := ⟨mapping.shared, .idle, .idle⟩
  step := step mapping.capacity

/-! ## What has happened so far -/

/-- The event of the producer. -/
def Event.push? : Event → List PushEvent
  | .producer e => [e]
  | _ => []

/-- The event of the consumer. -/
def Event.pop? : Event → List PopEvent
  | .consumer e => [e]
  | _ => []

/-- The events of the producer. -/
def pushes (tr : List Event) : List PushEvent := tr.flatMap Event.push?

/-- The events of the consumer. -/
def pops (tr : List Event) : List PopEvent := tr.flatMap Event.pop?

/-- The bytes of all chunks that `try_push` has set out to place, those included that were lost with
their producer. -/
def placedBytes (tr : List Event) : ℕ := ((pushes tr).map PushEvent.bytes).sum

/-- The chunks published. -/
def publishedChunks (tr : List Event) : List Chunk := (pushes tr).flatMap PushEvent.chunk?

/-- The records committed. -/
def committed (tr : List Event) : List Record := (pushes tr).flatMap PushEvent.committed?

/-- Whether a producer has died. -/
def producerCrashed (tr : List Event) : Bool := (pushes tr).any PushEvent.isCrash

/-- The results consumed, each with its call. -/
def consumed (tr : List Event) : List (PopCall × Popped) := consumedOf (pops tr)

/-- The results returned, each with its call. -/
def returned (tr : List Event) : List (PopCall × Popped) := returnedOf (pops tr)

/-- The consumer has just loaded `tail_publish`. -/
def Event.LoadsTail : Event → Prop
  | .consumer .loadedTail => True
  | _ => False

section Histories

variable (tr : List Event)

/-- One more step adds the bytes of the chunk that it sets out to place. -/
@[simp] theorem placedBytes_append (e : Event) :
    placedBytes (tr ++ [e]) = placedBytes tr + (e.push?.map PushEvent.bytes).sum := by
  simp [placedBytes, pushes]

/-- One more step adds the chunk that it publishes, if it publishes one. -/
@[simp] theorem publishedChunks_append (e : Event) :
    publishedChunks (tr ++ [e]) = publishedChunks tr ++ e.push?.flatMap PushEvent.chunk? := by
  simp [publishedChunks, pushes]

/-- One more step adds the record that it commits, if it commits one. -/
@[simp] theorem committed_append (e : Event) :
    committed (tr ++ [e]) = committed tr ++ e.push?.flatMap PushEvent.committed? := by
  simp [committed, pushes]

/-- A producer has died if one had before the last step, or dies in it. -/
@[simp] theorem producerCrashed_append (e : Event) :
    producerCrashed (tr ++ [e]) = (producerCrashed tr || e.push?.any PushEvent.isCrash) := by
  simp [producerCrashed, pushes]

/-- One more step adds the result that it consumes, if it consumes one. -/
@[simp] theorem consumed_append (e : Event) :
    consumed (tr ++ [e]) = consumed tr ++ consumedOf e.pop? := by
  simp [consumed, consumedOf, pops]

/-- One more step adds the result that it returns, if it returns one. -/
@[simp] theorem returned_append (e : Event) :
    returned (tr ++ [e]) = returned tr ++ returnedOf e.pop? := by
  simp [returned, returnedOf, pops]

/-- The records committed are those of the chunks published. -/
theorem records_publishedChunks : records (publishedChunks tr) = committed tr := by
  unfold publishedChunks committed
  induction pushes tr with
  | nil => rfl
  | cons e es ih =>
    rw [List.flatMap_cons, List.flatMap_cons, records_append, ih]
    congr 1
    cases e with
    | published c => cases c <;> rfl
    | _ => rfl

/-- What the consumer does alone adds to what is consumed. -/
theorem consumed_append_map (es : List PopEvent) :
    consumed (tr ++ es.map Event.consumer) = consumed tr ++ consumedOf es := by
  have hpops : pops (es.map Event.consumer) = es := by
    simp [pops, List.flatMap_map, Event.pop?]
  have happend : pops (tr ++ es.map Event.consumer) = pops tr ++ pops (es.map Event.consumer) := by
    simp [pops]
  rw [consumed, happend, hpops]
  simp [consumed, consumedOf]

end Histories

/-- The steps of the producer, taken apart. -/
theorem step_producer {cap : ℕ} {s s' : State} {l : PushLabel} {e : Event}
    (h : step cap s (.producer l) = some (s', e)) :
    ∃ eff pc pe, s.producer.step cap s.mem l = some (eff, pc, pe) ∧
      s' = { s with mem := eff.apply s.mem, producer := pc } ∧ e = .producer pe := by
  simp only [step] at h
  split at h
  · cases h
  · rename_i eff pc pe hs
    cases h
    exact ⟨eff, pc, pe, hs, rfl, rfl⟩

/-- The steps of the consumer, taken apart. -/
theorem step_consumer {cap : ℕ} {s s' : State} {l : PopLabel} {e : Event}
    (h : step cap s (.consumer l) = some (s', e)) :
    ∃ eff pc pe, s.consumer.step .reserveFirst cap s.mem l = some (eff, pc, pe) ∧
      s' = { s with mem := eff.apply s.mem, consumer := pc } ∧ e = .consumer pe := by
  simp only [step] at h
  split at h
  · cases h
  · rename_i eff pc pe hs
    cases h
    exact ⟨eff, pc, pe, hs, rfl, rfl⟩

/-- With `head_reserve` stored first, the store of `head_publish` is the last one. -/
def publishesLast : PopPc → Bool
  | .publish _ _ last => last
  | .reserve _ _ last => !last
  | _ => true

/-- So whatever is consumed is returned in the same step. -/
theorem consumed_eq_returned {cap : ℕ} {m : Shared} {pc pc' : PopPc} {l : PopLabel} {eff : Effect}
    {e : PopEvent} (h : publishesLast pc = true)
    (hs : pc.step .reserveFirst cap m l = some (eff, pc', e)) :
    publishesLast pc' = true ∧ e.consumed? = e.returned? := by
  cases PopPc.step_cases hs with
  | size c tail head =>
    refine ⟨?_, rfl⟩
    unfold PopPc.copying
    split <;> rfl
  | copy c head size i out =>
    refine ⟨?_, rfl⟩
    unfold PopPc.copying
    split <;> rfl
  | publish head k last =>
    obtain rfl : last = true := h
    cases k <;> exact ⟨rfl, rfl⟩
  | reserve head k last =>
    cases last with
    | false => exact ⟨rfl, rfl⟩
    | true => cases h
  | _ => exact ⟨rfl, rfl⟩

/-! ## The invariant of a run -/

/-- What the two sides have in common. -/
structure Inv (cap : ℕ) (s : State) (tr : List Event) (passed ahead seen : List Chunk) : Prop where
  /-- The producer's side. -/
  push : PushInv cap s.mem s.producer (placedBytes tr)
  /-- The sequence numbers. -/
  numbering : Numbering s.mem s.producer (placedBytes tr) ((committed tr).map Record.sequence)
    (producerCrashed tr)
  /-- The consumer's side. -/
  reader : ReaderInv cap s.mem s.consumer passed ahead seen (consumed tr)
  /-- What is passed and what is ahead is what was published. -/
  split : passed ++ ahead = publishedChunks tr
  /-- The consumer stores `head_publish` last. -/
  last : publishesLast s.consumer = true
  /-- What is consumed has been returned. -/
  returned_eq : returned tr = consumed tr
  /-- What the consumer compares with was all that was published when it last loaded
  `tail_publish`, and it has consumed nothing since. -/
  load : s.consumer.comparing = true → AtLast Event.LoadsTail
    (fun pre => publishedChunks pre = seen ∧ consumed pre = consumed tr) tr

/-- The initial state. -/
theorem Inv.fresh (cap : ℕ) : Inv cap ⟨Shared.fresh, .idle, .idle⟩ [] [] [] [] :=
  ⟨.fresh cap, .fresh, .fresh cap, rfl, rfl, rfl, by rintro ⟨⟩⟩

section Steps

variable {cap : ℕ} {s : State} {tr : List Event} {passed ahead seen : List Chunk}

/-- A step of the producer publishes a chunk or nothing. -/
theorem Inv.producer (h : Inv cap s tr passed ahead seen) {l : PushLabel} {eff : Effect}
    {pc : PushPc} {e : PushEvent} (hs : s.producer.step cap s.mem l = some (eff, pc, e))
    (hlt : placedBytes (tr ++ [.producer e]) < 2^64) :
    Inv cap { s with mem := eff.apply s.mem, producer := pc } (tr ++ [.producer e]) passed
      (ahead ++ e.chunk?) seen := by
  have hbytes : placedBytes (tr ++ [.producer e]) = placedBytes tr + e.bytes := by
    simp [Event.push?]
  have hcommitted : committed (tr ++ [.producer e]) = committed tr ++ e.committed? := by
    simp [Event.push?]
  have hcrashed : producerCrashed (tr ++ [.producer e]) = (producerCrashed tr || e.isCrash) := by
    simp [Event.push?]
  have hconsumed : consumed (tr ++ [.producer e]) = consumed tr := by
    simp [Event.pop?, consumedOf]
  have hreturned : returned (tr ++ [.producer e]) = returned tr := by
    simp [Event.pop?, returnedOf]
  rw [hbytes] at hlt
  obtain ⟨hpush, hview⟩ := h.push.step hs hlt
  refine ⟨?_, ?_, ?_, ?_, h.last, ?_, ?_⟩
  · rw [hbytes]
    exact hpush
  · rw [hbytes, hcommitted, hcrashed, List.map_append]
    exact h.numbering.step hs hlt
  · rw [hconsumed]
    exact h.reader.publish hview
  · rw [publishedChunks_append, ← h.split, List.append_assoc]
    simp [Event.push?]
  · rw [hconsumed, hreturned]
    exact h.returned_eq
  · intro hc
    rw [hconsumed]
    exact (h.load hc).later id

/-- A step of the consumer passes part of the stream. -/
theorem Inv.consumer (h : Inv cap s tr passed ahead seen) {l : PopLabel} {eff : Effect} {pc : PopPc}
    {e : PopEvent} (hs : s.consumer.step .reserveFirst cap s.mem l = some (eff, pc, e)) :
    ∃ passed' ahead' seen', Inv cap { s with mem := eff.apply s.mem, consumer := pc }
      (tr ++ [.consumer e]) passed' ahead' seen' := by
  have hbytes := h.push.bytes_le
  have hbound := h.push.bytes_lt
  obtain ⟨passed', ahead', hsplit, hr, hview, -⟩ := h.reader.step (by omega) hs
  obtain ⟨hcomp, -, -⟩ := PopPc.comparing_step hs
  obtain ⟨hlast, hsame⟩ := consumed_eq_returned h.last hs
  have hconsumed : consumed (tr ++ [.consumer e]) = consumed tr ++ e.consumed? := by
    simp [Event.pop?, consumedOf]
  have hreturned : returned (tr ++ [.consumer e]) = returned tr ++ e.returned? := by
    simp [Event.pop?, returnedOf]
  have hquiet : placedBytes (tr ++ [.consumer e]) = placedBytes tr ∧
      committed (tr ++ [.consumer e]) = committed tr ∧
      producerCrashed (tr ++ [.consumer e]) = producerCrashed tr ∧
      publishedChunks (tr ++ [.consumer e]) = publishedChunks tr := by
    simp [Event.push?]
  obtain ⟨h1, h2, h3, h4⟩ := hquiet
  refine ⟨passed', ahead', e.seen (passed ++ ahead) seen, ?_, ?_, ?_, ?_, hlast, ?_, ?_⟩
  · rw [h1]
    exact h.push.advance hview
  · rw [h1, h2, h3]
    exact h.numbering.advance hview.sequence_eq
  · rw [hconsumed]
    exact hr
  · rw [h4, hsplit]
    exact h.split
  · rw [hconsumed, hreturned, h.returned_eq, hsame]
  · intro hc
    obtain ⟨hret, hkind⟩ := hcomp hc
    rw [hconsumed, hsame, hret, List.append_nil]
    rcases hkind with rfl | ⟨hne, hold⟩
    · exact .now trivial ⟨h.split.symm, rfl⟩
    · -- Another step of the same pass: the load is still the last one.
      have hseen : e.seen (passed ++ ahead) seen = seen := by
        cases e <;> first | rfl | exact absurd rfl hne
      rw [hseen]
      refine (h.load hold).later ?_
      cases e <;> first | exact id | exact absurd rfl hne

/-- A new consumer finds the stream as the old one has left it. -/
theorem Inv.replace (h : Inv cap s tr passed ahead seen) :
    Inv cap { s with consumer := .idle } (tr ++ [.replaced]) passed ahead seen := by
  have hconsumed : consumed (tr ++ [.replaced]) = consumed tr := by
    simp [Event.pop?, consumedOf]
  have hreturned : returned (tr ++ [.replaced]) = returned tr := by
    simp [Event.pop?, returnedOf]
  have hquiet : placedBytes (tr ++ [.replaced]) = placedBytes tr ∧
      committed (tr ++ [.replaced]) = committed tr ∧
      producerCrashed (tr ++ [.replaced]) = producerCrashed tr ∧
      publishedChunks (tr ++ [.replaced]) = publishedChunks tr := by
    simp [Event.push?]
  obtain ⟨h1, h2, h3, h4⟩ := hquiet
  refine ⟨by rw [h1]; exact h.push, by rw [h1, h2, h3]; exact h.numbering, ?_,
    by rw [h4]; exact h.split, rfl, by rw [hconsumed, hreturned]; exact h.returned_eq, by rintro ⟨⟩⟩
  rw [hconsumed]
  exact ⟨h.reader.stream, h.reader.consumed, trivial⟩

end Steps

/-- The invariant holds in every run that places fewer than `2^64` bytes. -/
theorem inv_of_run {mapping : Mapping} {ok : State → List Event → Label → Prop} {s : State}
    {tr : List Event} (hfresh : mapping.shared = Shared.fresh)
    (h : (machine mapping).Run ok s tr) (hlt : placedBytes tr < 2^64) :
    ∃ passed ahead seen, Inv mapping.capacity s tr passed ahead seen := by
  refine h.invariant_of (fun tr => placedBytes tr < 2^64) ?_
    (fun s tr => ∃ passed ahead seen, Inv mapping.capacity s tr passed ahead seen) ?_ ?_ hlt
  · intro tr e hb
    rw [placedBytes_append] at hb
    omega
  · refine ⟨[], [], [], ?_⟩
    simp only [machine, hfresh]
    exact Inv.fresh _
  · intro s tr l s' e _ hb ⟨passed, ahead, seen, hinv⟩ hs
    cases l with
    | producer l =>
      obtain ⟨eff, pc, pe, hstep, rfl, rfl⟩ := step_producer hs
      exact ⟨passed, _, seen, hinv.producer hstep hb⟩
    | consumer l =>
      obtain ⟨eff, pc, pe, hstep, rfl, rfl⟩ := step_consumer hs
      exact hinv.consumer hstep
    | replace =>
      cases hs
      exact ⟨passed, ahead, seen, hinv.replace⟩

/-- When a call is about to return false, nothing has been consumed since its last load of
`tail_publish`, and all that was committed then had been consumed. -/
theorem Inv.refused {cap : ℕ} {s : State} {tr : List Event} {passed ahead seen : List Chunk}
    (h : Inv cap s tr passed ahead seen) {l : PopLabel} {eff : Effect} {pc : PopPc}
    (hs : s.consumer.step .reserveFirst cap s.mem l = some (eff, pc, .refused)) :
    AtLast Event.LoadsTail
      (fun pre => consumed pre = consumed tr ∧ (consumed tr).length = (committed pre).length)
      tr := by
  have hle := h.push.bytes_le
  have hlt := h.push.bytes_lt
  obtain ⟨-, -, -, -, -, hseen⟩ := h.reader.step (by omega) hs
  refine (h.load ((PopPc.comparing_step hs).2.1 rfl)).imp ?_
  rintro pre ⟨hpre, hcons⟩
  refine ⟨hcons, ?_⟩
  rw [← records_publishedChunks, hpre, hseen rfl]
  exact h.reader.consumed.length_eq

/-! ## Crash consistency -/

/-- The consumer runs alone, and calls `try_pop` with empty vectors. -/
def Label.PopsAlone : Label → Prop
  | .consumer l => ReaderInv.CallsWithEmpty l
  | _ => False

/-- What a consumer alone with the memory does, it does in the machine. -/
theorem path_of_popMachine {mapping : Mapping} {s : State} {who : PopLabel → Prop} {m m' : Shared}
    {pc pc' : PopPc} {es : List PopEvent} (hwho : ∀ l, who l → ReaderInv.CallsWithEmpty l)
    (h : (popMachine .reserveFirst mapping.capacity Shared.fresh).Path who (m, pc) es (m', pc')) :
    (machine mapping).Path Label.PopsAlone { s with mem := m, consumer := pc }
      (es.map Event.consumer) { s with mem := m', consumer := pc' } := by
  refine h.map (fun x : Shared × PopPc => { s with mem := x.1, consumer := x.2 }) Label.consumer
    Event.consumer ?_ ?_
  · exact hwho
  · intro x l x' e _ hs
    obtain ⟨eff, hstep, heq⟩ := popMachine_step hs
    simp only [machine, step, hstep, heq]

/-- From every state the consumer can pop the rest of what is committed. -/
theorem Inv.drain {mapping : Mapping} {s : State} {tr : List Event} {passed ahead seen : List Chunk}
    (h : Inv mapping.capacity s tr passed ahead seen) :
    ∃ es s', (machine mapping).Path Label.PopsAlone s es s' ∧
      List.Forall₂ (fun p r => p.2.Of p.1 r) (consumed (tr ++ es)) (committed tr) := by
  have hbytes := h.push.bytes_le
  have hbound := h.push.bytes_lt
  -- First the call that the consumer is in comes to its end, and then there is one for each record.
  obtain ⟨es₁, m₁, passed₁, ahead₁, seen₁, hp₁, heq, hlt₁, hinv₁⟩ :=
    h.reader.finish .reserveFirst Shared.fresh (by omega)
  obtain ⟨es₂, m₂, hp₂, hall⟩ := hinv₁.drain .reserveFirst Shared.fresh hlt₁
  have hpath₁ := path_of_popMachine (s := s) (by rintro l rfl; trivial) hp₁
  have hpath₂ := path_of_popMachine (s := s) (fun _ hl => hl) hp₂
  refine ⟨es₁.map Event.consumer ++ es₂.map Event.consumer, _, hpath₁.trans hpath₂, ?_⟩
  rw [heq, h.split, records_publishedChunks] at hall
  rw [← List.append_assoc, consumed_append_map, consumed_append_map]
  exact hall

/-- `SharedRingBufferSPSC` is a crash-consistent queue. On every ring that `create` makes, in every
interleaving of single accesses and bytes of one producer and one consumer that may die at any step
and be replaced, with fewer than `2^64` bytes placed:

* what was consumed is a prefix of what was committed, and each result has the record's payload at
  the front of its vector, its type, and its sequence number if asked for; nothing else is ever
  returned;
* the sequence numbers of what was committed go up, and they are 1, 2, 3 and so on as long as no
  producer has died;
* the consumer, running alone, can pop all that is committed and not yet consumed, in order;
* when a call returns false, all that was committed at its last load of `tail_publish` had been
  consumed. -/
theorem crash_consistent {capacityBytes : ℕ} {mapping : Mapping}
    (hcreate : createMapping capacityBytes kFlagSPSC = .ok mapping) {s : State} {tr : List Event}
    (hrun : (machine mapping).Reaches s tr) (hbytes : placedBytes tr < 2^64) :
    (∃ rs, rs <+: committed tr ∧ List.Forall₂ (fun p r => p.2.Of p.1 r) (consumed tr) rs) ∧
      returned tr = consumed tr ∧
      ((committed tr).map Record.sequence).Pairwise (· < ·) ∧
      (producerCrashed tr = false →
        (committed tr).map Record.sequence = List.range' 1 (committed tr).length) ∧
      (∃ es s', (machine mapping).Path Label.PopsAlone s es s' ∧
        List.Forall₂ (fun p r => p.2.Of p.1 r) (consumed (tr ++ es)) (committed tr)) ∧
      ∀ l s', (machine mapping).step s l = some (s', .consumer .refused) →
        AtLast Event.LoadsTail (fun pre => (consumed pre).length = (committed pre).length) tr := by
  obtain ⟨passed, ahead, seen, hinv⟩ := inv_of_run (createMapping_shared hcreate) hrun hbytes
  refine ⟨⟨records passed, ?_, hinv.reader.consumed⟩, hinv.returned_eq, hinv.numbering.sorted, ?_,
    hinv.drain, ?_⟩
  · rw [← records_publishedChunks, ← hinv.split, records_append]
    exact List.prefix_append _ _
  · intro hplain
    have hrange := (hinv.numbering.plain hplain).2
    rwa [List.length_map] at hrange
  · intro l s' hs
    cases l with
    | producer l =>
      obtain ⟨eff, pc, pe, -, -, heq⟩ := step_producer hs
      cases heq
    | replace => cases hs
    | consumer l =>
      obtain ⟨eff, pc, pe, hstep, -, heq⟩ := step_consumer hs
      cases heq
      refine (hinv.refused hstep).imp ?_
      rintro pre ⟨hcons, hlen⟩
      rw [hcons]
      exact hlen

/-- The producer dies with its first record half written and is replaced. The new one pushes two
bytes, and the consumer dies before it has consumed them. -/
def crashes : List Label :=
  let a : PushArgs := .ofBytes (some [9, 9, 9]) 1
  let b : PushArgs := .ofBytes (some [1, 2]) 7
  .producer (.call a) :: List.replicate 12 (.producer .run) ++
    (.producer .crash :: .producer .claim :: List.replicate 2 (.producer .run)) ++
    (.producer (.call b) :: List.replicate 31 (.producer .run)) ++
    (.consumer (.call ⟨[], true⟩) :: List.replicate 7 (.consumer .run) ++ [.replace])

/-- The message that was committed is there after both have died. -/
theorem crash_consistent_crashes : ∃ mapping s tr, createMapping 64 kFlagSPSC = .ok mapping ∧
    (machine mapping).Reaches s tr ∧ placedBytes tr < 2^64 ∧
    committed tr = [⟨⟨[1, 2], 7⟩, 1⟩] ∧ consumed tr = [] ∧ producerCrashed tr = true ∧
    ∃ es s', (machine mapping).Path Label.PopsAlone s es s' ∧
      List.Forall₂ (fun p r => p.2.Of p.1 r) (consumed (tr ++ es)) (committed tr) := by
  obtain ⟨mapping, hmap⟩ : ∃ mapping, createMapping 64 kFlagSPSC = .ok mapping := ⟨_, rfl⟩
  obtain ⟨s, tr, hrun, htest⟩ := (machine mapping).exists_reaches crashes
    (fun _ tr => decide (placedBytes tr < 2^64) && decide (committed tr = [⟨⟨[1, 2], 7⟩, 1⟩]) &&
      decide (consumed tr = []) && producerCrashed tr)
    (by cases hmap; decide +kernel)
  simp only [Bool.and_eq_true, decide_eq_true_eq] at htest
  obtain ⟨⟨⟨hbytes, hcommitted⟩, hconsumed⟩, hcrashed⟩ := htest
  exact ⟨mapping, s, tr, hmap, hrun, hbytes, hcommitted, hconsumed, hcrashed,
    (crash_consistent hmap hrun hbytes).2.2.2.2.1⟩

end LfRing.Spsc

import LfRing.Ring.Calls
import LfRing.Ring.Spsc
import LfRing.Typed.Messages

/-!
# Byte topics: `SpscBytePublisher` and `SpscByteSubscriber`

A publisher and a subscriber of `include/lf_ring/ipc_adapter.hpp` on one topic, at single accesses
to the shared memory. The publisher pushes into a `SharedRingBufferSPSC`, may die at any step and be
replaced. The subscriber's thread runs `poll_loop`: it pops until `try_pop` returns false, waits if
it got nothing, and once `stop` has been called it pops the rest and ends. There is a callback
`on_message`.

Each step is one of the ring's machine or touches nothing shared, so every run is a run of
`SharedRingBufferSPSC` (`ring_reaches`), and what its records are follows from that. What is added
here is the loop's `buf`. It is one vector for the whole loop, which `try_pop` makes longer but
never shorter, and all of it goes to the callback (`spans`). So a message that is shorter than one
before it comes with the old one's last bytes behind it (`trailing_bytes`). A span that is published
is cut to 32 bits of length besides. `delivers_iff` says that nothing else is wrong.
-/

namespace LfRing.Topic

open Typed (Grows overlay_eq_iff)

/-! ## The publisher and the subscriber -/

/-- A call of one of the two `publish`. -/
inductive Publish
  /-- `publish(const void* data, std::uint32_t size, std::uint16_t type)`. -/
  | raw (a : PushArgs)
  /-- `publish(std::span<const std::byte> data, std::uint16_t type)`. -/
  | span (data : List UInt8) (type : UInt16)

namespace Publish

/-- The arguments of `ring_.try_push`. The length of a span is cast to `std::uint32_t`. -/
def args : Publish → PushArgs
  | raw a => a
  | span data type => .ofBytes (some data) type

/-- What the caller publishes. -/
def message : Publish → Message
  | raw a => a.message
  | span data type => ⟨data, type.toNat⟩

end Publish

/-- Where the subscriber's thread is in `poll_loop`. -/
inductive PollPc
  /-- About to load `running_`. -/
  | loadRunning
  /-- In one of the two loops around `try_pop`, the final drain if `draining`. -/
  | popping (gotAny draining : Bool)
  /-- Waiting for `poll_interval` to pass or `stop` to be called. -/
  | waiting
  /-- Past the final drain. -/
  | finished
deriving DecidableEq

/-- The ring, and the two parties of the topic. -/
structure State where
  /-- The ring. -/
  ring : Spsc.State
  /-- The last call of `publish`. -/
  calling : Option Publish
  /-- Where the subscriber's thread is. -/
  poll : PollPc
  /-- `buf`. -/
  buf : List UInt8
  /-- `running_`. -/
  running : Bool

/-- Who moves next. -/
inductive Label
  /-- The publisher calls `publish`. -/
  | publish (p : Publish)
  /-- The publisher takes its next step. -/
  | publisher
  /-- The publisher dies. -/
  | crash
  /-- A new publisher claims the topic. -/
  | claim
  /-- The subscriber's thread takes its next step. -/
  | poll
  /-- `stop` stores `running_`. -/
  | stop

/-- What a step reports. -/
inductive Event
  /-- A step of the publisher in a call of `publish`. -/
  | publisher (p : Option Publish) (e : Spsc.PushEvent)
  /-- A step of the subscriber's `try_pop`. -/
  | subscriber (e : PopEvent)
  /-- Another step of `poll_loop`. -/
  | polled
  /-- `running_` is false from now on. -/
  | stopped

/-- A step of the publisher, in the call `p`. -/
def publisherStep (cap : ℕ) (s : State) (p : Option Publish) (l : Spsc.PushLabel) :
    Option (State × Event) :=
  match s.ring.producer.step cap s.ring.mem l with
  | none => none
  | some (eff, pc, e) => some ({ s with
      ring := { s.ring with mem := eff.apply s.ring.mem, producer := pc }, calling := p },
      .publisher p e)

/-- Behind a `try_pop` that has returned false. -/
def PollPc.drained (gotAny draining : Bool) : PollPc :=
  if draining then finished else if gotAny then loadRunning else waiting

/-- What the end of a `try_pop` means for the loop: behind one that has returned true, `on_message`
gets all of `buf`. -/
def State.received (s : State) (gotAny draining : Bool) : PopEvent → State
  | .returned _ res _ => { s with buf := res.out, poll := .popping true draining }
  | .refused => { s with poll := .drained gotAny draining }
  | _ => s

/-- The next step of a loop around `try_pop(buf, type)`: the call, if the last one is over. -/
def State.popLabel (s : State) : PopLabel :=
  match s.ring.consumer with
  | .idle => .call ⟨s.buf, false⟩
  | _ => .run

/-- A step of `poll_loop`. -/
def pollStep (cap : ℕ) (s : State) : Option (State × Event) :=
  match s.poll with
  | .loadRunning => some ({ s with poll := .popping false (!s.running) }, .polled)
  | .popping gotAny draining =>
    match s.ring.consumer.step .reserveFirst cap s.ring.mem s.popLabel with
    | none => none
    | some (eff, pc, e) => some
        ({ s.received gotAny draining e with
          ring := { s.ring with mem := eff.apply s.ring.mem, consumer := pc } }, .subscriber e)
  | .waiting => some ({ s with poll := .loadRunning }, .polled)
  | .finished => none

/-- One step of the topic. -/
def step (cap : ℕ) (s : State) : Label → Option (State × Event)
  | .publish p => publisherStep cap s (some p) (.call p.args)
  | .publisher => publisherStep cap s s.calling .run
  | .crash => publisherStep cap s s.calling .crash
  | .claim => publisherStep cap s s.calling .claim
  | .poll => pollStep cap s
  | .stop => if s.running then some ({ s with running := false }, .stopped) else none

/-- A topic on a mapping, with its subscriber started. -/
def machine (mapping : Mapping) : Machine State Label Event where
  init := ⟨⟨mapping.shared, .idle, .idle⟩, none, .loadRunning, [], true⟩
  step := step mapping.capacity

/-! ## What has happened so far -/

namespace Event

/-- The step of the ring. -/
def ring? : Event → List Spsc.Event
  | publisher _ e => [.producer e]
  | subscriber e => [.consumer e]
  | _ => []

/-- The call of `publish` that has been accepted: `tail_publish` has been stored behind its
record. -/
def accepted? : Event → List Publish
  | publisher (some p) e => e.committed?.map fun _ => p
  | _ => []

/-- What has been passed to `on_message`. -/
def delivered? : Event → List Message
  | subscriber e => e.returned?.map fun x => ⟨x.2.out, x.2.type⟩
  | _ => []

/-- The subscriber's `try_pop` has just loaded `tail_publish`. -/
def LoadsTail (e : Event) : Prop := ∃ x ∈ e.ring?, x.LoadsTail

end Event

/-- The events of the ring. -/
def ringEvents (tr : List Event) : List Spsc.Event := tr.flatMap Event.ring?

/-- The calls of `publish` accepted. -/
def accepted (tr : List Event) : List Publish := tr.flatMap Event.accepted?

/-- The messages published. -/
def published (tr : List Event) : List Message := (accepted tr).map Publish.message

/-- The messages passed to `on_message`. -/
def delivered (tr : List Event) : List Message := tr.flatMap Event.delivered?

/-- The bytes that all calls of `publish` have set out to place in the ring. -/
def placedBytes (tr : List Event) : ℕ := Spsc.placedBytes (ringEvents tr)

section Histories

variable (tr : List Event) (e : Event)

/-- One more step adds what it does to the ring. -/
@[simp] theorem ringEvents_append : ringEvents (tr ++ [e]) = ringEvents tr ++ e.ring? := by
  simp [ringEvents]

/-- One more step adds the call of `publish` that it completes, if it is accepted. -/
@[simp] theorem accepted_append : accepted (tr ++ [e]) = accepted tr ++ e.accepted? := by
  simp [accepted]

/-- One more step adds the message that it delivers, if it delivers one. -/
@[simp] theorem delivered_append : delivered (tr ++ [e]) = delivered tr ++ e.delivered? := by
  simp [delivered]

/-- The messages delivered are the results that `try_pop` has returned. -/
theorem delivered_eq :
    delivered tr = (Spsc.returned (ringEvents tr)).map fun x => ⟨x.2.out, x.2.type⟩ := by
  induction tr using List.reverseRecOn with
  | nil => rfl
  | append_singleton tr e ih =>
    rw [delivered_append, ringEvents_append, ih]
    cases e with
    | subscriber e => simp [Event.ring?, Event.delivered?, Spsc.Event.pop?, returnedOf]
    | publisher p e => simp [Event.ring?, Event.delivered?, Spsc.Event.pop?, returnedOf]
    | polled => simp [Event.ring?, Event.delivered?]
    | stopped => simp [Event.ring?, Event.delivered?]

end Histories

/-! ## The steps -/

/-- The steps of a topic. -/
inductive Step (cap : ℕ) (s : State) : State → Event → Prop
  /-- The publisher's: it calls `publish`, or is in the call that it was in. -/
  | publisher (l : Spsc.PushLabel) (p : Option Publish) (eff : Effect) (pc : Spsc.PushPc)
    (e : Spsc.PushEvent)
    (hl : (∃ q, p = some q ∧ l = .call q.args) ∨ p = s.calling ∧ ∀ a, l ≠ .call a)
    (hs : s.ring.producer.step cap s.ring.mem l = some (eff, pc, e)) :
    Step cap s { s with
      ring := { s.ring with mem := eff.apply s.ring.mem, producer := pc }, calling := p }
      (.publisher p e)
  /-- A step of `try_pop`. -/
  | subscriber (gotAny draining : Bool) (eff : Effect) (pc : PopPc) (e : PopEvent)
    (hpoll : s.poll = .popping gotAny draining)
    (hs : s.ring.consumer.step .reserveFirst cap s.ring.mem s.popLabel = some (eff, pc, e)) :
    Step cap s { s.received gotAny draining e with
      ring := { s.ring with mem := eff.apply s.ring.mem, consumer := pc } } (.subscriber e)
  /-- The load of `running_`. -/
  | loadRunning (hpoll : s.poll = .loadRunning) :
    Step cap s { s with poll := .popping false (!s.running) } .polled
  /-- The end of a wait. -/
  | wake (hpoll : s.poll = .waiting) : Step cap s { s with poll := .loadRunning } .polled
  /-- `stop`. -/
  | stop : Step cap s { s with running := false } .stopped

/-- The publisher's steps, taken apart. -/
theorem publisherStep_cases {cap : ℕ} {s s' : State} {p : Option Publish} {l : Spsc.PushLabel}
    {e : Event} (hl : (∃ q, p = some q ∧ l = .call q.args) ∨ p = s.calling ∧ ∀ a, l ≠ .call a)
    (h : publisherStep cap s p l = some (s', e)) : Step cap s s' e := by
  unfold publisherStep at h
  split at h
  · cases h
  · rename_i eff pc pe hs
    cases h
    exact .publisher l p eff pc pe hl hs

/-- Every step is one of these. -/
theorem step_cases {cap : ℕ} {s s' : State} {l : Label} {e : Event}
    (h : step cap s l = some (s', e)) : Step cap s s' e := by
  cases l with
  | publish p => exact publisherStep_cases (Or.inl ⟨p, rfl, rfl⟩) h
  | publisher => exact publisherStep_cases (l := .run) (Or.inr ⟨rfl, by rintro a ⟨⟩⟩) h
  | crash => exact publisherStep_cases (l := .crash) (Or.inr ⟨rfl, by rintro a ⟨⟩⟩) h
  | claim => exact publisherStep_cases (l := .claim) (Or.inr ⟨rfl, by rintro a ⟨⟩⟩) h
  | stop =>
    simp only [step] at h
    split_ifs at h
    cases h
    exact .stop
  | poll =>
    simp only [step, pollStep] at h
    cases hpoll : s.poll with
    | loadRunning =>
      rw [hpoll] at h
      cases h
      exact .loadRunning hpoll
    | waiting =>
      rw [hpoll] at h
      cases h
      exact .wake hpoll
    | finished =>
      rw [hpoll] at h
      cases h
    | popping gotAny draining =>
      simp only [hpoll] at h
      split at h
      · cases h
      · rename_i eff pc pe hs
        cases h
        exact .subscriber gotAny draining eff pc pe hpoll hs

/-- A run of the topic is one of the ring. -/
theorem ring_reaches {mapping : Mapping} {s : State} {tr : List Event}
    (h : (machine mapping).Reaches s tr) :
    (Spsc.machine mapping).Reaches s.ring (ringEvents tr) := by
  refine h.project State.ring Event.ring? rfl ?_
  intro s l s' e hs
  cases step_cases hs with
  | publisher l p eff pc e hl hstep =>
    exact Or.inr ⟨.producer l, .producer e, by simp only [Spsc.machine, Spsc.step, hstep], rfl⟩
  | subscriber gotAny draining eff pc e hpoll hstep =>
    exact Or.inr ⟨.consumer s.popLabel, .consumer e,
      by simp only [Spsc.machine, Spsc.step, hstep], rfl⟩
  | loadRunning hpoll => exact Or.inl ⟨rfl, rfl⟩
  | wake hpoll => exact Or.inl ⟨rfl, rfl⟩
  | stop => exact Or.inl ⟨rfl, rfl⟩

/-! ## What the callback gets -/

/-- What `on_message` gets for the messages of some calls of `publish`, from the contents of `buf`
on. -/
def spans (buf : List UInt8) : List Publish → List Message
  | [] => []
  | p :: ps =>
    ⟨p.args.payload ++ buf.drop p.args.payload.length, p.args.type⟩ ::
      spans (p.args.payload ++ buf.drop p.args.payload.length) ps

/-- The bytes pushed are those published, cut to a length of 32 bits. -/
theorem Publish.payload_args (p : Publish) :
    p.args.payload = p.message.payload.take (p.message.payload.length % 2^32) := by
  cases p with
  | span data type => rfl
  | raw a =>
    have hlen : a.payload.length < 2^32 := by
      have := a.size_lt
      unfold PushArgs.payload
      rw [List.length_take]
      omega
    change a.payload = a.payload.take (a.payload.length % 2^32)
    rw [Nat.mod_eq_of_lt hlen, List.take_length]

/-- The type is not changed. -/
theorem Publish.type_args (p : Publish) : p.args.type = p.message.type := by
  cases p <;> rfl

/-- The callback gets what was published exactly if no length is cut or goes down. -/
theorem spans_eq_iff (ps : List Publish) {buf : List UInt8} (hb : buf.length < 2^32) :
    spans buf ps = ps.map Publish.message ↔ Grows (ps.map fun p => p.message.payload.length) ∧
      ∀ p ∈ ps, buf.length ≤ p.message.payload.length := by
  induction ps generalizing buf with
  | nil => simp [spans, Grows]
  | cons p ps ih =>
    have hlen : p.args.payload.length = p.message.payload.length % 2^32 := by
      rw [p.payload_args, List.length_take, Nat.min_eq_left (Nat.mod_le _ _)]
    have hfirst := overlay_eq_iff p.message.payload hb
    rw [← p.payload_args, ← hlen] at hfirst
    have hhead : (⟨p.args.payload ++ buf.drop p.args.payload.length, p.args.type⟩ : Message) =
        p.message ↔ p.args.payload ++ buf.drop p.args.payload.length = p.message.payload := by
      constructor
      · intro h
        exact congrArg Message.payload h
      · intro h
        rw [h, p.type_args]
    rw [spans, List.map_cons, List.cons.injEq, hhead]
    simp only [List.map_cons, List.forall_mem_cons, Grows, List.pairwise_cons, List.mem_map,
      forall_exists_index, and_imp, forall_apply_eq_imp_iff₂]
    constructor
    · rintro ⟨hout, hrest⟩
      obtain ⟨hlt, hle⟩ := hfirst.mp hout
      rw [hout] at hrest
      obtain ⟨⟨hpair, hall⟩, hge⟩ := (ih hlt).mp hrest
      simp only [List.mem_map, forall_exists_index, and_imp, forall_apply_eq_imp_iff₂] at hall
      exact ⟨⟨⟨hge, hpair⟩, hlt, hall⟩, hle, fun q hq => hle.trans (hge q hq)⟩
    · rintro ⟨⟨⟨hge, hpair⟩, hlt, hall⟩, hle, -⟩
      have hout := hfirst.mpr ⟨hlt, hle⟩
      refine ⟨hout, ?_⟩
      rw [hout]
      refine (ih hlt).mpr ⟨⟨hpair, ?_⟩, hge⟩
      simpa only [List.mem_map, forall_exists_index, and_imp, forall_apply_eq_imp_iff₂] using hall

/-- Each call of `try_pop` gets the vector that the one before has left, from `buf` to `buf'`. -/
def Linked : List UInt8 → List (PopCall × Popped) → List UInt8 → Prop
  | buf, [], buf' => buf' = buf
  | buf, x :: xs, buf' => x.1.out = buf ∧ Linked x.2.out xs buf'

/-- One more call. -/
theorem Linked.append {buf buf' : List UInt8} {xs : List (PopCall × Popped)} {x : PopCall × Popped}
    (h : Linked buf xs buf') (hx : x.1.out = buf') : Linked buf (xs ++ [x]) x.2.out := by
  induction xs generalizing buf with
  | nil =>
    obtain rfl : buf' = buf := h
    exact ⟨hx, rfl⟩
  | cons y ys ih => exact ⟨h.1, ih h.2⟩

/-- The results of linked calls are the spans. -/
theorem Linked.spans_eq {buf buf' : List UInt8} {xs : List (PopCall × Popped)} {rs : List Record}
    {ps : List Publish} (h : Linked buf xs buf')
    (hxs : List.Forall₂ (fun x r => x.2.Of x.1 r) xs rs)
    (hps : List.Forall₂ (fun p r => r.toMessage = p.args.message) ps rs) :
    xs.map (fun x => (⟨x.2.out, x.2.type⟩ : Message)) = spans buf ps := by
  induction hxs generalizing buf ps with
  | nil =>
    cases hps
    rfl
  | @cons x r xs rs hx _ ih =>
    cases hps with
    | @cons p _ ps _ hp hps =>
      have hpayload : r.payload = p.args.payload := congrArg Message.payload hp
      have htype : r.type = p.args.type := congrArg Message.type hp
      have hout : x.2.out = p.args.payload ++ buf.drop p.args.payload.length := by
        rw [hx.1, h.1, hpayload]
      rw [List.map_cons, spans, ih h.2 hps, hout, hx.2.1, htype]

/-! ## What a run keeps -/

/-- The publisher is in no call of `publish`. -/
def Between : Spsc.PushPc → Prop
  | .gone => True
  | .claimLoad => True
  | .claimStore _ => True
  | .idle => True
  | _ => False

/-- The publisher is in the call `calling`, or in none. -/
def CallingOk (pc : Spsc.PushPc) (calling : Option Publish) : Prop :=
  Between pc ∨ ∃ q, calling = some q ∧ pc.Inside q.args

/-- Every step of the publisher is one of the call it is in, and what it commits is that call's
record. -/
theorem CallingOk.step {cap : ℕ} {m : Shared} {pc pc' : Spsc.PushPc} {calling p : Option Publish}
    {l : Spsc.PushLabel} {eff : Effect} {e : Spsc.PushEvent} (h : CallingOk pc calling)
    (hl : (∃ q, p = some q ∧ l = .call q.args) ∨ p = calling ∧ ∀ a, l ≠ .call a)
    (hs : pc.step cap m l = some (eff, pc', e)) :
    CallingOk pc' p ∧
      (e.committed? = [] ∨ ∃ q n, p = some q ∧ e.committed? = [Spsc.record q.args n]) := by
  -- A call in progress, or one that begins, goes on or comes to its end.
  have hcall : ∀ q, p = some q → (pc.Inside q.args ∧ l = .run) ∨ pc = .idle ∧ l = .call q.args →
      CallingOk pc' p ∧
        (e.committed? = [] ∨ ∃ q n, p = some q ∧ e.committed? = [Spsc.record q.args n]) := by
    intro q hq hin
    rcases Spsc.PushPc.end_step hin hs with ⟨rfl, hnone | ⟨n, hone⟩⟩ | ⟨hin', hnone⟩
    · exact ⟨Or.inl trivial, Or.inl hnone⟩
    · exact ⟨Or.inl trivial, Or.inr ⟨q, n, hq, hone⟩⟩
    · exact ⟨Or.inr ⟨q, hq, hin'⟩, Or.inl hnone⟩
  rcases hl with ⟨q, hq, rfl⟩ | ⟨rfl, hl⟩
  · have hidle : pc = .idle := by cases pc <;> first | rfl | cases hs
    exact hcall q hq (Or.inr ⟨hidle, rfl⟩)
  · cases l with
    | call a => exact absurd rfl (hl a)
    | crash =>
      have hcrash : pc.step cap m .crash = some (.none, .gone, .crashed) := by cases pc <;> rfl
      rw [hcrash] at hs
      cases hs
      exact ⟨Or.inl trivial, Or.inl rfl⟩
    | claim =>
      cases pc <;> cases hs
      exact ⟨Or.inl trivial, Or.inl rfl⟩
    | run =>
      rcases h with hb | ⟨q, hq, hin⟩
      · -- Outside of `publish` there are only the steps of `claim`.
        cases pc <;> first | exact hb.elim | cases hs
        · exact ⟨Or.inl trivial, Or.inl rfl⟩
        · exact ⟨Or.inl trivial, Or.inl rfl⟩
      · exact hcall q hq (Or.inl ⟨hin, rfl⟩)

/-- What holds along every run, whatever the ring does. -/
structure Inv (s : State) (tr : List Event) : Prop where
  /-- The publisher is in the call last made. -/
  calling : CallingOk s.ring.producer s.calling
  /-- The records committed are those of the calls accepted. -/
  accepted : List.Forall₂ (fun p r => r.toMessage = p.args.message) (accepted tr)
    (Spsc.committed (ringEvents tr))
  /-- The subscriber's `try_pop` gets `buf`. -/
  popping : s.ring.consumer = .idle ∨ s.ring.consumer.call? = some ⟨s.buf, false⟩ ∧
    ∃ gotAny draining, s.poll = .popping gotAny draining
  /-- Each call has got what the one before has left. -/
  linked : Linked [] (Spsc.returned (ringEvents tr)) s.buf

namespace Inv

variable {cap : ℕ} {s s' : State} {tr : List Event} {e : Event}

/-- A step of the publisher. -/
theorem publisher (h : Inv s tr) {l : Spsc.PushLabel} {p : Option Publish} {eff : Effect}
    {pc : Spsc.PushPc} {e : Spsc.PushEvent}
    (hl : (∃ q, p = some q ∧ l = .call q.args) ∨ p = s.calling ∧ ∀ a, l ≠ .call a)
    (hs : s.ring.producer.step cap s.ring.mem l = some (eff, pc, e)) :
    Inv { s with
      ring := { s.ring with mem := eff.apply s.ring.mem, producer := pc }, calling := p }
      (tr ++ [.publisher p e]) := by
  obtain ⟨hcalling, hcommits⟩ := h.calling.step hl hs
  have hcommitted : Spsc.committed (ringEvents tr ++ [.producer e]) =
      Spsc.committed (ringEvents tr) ++ e.committed? := by
    simp [Spsc.Event.push?]
  have hreturned : Spsc.returned (ringEvents tr ++ [.producer e]) =
      Spsc.returned (ringEvents tr) := by
    simp [Spsc.Event.pop?, returnedOf]
  refine ⟨hcalling, ?_, h.popping, ?_⟩
  · rw [accepted_append, ringEvents_append, Event.ring?, hcommitted]
    refine List.rel_append h.accepted ?_
    rcases hcommits with hnone | ⟨q, n, rfl, hone⟩
    · cases p <;> simp [Event.accepted?, hnone]
    · simp [Event.accepted?, hone, Spsc.record]
  · rw [ringEvents_append, Event.ring?, hreturned]
    exact h.linked

/-- A step of the subscriber's `try_pop`. -/
theorem subscriber (h : Inv s tr) {gotAny draining : Bool} {eff : Effect} {pc : PopPc}
    {e : PopEvent} (hpoll : s.poll = .popping gotAny draining)
    (hs : s.ring.consumer.step .reserveFirst cap s.ring.mem s.popLabel = some (eff, pc, e)) :
    Inv { s.received gotAny draining e with
      ring := { s.ring with mem := eff.apply s.ring.mem, consumer := pc } }
      (tr ++ [.subscriber e]) := by
  have hcommitted : Spsc.committed (ringEvents tr ++ [.consumer e]) =
      Spsc.committed (ringEvents tr) := by
    simp [Spsc.Event.push?]
  have hreturned : Spsc.returned (ringEvents tr ++ [.consumer e]) =
      Spsc.returned (ringEvents tr) ++ e.returned? := by
    simp [Spsc.Event.pop?, returnedOf]
  have haccepted : List.Forall₂ (fun p r => r.toMessage = p.args.message)
      (Topic.accepted (tr ++ [.subscriber e]))
      (Spsc.committed (ringEvents (tr ++ [.subscriber e]))) := by
    rw [accepted_append, ringEvents_append, Event.ring?, hcommitted]
    exact (List.append_nil _).symm ▸ h.accepted
  have hlinked : ∀ buf, Linked [] (Spsc.returned (ringEvents tr) ++ e.returned?) buf →
      Linked [] (Spsc.returned (ringEvents (tr ++ [.subscriber e]))) buf := by
    intro buf hbuf
    rw [ringEvents_append, Event.ring?, hreturned]
    exact hbuf
  have hsame : Linked [] (Spsc.returned (ringEvents tr) ++ []) s.buf := by
    rw [List.append_nil]
    exact h.linked
  rcases h.popping with hidle | ⟨hcall, -⟩
  · -- A call begins, with `buf`.
    have hlabel : s.popLabel = .call ⟨s.buf, false⟩ := by rw [State.popLabel, hidle]
    rw [hidle, hlabel] at hs
    cases hs
    exact ⟨h.calling, haccepted, Or.inr ⟨rfl, gotAny, draining, hpoll⟩, hlinked _ hsame⟩
  · have hlabel : s.popLabel = .run := by
      unfold State.popLabel
      split
      · rename_i hidle
        rw [hidle] at hcall
        cases hcall
      · rfl
    rw [hlabel] at hs
    rcases PopPc.end_step hcall hs with ⟨rfl, rfl | ⟨res, b, rfl⟩⟩ | ⟨hcall', hne, hnone⟩
    · exact ⟨h.calling, haccepted, Or.inl rfl, hlinked _ hsame⟩
    · exact ⟨h.calling, haccepted, Or.inl rfl, hlinked _ (h.linked.append rfl)⟩
    · -- Inside the call the loop has nothing to do.
      have hstay : s.received gotAny draining e = s := by
        cases e <;> first | rfl | exact absurd rfl hne | cases hnone
      rw [hnone] at hlinked
      rw [hstay]
      exact ⟨h.calling, haccepted, Or.inr ⟨hcall', gotAny, draining, hpoll⟩, hlinked _ hsame⟩

/-- A step that leaves the ring alone. It is taken only between two calls of `try_pop`, or it does
not move the loop. -/
theorem of_quiet (h : Inv s tr) (hring : s'.ring = s.ring) (hcalling : s'.calling = s.calling)
    (hbuf : s'.buf = s.buf) (he : e.ring? = [] ∧ e.accepted? = [])
    (hpoll : s'.poll = s.poll ∨ ∀ gotAny draining, s.poll ≠ .popping gotAny draining) :
    Inv s' (tr ++ [e]) := by
  have hevents : ringEvents (tr ++ [e]) = ringEvents tr := by simp [he.1]
  have haccepted : Topic.accepted (tr ++ [e]) = Topic.accepted tr := by simp [he.2]
  refine ⟨by rw [hring, hcalling]; exact h.calling, ?_, ?_, by rw [hevents, hbuf]; exact h.linked⟩
  · rw [hevents, haccepted]
    exact h.accepted
  rw [hring, hbuf]
  rcases h.popping with hidle | ⟨hcall, gotAny, draining, hin⟩
  · exact Or.inl hidle
  · rcases hpoll with hpoll | hne
    · exact Or.inr ⟨hcall, gotAny, draining, hpoll.trans hin⟩
    · exact absurd hin (hne gotAny draining)

/-- Every step keeps it. -/
theorem step (h : Inv s tr) (hs : Step cap s s' e) : Inv s' (tr ++ [e]) := by
  cases hs with
  | publisher l p eff pc e hl hstep => exact h.publisher hl hstep
  | subscriber gotAny draining eff pc e hpoll hstep => exact h.subscriber hpoll hstep
  | loadRunning hpoll =>
    exact h.of_quiet rfl rfl rfl ⟨rfl, rfl⟩ (Or.inr fun _ _ => by rw [hpoll]; rintro ⟨⟩)
  | wake hpoll =>
    exact h.of_quiet rfl rfl rfl ⟨rfl, rfl⟩ (Or.inr fun _ _ => by rw [hpoll]; rintro ⟨⟩)
  | stop => exact h.of_quiet rfl rfl rfl ⟨rfl, rfl⟩ (Or.inl rfl)

end Inv

/-- It holds in every run. -/
theorem inv_of_reaches {mapping : Mapping} {s : State} {tr : List Event}
    (h : (machine mapping).Reaches s tr) : Inv s tr := by
  refine h.invariant Inv ?_ ?_
  · exact ⟨Or.inl trivial, .nil, Or.inl rfl, rfl⟩
  · intro s tr l s' e _ hinv hs
    exact hinv.step (step_cases hs)

/-! ## What is delivered -/

section Delivery

variable {capacityBytes : ℕ} {mapping : Mapping} {s : State} {tr : List Event}

/-- There are as many messages published as records committed. -/
theorem length_published (h : (machine mapping).Reaches s tr) :
    (published tr).length = (Spsc.committed (ringEvents tr)).length := by
  rw [published, List.length_map]
  exact (inv_of_reaches h).accepted.length_eq

/-- What is delivered are the spans of the first messages published. -/
theorem delivered_eq_spans (hcreate : createMapping capacityBytes kFlagSPSC = .ok mapping)
    (hrun : (machine mapping).Reaches s tr) (hbytes : placedBytes tr < 2^64) :
    (delivered tr).length ≤ (accepted tr).length ∧
      delivered tr = spans [] ((accepted tr).take (delivered tr).length) := by
  have hinv := inv_of_reaches hrun
  obtain ⟨passed, ahead, seen, hring⟩ :=
    Spsc.inv_of_run (createMapping_shared hcreate) (ring_reaches hrun) hbytes
  have hof := hring.reader.consumed
  rw [← hring.returned_eq] at hof
  have hcommitted : Spsc.committed (ringEvents tr) = records passed ++ records ahead := by
    rw [← Spsc.records_publishedChunks, ← hring.split, records_append]
  have hlen : (delivered tr).length = (records passed).length := by
    rw [delivered_eq, List.length_map]
    exact hof.length_eq
  have hacc := hinv.accepted
  rw [hcommitted] at hacc
  have htotal := hacc.length_eq
  rw [List.length_append] at htotal
  refine ⟨by omega, ?_⟩
  have hfirst := List.forall₂_take (records passed).length hacc
  rw [List.take_left] at hfirst
  rw [hlen, delivered_eq]
  exact hinv.linked.spans_eq hof hfirst

/-- When the loop is past its final drain, all has been delivered that was published at its last
load of `tail_publish`. -/
theorem atLast_of_finished (hcreate : createMapping capacityBytes kFlagSPSC = .ok mapping)
    (hrun : (machine mapping).Reaches s tr) (hbytes : placedBytes tr < 2^64)
    (hfinished : s.poll = .finished) :
    AtLast Event.LoadsTail (fun pre => (delivered tr).length = (published pre).length) tr := by
  induction hrun with
  | init => cases hfinished
  | @step s tr s' e l hrun _ hs ih =>
    have hbound : placedBytes tr < 2^64 := by
      unfold placedBytes at hbytes ⊢
      rw [ringEvents_append, Spsc.placedBytes, Spsc.pushes, List.flatMap_append, List.map_append,
        List.sum_append] at hbytes
      exact lt_of_le_of_lt (Nat.le_add_right _ _) hbytes
    -- Past the final drain the subscriber's thread has no step.
    have hlater : s.poll = .finished → e.delivered? = [] → ¬ e.LoadsTail →
        AtLast Event.LoadsTail (fun pre => (delivered (tr ++ [e])).length = (published pre).length)
          (tr ++ [e]) := by
      intro hpoll hnone hload
      rw [delivered_append, hnone, List.append_nil]
      exact (ih hbound hpoll).later hload
    cases step_cases hs with
    | publisher l p eff pc e hl hstep =>
      exact hlater hfinished rfl
        (by rintro ⟨x, hx, hload⟩; cases List.mem_singleton.mp hx; exact hload)
    | stop => exact hlater hfinished rfl (by rintro ⟨x, hx, -⟩; cases hx)
    | loadRunning hpoll => cases hfinished
    | wake hpoll => cases hfinished
    | subscriber gotAny draining eff pc e hpoll hstep =>
      obtain rfl : e = .refused := by
        cases e with
        | refused => rfl
        | returned c res b => cases hfinished
        | _ => cases hpoll.symm.trans hfinished
      obtain ⟨passed, ahead, seen, hring⟩ :=
        Spsc.inv_of_run (createMapping_shared hcreate) (ring_reaches hrun) hbound
      obtain ⟨pre, x, mid, heq, hx, hmid, -, hlen⟩ := (hring.refused hstep).of_flatMap (by
        intro e
        cases e with
        | publisher p e => exact Or.inr ⟨_, rfl⟩
        | subscriber e => exact Or.inr ⟨_, rfl⟩
        | polled => exact Or.inl rfl
        | stopped => exact Or.inl rfl)
      have hnow : AtLast Event.LoadsTail
          (fun pre => (delivered tr).length = (published pre).length) tr := by
        refine ⟨pre, x, mid, heq, hx, hmid, ?_⟩
        rw [heq] at hrun
        obtain ⟨s₀, hpre⟩ := hrun.front
        rw [length_published hpre, delivered_eq, List.length_map, hring.returned_eq]
        exact hlen
      have hnone : delivered (tr ++ [.subscriber .refused]) = delivered tr := by
        rw [delivered_append]
        exact List.append_nil _
      rw [hnone]
      exact hnow.later (by rintro ⟨x, hx, hload⟩; cases List.mem_singleton.mp hx; exact hload)

end Delivery

/-! ## The subscriber gets there -/

/-- The tail that `try_pop` compares with. -/
def tail? : PopPc → Option ℕ
  | .loadHead _ tail => some tail
  | .loadFlags _ tail _ => some tail
  | .loadSize _ tail _ => some tail
  | _ => none

/-- One if `try_pop` compares with a tail that is not the last one. -/
def stale (m : Shared) (pc : PopPc) : ℕ :=
  match tail? pc with
  | none => 0
  | some tail => if tail = m.control.tailPublish then 0 else 1

/-- A call that does not compare is up to date. -/
theorem stale_of_none (m : Shared) {pc : PopPc} (h : tail? pc = none) : stale m pc = 0 := by
  rw [stale, h]

/-- A tail that is loaded is not an old one. -/
theorem stale_step {cap : ℕ} {m : Shared} {pc pc' : PopPc} {l : PopLabel} {eff : Effect}
    {e : PopEvent} (hs : pc.step .reserveFirst cap m l = some (eff, pc', e))
    (htail : (eff.apply m).control.tailPublish = m.control.tailPublish) :
    stale (eff.apply m) pc' ≤ stale m pc := by
  -- Most steps go on to a place where nothing is compared.
  have hnone : tail? pc' = none → stale (eff.apply m) pc' ≤ stale m pc := by
    intro h
    rw [stale_of_none _ h]
    exact Nat.zero_le _
  have hcopying : ∀ c head size i out, tail? (.copying c head size i out) = none := by
    intro c head size i out
    unfold PopPc.copying
    split <;> rfl
  cases PopPc.step_cases hs with
  | publish head k last => cases k <;> cases last <;> exact hnone rfl
  | reserve head k last => cases k <;> cases last <;> exact hnone rfl
  | size c tail head => exact hnone (hcopying _ _ _ _ _)
  | copy c head size i out => exact hnone (hcopying _ _ _ _ _)
  | loadTail c => exact (if_pos rfl).le
  | header c tail h h' => exact le_rfl
  | record c tail head h => exact le_rfl
  | _ => exact hnone rfl

/-- A call that compares with the last tail returns false only if nothing is ahead. -/
theorem eq_nil_of_refused {cap : ℕ} {m : Shared} {pc pc' : PopPc} {passed ahead seen : List Chunk}
    {consumed : List (PopCall × Popped)} (h : ReaderInv cap m pc passed ahead seen consumed)
    (hlt : m.control.tailPublish < 2^64) {l : PopLabel} {eff : Effect}
    (hs : pc.step .reserveFirst cap m l = some (eff, pc', .refused)) (hfresh : stale m pc = 0) :
    ahead = [] := by
  obtain ⟨-, -, -, -, -, hseen⟩ := h.step hlt hs
  -- What was seen is passed, so the tail loaded is where the head is.
  have hpart : ∀ tail, PopPc.TailOk cap m passed ahead seen tail →
      tail = m.control.headPublish := by
    rintro tail ⟨pre, post, -, heq, hstream⟩
    obtain rfl : pre = [] := by
      rw [hseen rfl] at heq
      exact (List.append_cancel_left ((List.append_nil _).trans heq)).symm
    exact hstream.symm
  have hhead : m.control.tailPublish = m.control.headPublish := by
    have hok := h.ok
    have hlast : ∀ tail, tail? pc = some tail → tail = m.control.tailPublish := by
      intro tail ht
      by_contra hne
      rw [stale, ht] at hfresh
      exact absurd ((if_neg hne).symm.trans hfresh) one_ne_zero
    cases pc with
    | loadHead c tail => exact (hlast tail rfl).symm.trans (hpart tail hok)
    | loadFlags c tail head => exact (hlast tail rfl).symm.trans (hpart tail hok.1)
    | loadSize c tail head => exact (hlast tail rfl).symm.trans (hpart tail hok.1)
    | _ => cases (PopPc.comparing_step hs).2.1 rfl
  have hstream := h.stream
  rw [hhead] at hstream
  exact hstream.eq_nil

/-- How far the loop is from being inside a call. -/
def State.stage (s : State) : ℕ :=
  match s.poll, s.ring.consumer with
  | .popping _ _, .idle => 1
  | .loadRunning, _ => 2
  | .waiting, _ => 3
  | _, _ => 0

/-- What gets smaller with every step of the loop until all is delivered: a call may be refused over
an old tail, but only once; then the distance from the head to the tail, weighted so that it counts
more than the way to the next call; then the rest of the call. -/
def pollMeasure (s : State) : ℕ ×ₗ ℕ ×ₗ ℕ ×ₗ ℕ :=
  toLex (stale s.ring.mem s.ring.consumer, toLex
    (4 * s.ring.mem.distance + s.stage, s.ring.consumer.measure s.ring.mem.distance))

/-- The ways in which it gets smaller. -/
theorem pollMeasure_lt {s s' : State}
    (h : stale s'.ring.mem s'.ring.consumer < stale s.ring.mem s.ring.consumer ∨
      stale s'.ring.mem s'.ring.consumer ≤ stale s.ring.mem s.ring.consumer ∧
        (4 * s'.ring.mem.distance + s'.stage < 4 * s.ring.mem.distance + s.stage ∨
          4 * s'.ring.mem.distance + s'.stage ≤ 4 * s.ring.mem.distance + s.stage ∧
            s'.ring.consumer.measure s'.ring.mem.distance <
              s.ring.consumer.measure s.ring.mem.distance)) :
    pollMeasure s' < pollMeasure s := by
  unfold pollMeasure
  rw [Prod.Lex.toLex_lt_toLex, Prod.Lex.toLex_lt_toLex]
  dsimp only
  rcases h with hlt | ⟨hle, hlt | ⟨hle', hlt⟩⟩
  · exact Or.inl hlt
  · rcases hle.lt_or_eq with h1 | h1
    · exact Or.inl h1
    · exact Or.inr ⟨h1, Or.inl hlt⟩
  · rcases hle.lt_or_eq with h1 | h1
    · exact Or.inl h1
    · rcases hle'.lt_or_eq with h2 | h2
      · exact Or.inr ⟨h1, Or.inl h2⟩
      · exact Or.inr ⟨h1, Or.inr ⟨h2, hlt⟩⟩

/-- A call that returns true has moved the head. -/
theorem headPublish_lt_of_returned {cap : ℕ} {m : Shared} {pc pc' : PopPc}
    {passed ahead seen : List Chunk} {consumed : List (PopCall × Popped)}
    (h : ReaderInv cap m pc passed ahead seen consumed) (hlast : Spsc.publishesLast pc = true)
    {l : PopLabel} {eff : Effect} {c : PopCall} {res : Popped} {b : Bool}
    (hs : pc.step .reserveFirst cap m l = some (eff, pc', .returned c res b)) :
    m.control.headPublish < (eff.apply m).control.headPublish ∧
      (eff.apply m).control.headPublish ≤ m.control.tailPublish := by
  have hok := h.ok
  generalize he : PopEvent.returned c res b = e at hs
  cases PopPc.step_cases hs with
  | publish head k last => exact PopThen.For.lt hok h.stream
  | reserve head k last =>
    cases last with
    | false => cases he
    | true => cases hlast
  | _ => cases he

section Progress

variable {capacityBytes : ℕ} {mapping : Mapping} {s : State} {tr : List Event}

/-- A step of a call of `try_pop` by a subscriber that has not delivered everything. -/
theorem popping_progress (hcreate : createMapping capacityBytes kFlagSPSC = .ok mapping)
    (hrun : (machine mapping).Reaches s tr) (hbytes : placedBytes tr < 2^64)
    (hopen : (delivered tr).length ≠ (published tr).length) {gotAny draining : Bool} {eff : Effect}
    {pc : PopPc} {e : PopEvent} (hpoll : s.poll = .popping gotAny draining)
    (hbusy : s.ring.consumer ≠ .idle)
    (hs : s.ring.consumer.step .reserveFirst mapping.capacity s.ring.mem .run = some (eff, pc, e)) :
    pollMeasure { s.received gotAny draining e with
      ring := { s.ring with mem := eff.apply s.ring.mem, consumer := pc } } < pollMeasure s := by
  obtain ⟨passed, ahead, seen, hring⟩ :=
    Spsc.inv_of_run (createMapping_shared hcreate) (ring_reaches hrun) hbytes
  have hlt : s.ring.mem.control.tailPublish < 2^64 := by
    have hle := hring.push.bytes_le
    have hbound := hring.push.bytes_lt
    omega
  obtain ⟨-, -, -, -, hview, -⟩ := hring.reader.step hlt hs
  have hstale := stale_step hs hview.tailPublish_eq
  have hhead := hview.le_headPublish
  have htail := hview.tailPublish_eq
  have hstage : s.stage = 0 := by
    unfold State.stage
    rw [hpoll]
    split <;> first | rfl | contradiction
  obtain ⟨c, hcall⟩ : ∃ c, s.ring.consumer.call? = some c := by
    rcases (inv_of_reaches hrun).popping with hidle | ⟨hcall, -⟩
    · exact absurd hidle hbusy
    · exact ⟨_, hcall⟩
  rcases PopPc.end_step hcall hs with ⟨rfl, rfl | ⟨res, b, rfl⟩⟩ | ⟨hcall', hne, hnone⟩
  · -- Refused: the tail was an old one, or everything would have been delivered.
    refine pollMeasure_lt (Or.inl ?_)
    change stale (eff.apply s.ring.mem) .idle < _
    rw [stale_of_none _ rfl]
    by_contra hfresh
    have hnil := eq_nil_of_refused hring.reader hlt hs (by omega)
    apply hopen
    rw [length_published hrun, delivered_eq, List.length_map, hring.returned_eq,
      ← Spsc.records_publishedChunks, ← hring.split, hnil, List.append_nil]
    exact hring.reader.consumed.length_eq
  · -- Returned: the head has moved.
    obtain ⟨h1, h2⟩ := headPublish_lt_of_returned hring.reader hring.last hs
    refine pollMeasure_lt (Or.inr ⟨hstale, Or.inl ?_⟩)
    change 4 * (eff.apply s.ring.mem).distance + 1 < _
    unfold Shared.distance
    omega
  · -- The call goes on, and so does the loop around it.
    have hstay : s.received gotAny draining e = s := by
      cases e <;> first | rfl | exact absurd rfl hne | cases hnone
    rw [hstay]
    have hstage' : State.stage { s with
        ring := { s.ring with mem := eff.apply s.ring.mem, consumer := pc } } = 0 := by
      unfold State.stage
      dsimp only
      rw [hpoll]
      split <;> first | rfl | contradiction
    refine pollMeasure_lt (Or.inr ⟨hstale, Or.inr ⟨?_, hring.reader.measure_lt hs⟩⟩)
    rw [hstage', hstage]
    unfold Shared.distance
    dsimp only
    omega

/-- As long as the loop is not finished and not everything is delivered, it has a step that brings
it nearer to that. -/
theorem poll_progress (hcreate : createMapping capacityBytes kFlagSPSC = .ok mapping)
    (hrun : (machine mapping).Reaches s tr) (hbytes : placedBytes tr < 2^64)
    (hpoll : s.poll ≠ .finished) (hopen : (delivered tr).length ≠ (published tr).length) :
    ∃ s' e, (machine mapping).step s .poll = some (s', e) ∧ pollMeasure s' < pollMeasure s ∧
      accepted (tr ++ [e]) = accepted tr ∧ placedBytes (tr ++ [e]) = placedBytes tr := by
  have hpolled : accepted (tr ++ [.polled]) = accepted tr ∧
      placedBytes (tr ++ [.polled]) = placedBytes tr := by
    simp [placedBytes, Event.accepted?, Event.ring?]
  have hsub : ∀ e, accepted (tr ++ [.subscriber e]) = accepted tr ∧
      placedBytes (tr ++ [.subscriber e]) = placedBytes tr := by
    intro e
    simp [placedBytes, Event.accepted?, Event.ring?, Spsc.Event.push?]
  -- Outside of the loops around `try_pop` there is no call, and the next stage is nearer.
  have hidle : (∀ gotAny draining, s.poll ≠ .popping gotAny draining) →
      s.ring.consumer = .idle := by
    intro hout
    rcases (inv_of_reaches hrun).popping with hidle | ⟨-, gotAny, draining, hin⟩
    · exact hidle
    · exact absurd hin (hout gotAny draining)
  cases hp : s.poll with
  | finished => exact absurd hp hpoll
  | loadRunning =>
    have hc := hidle fun _ _ => by rw [hp]; rintro ⟨⟩
    refine ⟨{ s with poll := .popping false (!s.running) }, .polled,
      by simp only [machine, step, pollStep, hp], ?_, hpolled⟩
    refine pollMeasure_lt (Or.inr ⟨le_rfl, Or.inl ?_⟩)
    simp [State.stage, hp, hc]
  | waiting =>
    refine ⟨{ s with poll := .loadRunning }, .polled,
      by simp only [machine, step, pollStep, hp], ?_, hpolled⟩
    refine pollMeasure_lt (Or.inr ⟨le_rfl, Or.inl ?_⟩)
    simp [State.stage, hp]
  | popping gotAny draining =>
    by_cases hc : s.ring.consumer = .idle
    · -- The next call begins.
      have hlabel : s.popLabel = .call ⟨s.buf, false⟩ := by rw [State.popLabel, hc]
      refine ⟨{ s with ring := { s.ring with consumer := .loadTail ⟨s.buf, false⟩ } },
        .subscriber .internal, ?_, ?_, hsub _⟩
      · simp only [machine, step, pollStep, hp, hlabel, hc, PopPc.step, State.received,
          Effect.apply]
      · refine pollMeasure_lt (Or.inr ⟨Nat.zero_le _, Or.inl ?_⟩)
        simp [State.stage, hp, hc]
    · have hlabel : s.popLabel = .run := by
        unfold State.popLabel
        split
        · contradiction
        · rfl
      obtain ⟨eff, pc, e, hs⟩ := PopPc.enabled .reserveFirst mapping.capacity s.ring.mem hc
      refine ⟨_, .subscriber e, ?_, popping_progress hcreate hrun hbytes hopen hp hc hs, hsub e⟩
      simp only [machine, step, pollStep, hp, hlabel, hs]

/-- The subscriber, left alone, delivers all that is published, unless its loop comes to its end. -/
theorem exists_delivery (hcreate : createMapping capacityBytes kFlagSPSC = .ok mapping)
    (hrun : (machine mapping).Reaches s tr) (hbytes : placedBytes tr < 2^64) :
    ∃ es s', (machine mapping).Path (· = .poll) s es s' ∧
      (s'.poll = .finished ∨ (delivered (tr ++ es)).length = (published tr).length) := by
  by_contra hnever
  push Not at hnever
  -- The loop would go on for ever, with the measure getting smaller.
  obtain ⟨-, -, -, hfalse, -⟩ : ∃ es s', (machine mapping).Path (· = .poll) s es s' ∧ False ∧
      (machine mapping).Path (· = .poll) s es s' ∧ accepted (tr ++ es) = accepted tr ∧
        placedBytes (tr ++ es) = placedBytes tr := by
    refine Machine.exists_path pollMeasure
      (fun s' es => (machine mapping).Path (· = .poll) s es s' ∧
      accepted (tr ++ es) = accepted tr ∧ placedBytes (tr ++ es) = placedBytes tr) _ ?_
      ⟨.refl, by rw [List.append_nil], by rw [List.append_nil]⟩
    rintro s' es ⟨hpath, hacc, hplaced⟩ -
    obtain ⟨hpoll, hopen⟩ := hnever es s' hpath
    have hpub : published (tr ++ es) = published tr := by rw [published, hacc, published]
    rw [← hpub] at hopen
    obtain ⟨s'', e, hs, hlt, hacc', hplaced'⟩ :=
      poll_progress hcreate (hrun.path hpath) (hplaced ▸ hbytes) hpoll hopen
    rw [List.append_assoc] at hacc' hplaced'
    exact ⟨.poll, s'', e, rfl, hs, ⟨.step .poll hpath rfl hs, hacc'.trans hacc,
      hplaced'.trans hplaced⟩, hlt⟩
  exact hfalse

end Progress

/-- `SpscByteSubscriber` delivers the published stream if, and only if, no length is cut or goes
down. On every topic, in every interleaving of single accesses and bytes of one publisher, which may
die at any step and be replaced, with the subscriber's loop, with fewer than `2^64` bytes placed in
the ring:

* no more messages are delivered than were published, and those delivered are the first ones
  published, with their own contents, lengths and types, exactly if the lengths of these are less
  than `2^32` and none is less than one before it;
* when the loop is past its final drain, as many have been delivered as were published at its last
  load of `tail_publish`;
* the subscriber, left alone, delivers as many as were published, or its loop comes to its end. -/
theorem delivers_iff {capacityBytes : ℕ} {mapping : Mapping}
    (hcreate : createMapping capacityBytes kFlagSPSC = .ok mapping) {s : State} {tr : List Event}
    (hrun : (machine mapping).Reaches s tr) (hbytes : placedBytes tr < 2^64) :
    (delivered tr).length ≤ (published tr).length ∧
      (delivered tr <+: published tr ↔
        Grows (((published tr).take (delivered tr).length).map fun m => m.payload.length)) ∧
      (s.poll = .finished →
        AtLast Event.LoadsTail (fun pre => (delivered tr).length = (published pre).length) tr) ∧
      ∃ es s', (machine mapping).Path (· = .poll) s es s' ∧
        (s'.poll = .finished ∨ (delivered (tr ++ es)).length = (published tr).length) := by
  obtain ⟨hle, hspans⟩ := delivered_eq_spans hcreate hrun hbytes
  refine ⟨by rwa [published, List.length_map], ?_, atLast_of_finished hcreate hrun hbytes,
    exists_delivery hcreate hrun hbytes⟩
  have htake : (published tr).take (delivered tr).length =
      ((accepted tr).take (delivered tr).length).map Publish.message := by
    rw [published, List.map_take]
  have hempty : ([] : List UInt8).length < 2^32 := by norm_num
  have hiff := spans_eq_iff ((accepted tr).take (delivered tr).length) hempty
  rw [← hspans, ← htake] at hiff
  rw [List.prefix_iff_eq_take, hiff, htake, List.map_map]
  simp [Function.comp_def]

/-- Two messages are published, and once `stop` has been called the subscriber's loop comes to its
end. -/
def twoMessages (first second : List UInt8) : List Label :=
  .publish (.span first 4) :: List.replicate (29 + first.length) .publisher ++
    (.publish (.span second 5) :: List.replicate (29 + second.length) .publisher) ++
    .stop :: List.replicate (20 + first.length + second.length) .poll

/-- A message that is followed by a longer one. -/
theorem delivers_iff_growing : ∃ mapping s tr, createMapping 64 kFlagSPSC = .ok mapping ∧
    (machine mapping).Reaches s tr ∧ placedBytes tr < 2^64 ∧
    published tr = [⟨[9], 4⟩, ⟨[1, 2, 3], 5⟩] ∧ (delivered tr).length = 2 ∧
    delivered tr <+: published tr := by
  obtain ⟨mapping, hmap⟩ : ∃ mapping, createMapping 64 kFlagSPSC = .ok mapping := ⟨_, rfl⟩
  obtain ⟨s, tr, hrun, htest⟩ := (machine mapping).exists_reaches (twoMessages [9] [1, 2, 3])
    (fun _ tr => decide (placedBytes tr < 2^64 ∧ published tr = [⟨[9], 4⟩, ⟨[1, 2, 3], 5⟩] ∧
      (delivered tr).length = 2))
    (by cases hmap; decide +kernel)
  obtain ⟨hbytes, hpub, hlen⟩ := of_decide_eq_true htest
  refine ⟨mapping, s, tr, hmap, hrun, hbytes, hpub, hlen, ?_⟩
  refine (delivers_iff hmap hrun hbytes).2.1.mpr ?_
  rw [hpub, hlen]
  exact ⟨by decide, by decide⟩

/-- Three bytes and then one byte are published. With the one byte the callback gets the last two of
the three. -/
theorem trailing_bytes : ∃ mapping s tr, createMapping 64 kFlagSPSC = .ok mapping ∧
    (machine mapping).Reaches s tr ∧ placedBytes tr < 2^64 ∧ s.poll = .finished ∧
    published tr = [⟨[1, 2, 3], 4⟩, ⟨[9], 5⟩] ∧
      delivered tr = [⟨[1, 2, 3], 4⟩, ⟨[9, 2, 3], 5⟩] := by
  obtain ⟨mapping, hmap⟩ : ∃ mapping, createMapping 64 kFlagSPSC = .ok mapping := ⟨_, rfl⟩
  obtain ⟨s, tr, hrun, htest⟩ := (machine mapping).exists_reaches (twoMessages [1, 2, 3] [9])
    (fun s tr => decide (placedBytes tr < 2^64 ∧ s.poll = .finished ∧
      published tr = [⟨[1, 2, 3], 4⟩, ⟨[9], 5⟩] ∧ delivered tr = [⟨[1, 2, 3], 4⟩, ⟨[9, 2, 3], 5⟩]))
    (by cases hmap; decide +kernel)
  obtain ⟨hbytes, hpoll, hpub, hdel⟩ := of_decide_eq_true htest
  exact ⟨mapping, s, tr, hmap, hrun, hbytes, hpoll, hpub, hdel⟩

end LfRing.Topic

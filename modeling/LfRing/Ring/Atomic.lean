import LfRing.Library.Atomic
import LfRing.Ring.Mpsc
import LfRing.Ring.Spsc

/-!
# The rings are atomic queues of messages

What the rings are for: a queue of messages, into which `try_push` puts the message of its arguments
unless it returns false, and from which `try_pop` takes the oldest one. `messageRules` says that of
one call at a time. `Mpsc.atomic_many_producers` and `Spsc.atomic_one_producer` show that the calls
of all parties, interleaved at single accesses to the shared memory, look as if each was made at one
moment between its call and its return.

A push takes effect at its store of `tail_publish`, with which it returns. A pop takes effect at its
store of `head_publish`. In `SharedRingBuffer` that is not yet its end, as the store of
`head_reserve` follows. A pop that returns false has no store. It takes effect when it loads a
`tail_publish` that is equal to `head_publish`, which only the consumer itself moves, and so nothing
is in the queue at that load, whatever is pushed behind it.

The consumer's side is the same in both rings (`ReaderInv.moves`), up to the order of its last two
stores.
-/

namespace LfRing

/-! ## The queue that the rings implement -/

/-- The parties of a ring. -/
inductive Process
  /-- A producer. -/
  | producer (i : ℕ)
  /-- A consumer. -/
  | consumer (i : ℕ)
deriving DecidableEq, Repr

/-- A queue of records. A push adds one with its message, and may be refused, as the space that it
needs depends on where the record would lie. A pop returns the record as the arguments ask, and
nothing only if `mayMiss`. -/
def messageRules (mayMiss : List Record → Prop) : FifoRules PushArgs Record PopCall Popped where
  queues := fun a r => r.toMessage = a.message
  mayAccept := fun _ _ => True
  mayRefuse := fun _ _ => True
  returns := fun c r res => res.Of c r
  mayMiss := mayMiss

/-- The calls of `try_push` and `try_pop`. -/
abbrev RingOp := FifoOp PushArgs PopCall

/-- What they return. -/
abbrev RingResult := FifoResult Popped

/-- Arguments are the same if their data are. -/
instance : DecidableEq PushArgs := fun a b =>
  decidable_of_iff (a.data = b.data ∧ a.size = b.size ∧ a.type = b.type) <| by
    constructor
    · rintro ⟨hdata, hsize, htype⟩
      cases a
      cases b
      congr
    · rintro rfl
      exact ⟨rfl, rfl, rfl⟩

/-- What a producer sees of its step. A call that is refused at once returns with the same step. -/
def pushActions (i : ℕ) : PushLabel → PushEvent → List (Action Process RingOp RingResult)
  | .call a, .refused => [.invoke (.producer i) (.push a), .respond (.producer i) (.pushed false)]
  | .call a, _ => [.invoke (.producer i) (.push a)]
  | _, .refused => [.respond (.producer i) (.pushed false)]
  | _, .published _ _ => [.respond (.producer i) (.pushed true)]
  | _, _ => []

/-- What the consumer sees of its step. -/
def popActions : PopLabel → PopEvent → List (Action Process RingOp RingResult)
  | .call c, _ => [.invoke (.consumer 0) (.pop c)]
  | .run, .refused => [.respond (.consumer 0) (.popped none)]
  | .run, .returned _ res _ => [.respond (.consumer 0) (.popped (some res))]
  | .run, _ => []

/-! ## The producers' side -/

namespace PushPc

/-- The call that a producer is in. It has no effect before it returns. -/
def pending : PushPc → Pending RingOp RingResult
  | idle => .none
  | loadHead a => .invoked (.push a)
  | loadTail a _ => .invoked (.push a)
  | cas r => .invoked (.push r.args)
  | store r _ _ => .invoked (.push r.args)
  | awaitTurn r => .invoked (.push r.args)
  | fetchSequence r => .invoked (.push r.args)
  | storeSequence r _ => .invoked (.push r.args)
  | publish r _ => .invoked (.push r.args)

/-- A `try_push` that makes its stores has not taken effect. -/
@[simp] theorem pending_storing (r : Reservation) (todo : List Store) :
    (storing r todo).pending = .invoked (.push r.args) := by
  cases todo <;> rfl

/-- The arguments from which a reservation is made are its own. -/
theorem args_of_reserve {cap head tail : ℕ} {a : PushArgs} {r : Reservation}
    (h : LfRing.reserve cap a head tail = some r) : r.args = a := by
  unfold LfRing.reserve at h
  dsimp only at h
  split_ifs at h
  cases h
  unfold place
  dsimp only
  split_ifs <;> rfl

/-- A producer's step, as the queue sees it: what it publishes comes in at the end. -/
theorem moves {cap i : ℕ} {m : Shared} {pc pc' : PushPc} {l : PushLabel} {eff : Effect}
    {e : PushEvent} {mayMiss : List Record → Prop} {pending : Process → Pending RingOp RingResult}
    {q : List Record} (hs : pc.step cap m l = some (eff, pc', e))
    (hp : pending (.producer i) = pc.pending) :
    (messageRules mayMiss).object.Moves ⟨pending, q⟩ (pushActions i l e)
      ⟨Function.update pending (.producer i) pc'.pending, q ++ records e.newChunks⟩ := by
  -- A step inside the call changes nothing that the queue's users see.
  have hinside : records e.newChunks = [] → pc'.pending = pc.pending → pushActions i l e = [] →
      (messageRules mayMiss).object.Moves ⟨pending, q⟩ (pushActions i l e)
        ⟨Function.update pending (.producer i) pc'.pending, q ++ records e.newChunks⟩ := by
    intro hnone hsame hact
    rw [hact, hnone, hsame, List.append_nil]
    exact .inside hp
  cases l with
  | call a =>
    cases pc with
    | idle =>
      simp only [PushPc.step, PushPc.enter] at hs
      split_ifs at hs
      · cases hs
        show (messageRules mayMiss).object.Moves ⟨pending, q⟩ [_, _] ⟨_, q ++ []⟩
        rw [List.append_nil, show PushPc.idle.pending = pending (.producer i) from hp.symm,
          Function.update_eq_self]
        exact .invoke_effect_respond hp (FifoEffect.refuse trivial)
      · cases hs
        show (messageRules mayMiss).object.Moves ⟨pending, q⟩ [_] ⟨_, q ++ []⟩
        rw [List.append_nil]
        exact .invoke (Process.producer i) (FifoOp.push a) .refl hp
    | _ => cases hs
  | fail =>
    cases pc with
    | cas r =>
      cases hs
      exact hinside rfl rfl rfl
    | _ => cases hs
  | run =>
    cases PushPc.step_cases hs with
    | reject a => cases hs
    | call a h => cases hs
    | full a head =>
      show (messageRules mayMiss).object.Moves ⟨pending, q⟩ [_] ⟨_, q ++ []⟩
      rw [List.append_nil]
      exact .effect_respond hp (FifoEffect.refuse trivial)
    | room a head r hres =>
      refine hinside rfl ?_ rfl
      show Pending.invoked (FifoOp.push r.args) = _
      rw [args_of_reserve hres]
      rfl
    | reserve r h => exact hinside rfl (pending_storing r _) rfl
    | store r st todo => exact hinside rfl (pending_storing r todo) rfl
    | publish r n =>
      show (messageRules mayMiss).object.Moves ⟨pending, q⟩ [_] ⟨_, q ++ records (r.chunks n)⟩
      rw [records_chunks]
      exact .effect_respond hp (FifoEffect.push trivial rfl)
    | _ => exact hinside rfl rfl rfl

end PushPc

/-! ## The consumer's side -/

namespace PopPc

/-- The call that the consumer is in. A call that has loaded the tail of an empty queue has had its
effect, and so has one that has stored `head_publish` behind a record. -/
def pending (m : Shared) : PopPc → Pending RingOp RingResult
  | idle => .none
  | loadTail c => .invoked (.pop c)
  | loadHead c tail => if m.control.headPublish = tail then .effected (.popped none)
    else .invoked (.pop c)
  | loadFlags c _ _ => .invoked (.pop c)
  | loadSize c _ _ => .invoked (.pop c)
  | copy c _ _ _ _ => .invoked (.pop c)
  | loadType c _ _ _ => .invoked (.pop c)
  | loadSequence c _ _ _ _ => .invoked (.pop c)
  | publish _ (.again c) _ => .invoked (.pop c)
  | publish _ (.done c _) _ => .invoked (.pop c)
  | reserve _ (.again c) _ => .invoked (.pop c)
  | reserve _ (.done c _) false => .invoked (.pop c)
  | reserve _ (.done _ res) true => .effected (.popped (some res))

/-- A `try_pop` that moves the head over a filler has not taken effect. -/
@[simp] theorem pending_advance_again (m : Shared) (order : HeadOrder) (head : ℕ) (c : PopCall) :
    (advance order head (.again c)).pending m = .invoked (.pop c) := by
  cases order <;> rfl

/-- A `try_pop` that has its result takes effect only with the store of `head_publish`. -/
@[simp] theorem pending_advance_done (m : Shared) (order : HeadOrder) (head : ℕ) (c : PopCall)
    (res : Popped) : (advance order head (.done c res)).pending m = .invoked (.pop c) := by
  cases order <;> rfl

/-- A `try_pop` that copies the payload has not taken effect. -/
@[simp] theorem pending_copying (m : Shared) (c : PopCall) (head size i : ℕ) (out : List UInt8) :
    (copying c head size i out).pending m = .invoked (.pop c) := by
  unfold copying
  split <;> rfl

/-- Only the consumer's own counter matters. -/
theorem pending_congr {m m' : Shared} (h : m'.control.headPublish = m.control.headPublish)
    (pc : PopPc) :
    pc.pending m' = pc.pending m := by
  cases pc with
  | loadHead c tail =>
    show (if m'.control.headPublish = tail then _ else _) = _
    rw [h]
    rfl
  | publish head k last => cases k <;> rfl
  | reserve head k last => cases k <;> cases last <;> rfl
  | _ => rfl

end PopPc

/-- A step of the consumer, as the queue sees it: what it consumes goes out at the front. -/
theorem ReaderInv.moves {order : HeadOrder} {cap : ℕ} {m : Shared} {pc pc' : PopPc}
    {passed ahead seen : List Chunk} {consumed : List (PopCall × Popped)} {l : PopLabel}
    {eff : Effect} {e : PopEvent} {pending : Process → Pending RingOp RingResult}
    (h : ReaderInv cap m pc passed ahead seen consumed) (hlt : m.control.tailPublish < 2^64)
    (hs : pc.step order cap m l = some (eff, pc', e)) (hp : pending (.consumer 0) = pc.pending m) :
    (messageRules (· = [])).object.Moves ⟨pending, records ahead⟩ (popActions l e)
      ⟨Function.update pending (.consumer 0) (pc'.pending (eff.apply m)),
        (records ahead).drop e.consumed?.length⟩ := by
  -- A step inside the call changes nothing that the queue's users see.
  have hinside : e.consumed? = [] → pc'.pending (eff.apply m) = pc.pending m → popActions l e = [] →
      (messageRules (· = [])).object.Moves ⟨pending, records ahead⟩ (popActions l e)
        ⟨Function.update pending (.consumer 0) (pc'.pending (eff.apply m)),
          (records ahead).drop e.consumed?.length⟩ := by
    intro hnone hsame hact
    rw [hact, hnone, hsame]
    exact .inside hp
  have hok := h.ok
  cases l with
  | call c =>
    cases pc <;> cases hs
    exact .invoke (Process.consumer 0) (FifoOp.pop c) .refl hp
  | run =>
    cases PopPc.step_cases hs with
    | call c => cases hs
    | loadTail c =>
      by_cases hempty : m.control.headPublish = m.control.tailPublish
      · -- The moment at which a call that is going to return false takes effect.
        have hnil : records ahead = [] := by
          have hstream := h.stream
          rw [← hempty] at hstream
          rw [hstream.eq_nil]
          rfl
        have hnext : (PopPc.loadHead c m.control.tailPublish).pending (Effect.none.apply m) =
            .effected (.popped none) := if_pos hempty
        rw [hnext]
        exact .effect (Process.consumer 0) (FifoOp.pop c) (FifoResult.popped none) _ .refl hp
          (FifoEffect.miss hnil)
      · exact hinside rfl (if_neg hempty) rfl
    | empty c tail heq =>
      have heffected : pending (.consumer 0) = .effected (.popped none) := by
        rw [hp]
        exact if_pos heq
      exact .respond (Process.consumer 0) (FifoResult.popped none) .refl heffected
    | skip c tail hne hshort =>
      refine hinside rfl ?_ rfl
      rw [PopPc.pending_advance_again]
      exact (if_neg hne).symm
    | header c tail hne hroom => exact hinside rfl (if_neg hne).symm rfl
    | wrap c tail head hflag => exact hinside rfl (PopPc.pending_advance_again _ _ _ _) rfl
    | badSize c tail head hbad =>
      -- The size in the header is that of the record, and there is room for it.
      obtain ⟨ht, rfl, hne, r, rest, ha⟩ := hok
      obtain ⟨hfit, hat⟩ := h.record_at ha
      rw [hat.record_size hfit] at hbad
      exact absurd hbad (h.not_badSize hlt ht hne ha)
    | size c tail head => exact hinside rfl (PopPc.pending_copying _ _ _ _ _ _) rfl
    | copy c head size i out => exact hinside rfl (PopPc.pending_copying _ _ _ _ _ _) rfl
    | type c head size out hwant => exact hinside rfl (PopPc.pending_advance_done _ _ _ _ _) rfl
    | sequence c head size out type => exact hinside rfl (PopPc.pending_advance_done _ _ _ _ _) rfl
    | publish head k last =>
      cases k with
      | again c => cases last <;> exact hinside rfl rfl rfl
      | done c res =>
        obtain ⟨r, rest, rfl, hof, -⟩ := hok
        cases last with
        | true => exact .effect_respond hp (FifoEffect.pop hof)
        | false =>
          exact .effect (Process.consumer 0) (FifoOp.pop c)
            (FifoResult.popped (some res)) _ .refl hp (FifoEffect.pop hof)
    | reserve head k last =>
      cases k with
      | again c => cases last <;> exact hinside rfl rfl rfl
      | done c res =>
        cases last with
        | true => exact .respond (Process.consumer 0) (FifoResult.popped (some res)) .refl hp
        | false => exact hinside rfl rfl rfl
    | _ => exact hinside rfl rfl rfl

/-! ## `SharedRingBuffer` -/

namespace Mpsc

/-- What the parties see of a step. -/
def actions : Label → Event → List (Action Process RingOp RingResult)
  | .producer i l, .producer _ e => pushActions i l e
  | .consumer l, .consumer e => popActions l e
  | _, _ => []

/-- The calls that the parties are in. -/
def State.pending (s : State) : Process → Pending RingOp RingResult
  | .producer i => (s.procs i).pending
  | .consumer 0 => s.consumer.pending s.mem
  | .consumer (_ + 1) => .none

/-- The records that were published and not consumed yet. -/
def waiting (tr : List Event) : List Record :=
  (records (publishedChunks (pushes tr))).drop (consumed tr).length

/-- The state of the queue, behind the events so far. -/
def abstraction (s : State) (tr : List Event) :
    AtomicState Process (List Record) RingOp RingResult :=
  ⟨s.pending, waiting tr⟩

section Steps

variable {cap : ℕ} {s : State} {tr : List Event} {pending : List Reservation}
  {passed ahead seen : List Chunk}

/-- What waits is what lies ahead of the consumer. -/
theorem Inv.waiting_eq (h : Inv cap s tr pending passed ahead seen) :
    waiting tr = records ahead := by
  unfold waiting
  rw [← h.split, records_append, h.reader.consumed.length_eq, List.drop_left]

/-- A producer's step, as the queue sees it. -/
theorem Inv.producer_moves (h : Inv cap s tr pending passed ahead seen) {i : ℕ} {l : PushLabel}
    {eff : Effect} {pc : PushPc} {e : PushEvent}
    (hs : (s.procs i).step cap s.mem l = some (eff, pc, e))
    (hlt : reservedBytes (pushes tr ++ [e]) < 2^64) :
    (messageRules (· = [])).object.Moves (abstraction s tr) (pushActions i l e)
      (abstraction { s with mem := eff.apply s.mem, procs := Function.update s.procs i pc }
        (tr ++ [.producer i e])) := by
  obtain ⟨pending', hw, hview⟩ := h.writer.step hs hlt
  have hpending :
      State.pending { s with mem := eff.apply s.mem, procs := Function.update s.procs i pc } =
        Function.update s.pending (.producer i) pc.pending := by
    funext p
    cases p with
    | producer j =>
      by_cases hj : j = i
      · subst hj
        show (Function.update s.procs j pc j).pending = _
        rw [Function.update_self, Function.update_self]
      · show (Function.update s.procs i pc j).pending = _
        rw [Function.update_of_ne hj, Function.update_of_ne (by simpa using hj)]
        rfl
    | consumer j =>
      rw [Function.update_of_ne (by simp)]
      cases j with
      | zero => exact PopPc.pending_congr hview.headPublish_eq s.consumer
      | succ j => rfl
  have hwaiting : waiting (tr ++ [.producer i e]) = waiting tr ++ records e.newChunks := by
    have hle : (consumed tr).length ≤ (records (publishedChunks (pushes tr))).length := by
      rw [← h.split, records_append, List.length_append, h.reader.consumed.length_eq]
      omega
    unfold waiting
    rw [pushes_producer, consumed_producer, publishedChunks_append, publishedChunks_singleton,
      records_append, List.drop_append_of_le_length hle]
  unfold abstraction
  rw [hpending, hwaiting]
  exact PushPc.moves hs rfl

/-- The consumer's step, as the queue sees it. -/
theorem Inv.consumer_moves (h : Inv cap s tr pending passed ahead seen) {l : PopLabel}
    {eff : Effect} {pc : PopPc} {e : PopEvent}
    (hs : s.consumer.step .publishFirst cap s.mem l = some (eff, pc, e)) :
    (messageRules (· = [])).object.Moves (abstraction s tr) (popActions l e)
      (abstraction { s with mem := eff.apply s.mem, consumer := pc } (tr ++ [.consumer e])) := by
  have hpending : State.pending { s with mem := eff.apply s.mem, consumer := pc } =
      Function.update s.pending (.consumer 0) (pc.pending (eff.apply s.mem)) := by
    funext p
    rcases p with i | (_ | i) <;> rfl
  have hwaiting : waiting (tr ++ [.consumer e]) = (records ahead).drop e.consumed?.length := by
    rw [← h.waiting_eq]
    unfold waiting
    rw [pushes_consumer, consumed_consumer, List.length_append, List.drop_drop]
  unfold abstraction
  rw [hpending, hwaiting, h.waiting_eq]
  exact h.reader.moves h.writer.tailPublish_lt hs rfl

end Steps

/-- The consumer loads `tail_publish` of the fresh ring. Producer 1 reserves before producer 0, both
publish, and then the consumer goes on, returns false, and calls again. -/
def crossedPushes : List Label :=
  [.consumer (.call ⟨[], true⟩), .consumer .run] ++
    (.producer 1 (.call (.ofBytes (some [1, 2]) 7)) :: List.replicate 3 (.producer 1 .run)) ++
    (.producer 0 (.call (.ofBytes none 5)) :: List.replicate 3 (.producer 0 .run)) ++
    List.replicate 10 (.producer 1 .run) ++ List.replicate 8 (.producer 0 .run) ++
    (.consumer .run :: .consumer (.call ⟨[], true⟩) :: List.replicate 10 (.consumer .run))

/-- What the parties see of that run. -/
def crossedHistory : List (Action Process RingOp RingResult) :=
  [.invoke (.consumer 0) (.pop ⟨[], true⟩),
    .invoke (.producer 1) (.push (.ofBytes (some [1, 2]) 7)),
    .invoke (.producer 0) (.push (.ofBytes none 5)), .respond (.producer 1) (.pushed true),
    .respond (.producer 0) (.pushed true), .respond (.consumer 0) (.popped none),
    .invoke (.consumer 0) (.pop ⟨[], true⟩),
    .respond (.consumer 0) (.popped (some ⟨[1, 2], 7, some 1⟩))]

end Mpsc

/-! ## `SharedRingBufferSPSC` -/

namespace Spsc

namespace PushPc

/-- The call that the producer is in. It has no effect before it returns, although it may have
published a filler. -/
def pending : PushPc → Pending RingOp RingResult
  | gone => .none
  | claimLoad => .none
  | claimStore _ => .none
  | idle => .none
  | loadHead a => .invoked (.push a)
  | loadTail a _ => .invoked (.push a)
  | store a _ _ _ _ => .invoked (.push a)
  | fetchSequence a _ => .invoked (.push a)
  | storeSequence a _ _ _ _ => .invoked (.push a)
  | reserve a _ _ => .invoked (.push a)
  | publish a _ _ => .invoked (.push a)

/-- A `try_push` that makes its stores has not taken effect. -/
@[simp] theorem pending_storing (a : PushArgs) (tail : ℕ) (c : Chunk) (todo : List Store) :
    (storing a tail c todo).pending = .invoked (.push a) := by
  cases todo with
  | nil => cases c <;> rfl
  | cons st todo => rfl

/-- A `try_push` that stores its sequence number has not taken effect. -/
@[simp] theorem pending_numbering (a : PushArgs) (tail n : ℕ) (todo : List Store) :
    (numbering a tail n todo).pending = .invoked (.push a) := by
  cases todo <;> rfl

/-- The record that is about to be published is that of the call. -/
def Carries : PushPc → Prop
  | reserve a _ c => ∀ r, c = .record r → r.toMessage = a.message
  | publish a _ c => ∀ r, c = .record r → r.toMessage = a.message
  | _ => True

/-- Every step keeps the record of the call. -/
theorem Carries.step {cap : ℕ} {m : Shared} {pc pc' : PushPc} {l : PushLabel} {eff : Effect}
    {e : PushEvent} (h : pc.Carries) (hs : pc.step cap m l = some (eff, pc', e)) : pc'.Carries := by
  have hstoring : ∀ a tail c todo, (storing a tail c todo).Carries := by
    intro a tail c todo
    cases todo with
    | cons st todo => trivial
    | nil =>
      -- A record still gets its number, and a filler is no record.
      cases c with
      | record r => trivial
      | skip len => rintro r ⟨⟩
      | wrap len => rintro r ⟨⟩
  have hnumbering : ∀ a tail n todo, (numbering a tail n todo).Carries := by
    intro a tail n todo
    cases todo with
    | cons st todo => trivial
    | nil =>
      rintro r ⟨⟩
      rfl
  cases step_cases hs with
  | room a head c hplace => exact hstoring a _ c _
  | store a tail c st todo => exact hstoring a tail c todo
  | fetch a tail => exact hnumbering a tail _ _
  | number a tail n st todo => exact hnumbering a tail n todo
  | reserve a tail c => exact h
  | publish a tail c => cases c <;> trivial
  | _ => trivial

end PushPc

/-- In every run the producer publishes the record of its call. -/
theorem carries_of_run {mapping : Mapping} {ok : State → List Event → Label → Prop} {s : State}
    {tr : List Event} (h : (machine mapping).Run ok s tr) : s.producer.Carries := by
  refine h.invariant (fun s _ => s.producer.Carries) trivial ?_
  intro s tr l s' e _ hc hs
  cases l with
  | producer l =>
    obtain ⟨eff, pc, pe, hstep, rfl, rfl⟩ := step_producer hs
    exact hc.step hstep
  | consumer l =>
    obtain ⟨eff, pc, pe, -, rfl, rfl⟩ := step_consumer hs
    exact hc
  | replace =>
    cases hs
    exact hc

/-- What the producer sees of its step. -/
def pushActions : PushLabel → PushEvent → List (Action Process RingOp RingResult)
  | .call a, .refused => [.invoke (.producer 0) (.push a), .respond (.producer 0) (.pushed false)]
  | .call a, _ => [.invoke (.producer 0) (.push a)]
  | .crash, _ => [.die (.producer 0)]
  | _, .refused => [.respond (.producer 0) (.pushed false)]
  | _, .published (.record _) => [.respond (.producer 0) (.pushed true)]
  | _, _ => []

/-- What the parties see of a step. -/
def actions : Label → Event → List (Action Process RingOp RingResult)
  | .producer l, .producer e => pushActions l e
  | .consumer l, .consumer e => popActions l e
  | .replace, _ => [.die (.consumer 0)]
  | _, _ => []

/-- The calls that the parties are in. -/
def State.pending (s : State) : Process → Pending RingOp RingResult
  | .producer 0 => s.producer.pending
  | .producer (_ + 1) => .none
  | .consumer 0 => s.consumer.pending s.mem
  | .consumer (_ + 1) => .none

/-- The records that were committed and not consumed yet. -/
def waiting (tr : List Event) : List Record := (committed tr).drop (consumed tr).length

/-- The state of the queue, behind the events so far. -/
def abstraction (s : State) (tr : List Event) :
    AtomicState Process (List Record) RingOp RingResult :=
  ⟨s.pending, waiting tr⟩

/-- A step of the producer, as the queue sees it: what it commits comes in at the end. -/
theorem PushPc.Carries.moves {cap : ℕ} {m : Shared} {pc pc' : PushPc} {l : PushLabel} {eff : Effect}
    {e : PushEvent} {pending : Process → Pending RingOp RingResult} {q : List Record}
    (h : pc.Carries) (hs : pc.step cap m l = some (eff, pc', e))
    (hp : pending (.producer 0) = pc.pending) :
    (messageRules (· = [])).object.Moves ⟨pending, q⟩ (pushActions l e)
      ⟨Function.update pending (.producer 0) pc'.pending, q ++ e.committed?⟩ := by
  have hinside : e.committed? = [] → pc'.pending = pc.pending → pushActions l e = [] →
      (messageRules (· = [])).object.Moves ⟨pending, q⟩ (pushActions l e)
        ⟨Function.update pending (.producer 0) pc'.pending, q ++ e.committed?⟩ := by
    intro hnone hsame hact
    rw [hact, hnone, hsame, List.append_nil]
    exact .inside hp
  cases l with
  | crash =>
    have hcrash : pc.step cap m .crash = some (.none, .gone, .crashed) := by cases pc <;> rfl
    rw [hcrash] at hs
    cases hs
    show (messageRules (· = [])).object.Moves ⟨pending, q⟩ [_] ⟨_, q ++ []⟩
    rw [List.append_nil]
    exact .die (Process.producer 0) .refl
  | claim =>
    cases pc with
    | gone =>
      cases hs
      exact hinside rfl rfl rfl
    | _ => cases hs
  | call a =>
    cases pc with
    | idle =>
      simp only [PushPc.step, PushPc.enter] at hs
      split_ifs at hs
      · cases hs
        show (messageRules (· = [])).object.Moves ⟨pending, q⟩ [_, _] ⟨_, q ++ []⟩
        rw [List.append_nil, show PushPc.idle.pending = pending (.producer 0) from hp.symm,
          Function.update_eq_self]
        exact .invoke_effect_respond hp (FifoEffect.refuse trivial)
      · cases hs
        show (messageRules (· = [])).object.Moves ⟨pending, q⟩ [_] ⟨_, q ++ []⟩
        rw [List.append_nil]
        exact .invoke (Process.producer 0) (FifoOp.push a) .refl hp
    | _ => cases hs
  | run =>
    cases PushPc.step_cases hs with
    | crash => exact absurd rfl (PushPc.ne_crashed hs)
    | claim => cases hs
    | reject a => cases hs
    | call a hrej => cases hs
    | full a head =>
      show (messageRules (· = [])).object.Moves ⟨pending, q⟩ [_] ⟨_, q ++ []⟩
      rw [List.append_nil]
      exact .effect_respond hp (FifoEffect.refuse trivial)
    | room a head c hplace => exact hinside rfl (PushPc.pending_storing a _ c _) rfl
    | store a tail c st todo => exact hinside rfl (PushPc.pending_storing a tail c todo) rfl
    | fetch a tail => exact hinside rfl (PushPc.pending_numbering a tail _ _) rfl
    | number a tail n st todo => exact hinside rfl (PushPc.pending_numbering a tail n todo) rfl
    | publish a tail c =>
      -- A filler sends the producer around its loop. A record ends the call.
      cases c with
      | record r => exact .effect_respond hp (FifoEffect.push trivial (h r rfl))
      | skip len => exact hinside rfl rfl rfl
      | wrap len => exact hinside rfl rfl rfl
    | _ => exact hinside rfl rfl rfl

section Steps

variable {cap : ℕ} {s : State} {tr : List Event} {passed ahead seen : List Chunk}

/-- What waits is what lies ahead of the consumer. -/
theorem Inv.waiting_eq (h : Inv cap s tr passed ahead seen) : waiting tr = records ahead := by
  unfold waiting
  rw [← records_publishedChunks, ← h.split, records_append, h.reader.consumed.length_eq,
    List.drop_left]

/-- A step of the producer, as the queue sees it. -/
theorem Inv.producer_moves (h : Inv cap s tr passed ahead seen) (hc : s.producer.Carries)
    {l : PushLabel} {eff : Effect} {pc : PushPc} {e : PushEvent}
    (hs : s.producer.step cap s.mem l = some (eff, pc, e))
    (hlt : placedBytes (tr ++ [.producer e]) < 2^64) :
    (messageRules (· = [])).object.Moves (abstraction s tr) (pushActions l e)
      (abstraction { s with mem := eff.apply s.mem, producer := pc } (tr ++ [.producer e])) := by
  have hbytes : placedBytes (tr ++ [.producer e]) = placedBytes tr + e.bytes := by
    simp [Event.push?]
  rw [hbytes] at hlt
  obtain ⟨-, hview⟩ := h.push.step hs hlt
  have hpending : State.pending { s with mem := eff.apply s.mem, producer := pc } =
      Function.update s.pending (.producer 0) pc.pending := by
    funext p
    rcases p with (_ | i) | (_ | i)
    · rfl
    · rfl
    · exact PopPc.pending_congr hview.headPublish_eq s.consumer
    · rfl
  have hwaiting : waiting (tr ++ [.producer e]) = waiting tr ++ e.committed? := by
    have hle : (consumed tr).length ≤ (committed tr).length := by
      rw [← records_publishedChunks, ← h.split, records_append, List.length_append,
        h.reader.consumed.length_eq]
      omega
    have hcommitted : committed (tr ++ [.producer e]) = committed tr ++ e.committed? := by
      simp [Event.push?]
    have hconsumed : consumed (tr ++ [.producer e]) = consumed tr := by
      simp [Event.pop?, consumedOf]
    unfold waiting
    rw [hcommitted, hconsumed, List.drop_append_of_le_length hle]
  unfold abstraction
  rw [hpending, hwaiting]
  exact hc.moves hs rfl

/-- A step of the consumer, as the queue sees it. -/
theorem Inv.consumer_moves (h : Inv cap s tr passed ahead seen) {l : PopLabel} {eff : Effect}
    {pc : PopPc} {e : PopEvent}
    (hs : s.consumer.step .reserveFirst cap s.mem l = some (eff, pc, e)) :
    (messageRules (· = [])).object.Moves (abstraction s tr) (popActions l e)
      (abstraction { s with mem := eff.apply s.mem, consumer := pc } (tr ++ [.consumer e])) := by
  have hpending : State.pending { s with mem := eff.apply s.mem, consumer := pc } =
      Function.update s.pending (.consumer 0) (pc.pending (eff.apply s.mem)) := by
    funext p
    rcases p with (_ | i) | (_ | i) <;> rfl
  have hwaiting : waiting (tr ++ [.consumer e]) = (records ahead).drop e.consumed?.length := by
    have hcommitted : committed (tr ++ [.consumer e]) = committed tr := by
      simp [Event.push?]
    have hconsumed : consumed (tr ++ [.consumer e]) = consumed tr ++ e.consumed? := by
      simp [Event.pop?, consumedOf]
    rw [← h.waiting_eq]
    unfold waiting
    rw [hcommitted, hconsumed, List.length_append, List.drop_drop]
  have hbytes := h.push.bytes_le
  have hbound := h.push.bytes_lt
  unfold abstraction
  rw [hpending, hwaiting, h.waiting_eq]
  exact h.reader.moves (by omega) hs rfl

/-- The consumer's death, as the queue sees it. -/
theorem replace_moves : (messageRules (· = [])).object.Moves (abstraction s tr) [.die (.consumer 0)]
    (abstraction { s with consumer := .idle } (tr ++ [.replaced])) := by
  have hpending : State.pending { s with consumer := .idle } =
      Function.update s.pending (.consumer 0) .none := by
    funext p
    rcases p with (_ | i) | (_ | i) <;> rfl
  have hwaiting : waiting (tr ++ [.replaced]) = waiting tr := by
    unfold waiting
    rw [committed_append, consumed_append]
    show (committed tr ++ []).drop (consumed tr ++ []).length = _
    rw [List.append_nil, List.append_nil]
  unfold abstraction
  rw [hpending, hwaiting]
  exact .die (Process.consumer 0) .refl

end Steps

/-- The parties' history of `crashes`. -/
def crashHistory : List (Action Process RingOp RingResult) :=
  [.invoke (.producer 0) (.push (.ofBytes (some [9, 9, 9]) 1)), .die (.producer 0),
    .invoke (.producer 0) (.push (.ofBytes (some [1, 2]) 7)), .respond (.producer 0) (.pushed true),
    .invoke (.consumer 0) (.pop ⟨[], true⟩), .die (.consumer 0)]

end Spsc

end LfRing

import Mathlib.Data.Prod.Lex
import LfRing.Queue.Steps

/-!
# `SPSCQueue` is a crash-consistent queue

Counters stand for positions: with `n` values pushed and `k` popped, `tail_publish` is that of
position `start + n` and `head_publish` that of `start + k`, where `start` is what both were at the
beginning. The positions in between are at most `Capacity` (`Counted`, which needs nothing of the
slots), so their slots share no byte, and each has its value. The producer writes to the slot of the
tail's position. While it does, there are fewer than `Capacity`, so it disturbs none of them, and
not the one that the consumer reads either (`Inv`).

A producer that dies leaves bytes in a slot that no position in between has, and `claim` changes
nothing. `consistent_across_wrap` puts together what follows. It needs the offsets of the slots to
be exact (`Geometry.Fits`).
-/

namespace LfRing.Queue

variable {g : Geometry}

/-! ## Bytes of a slot -/

/-- The first `n` bytes in the slot of a counter are those of `bs`. -/
def SlotHas (g : Geometry) (m : Shared) (t n : ℕ) (bs : List UInt8) : Prop :=
  ∀ b < n, m.ring (g.slot t + b) = bs.getD b 0

/-- The slot of a counter has the same bytes in both memories. -/
def SameSlot (g : Geometry) (m m' : Shared) (t : ℕ) : Prop :=
  ∀ b < g.sizeofT, m'.ring (g.slot t + b) = m.ring (g.slot t + b)

section Slots

variable {m m' : Shared} {t t' n i : ℕ} {bs bs' : List UInt8} {x : UInt8}

/-- A slot that stays the same keeps its value. -/
theorem SlotHas.same (h : SlotHas g m t n bs) (hn : n ≤ g.sizeofT) (hm : SameSlot g m m' t) :
    SlotHas g m' t n bs := by
  intro b hb
  rw [hm b (by omega)]
  exact h b hb

/-- A byte stored into a slot leaves the ones apart from it the same. -/
theorem sameSlot_of_apart (hi : i < g.sizeofT) (h : g.Apart t t') :
    SameSlot g m ((Effect.ring ⟨g.slot t + i, [x]⟩).apply m) t' := by
  intro b hb
  rw [ring_apply_byte, if_neg]
  unfold Geometry.Apart at h
  omega

/-- The next byte of a value comes into its slot. -/
theorem SlotHas.next (h : SlotHas g m t i bs) :
    SlotHas g ((Effect.ring ⟨g.slot t + i, [bs.getD i 0]⟩).apply m) t (i + 1) bs := by
  intro b hb
  rw [ring_apply_byte]
  by_cases heq : b = i
  · rw [heq, if_pos rfl]
  · rw [if_neg (by omega)]
    exact h b (by omega)

/-- The next byte of a value is copied out of its slot. -/
theorem SlotHas.copied (h : SlotHas g m t i bs) (hi : i < bs.length) :
    SlotHas g m t (i + 1) (bs.set i (m.ring (g.slot t + i))) := by
  have hbefore : ∀ b < i, bs.getD b 0 = m.ring (g.slot t + b) := fun b hb => (h b hb).symm
  intro b hb
  exact (getD_set_upTo (m := fun b => m.ring (g.slot t + b)) hi hbefore b hb).symm

/-- A slot has only one value. -/
theorem SlotHas.unique (h : SlotHas g m t g.sizeofT bs) (h' : SlotHas g m t g.sizeofT bs')
    (hlen : bs.length = g.sizeofT) (hlen' : bs'.length = g.sizeofT) : bs = bs' := by
  apply List.ext_getElem (by rw [hlen, hlen'])
  intro i hi hi'
  have heq := (h i (by omega)).symm.trans (h' i (by omega))
  rwa [List.getD_eq_getElem _ _ hi, List.getD_eq_getElem _ _ hi'] at heq

/-- The value of a slot is what is read there. -/
theorem SlotHas.read_eq (h : SlotHas g m t g.sizeofT bs) (hlen : bs.length = g.sizeofT) :
    m.ring.read (g.slot t) g.sizeofT = bs := by
  apply List.ext_getElem (by rw [Memory.length_read, hlen])
  intro i hi hi'
  have heq := h i (by omega)
  rw [List.getD_eq_getElem _ _ hi'] at heq
  simp only [Memory.read, List.getElem_map, List.getElem_range]
  exact heq

end Slots

/-! ## The counters -/

/-- The position of the tail. -/
def tailPos (start : ℕ) (tr : List (Event g)) : ℕ := start + (pushed tr).length

/-- The position of the head. -/
def headPos (start : ℕ) (tr : List (Event g)) : ℕ := start + (popped tr).length

/-- The counter the producer has loaded, with the tail at position `p` and the head at position
`q`. -/
def PushPc.Counts (p q : ℕ) : PushPc g.sizeofT → Prop
  | loadHead _ t => t = u64 p
  | copy _ t _ => t = u64 p ∧ p < q + g.capacity
  | storeTail _ t => t = u64 p ∧ p < q + g.capacity
  | _ => True

/-- The counter the consumer has loaded. -/
def PopPc.Counts (p q : ℕ) : PopPc → Prop
  | loadTail h _ => h = u64 q
  | copy h _ _ => h = u64 q ∧ q < p
  | storeHead h _ => h = u64 q ∧ q < p
  | _ => True

/-- What holds of the counters at every moment, whatever is in the slots. -/
structure Counted (start : ℕ) (s : State g) (tr : List (Event g)) : Prop where
  /-- `tail_publish` is at its position. -/
  tail : s.mem.control.tailPublish = u64 (tailPos start tr)
  /-- `head_publish` is at its position. -/
  head : s.mem.control.headPublish = u64 (headPos start tr)
  /-- The head is not ahead of the tail. -/
  headPos_le : headPos start tr ≤ tailPos start tr
  /-- The tail is at most `Capacity` ahead of the head. -/
  tailPos_le : tailPos start tr ≤ headPos start tr + g.capacity
  /-- What the producer has loaded. -/
  producer : s.producer.Counts (tailPos start tr) (headPos start tr)
  /-- What the consumer has loaded. -/
  consumer : s.consumer.Counts (tailPos start tr) (headPos start tr)

section Counts

variable {p p' q q' : ℕ}

/-- While it copies, the producer has loaded the same counter. -/
theorem PushPc.counts_copying (v : Element g.sizeofT) (i : ℕ) (h : p < q + g.capacity) :
    (copying v (u64 p) i : PushPc g.sizeofT).Counts p q := by
  unfold copying
  split_ifs <;> exact ⟨rfl, h⟩

/-- While it copies, the consumer has loaded the same counter. -/
theorem PopPc.counts_copying (i : ℕ) (out : List UInt8) (h : q < p) :
    (copying g (u64 q) i out).Counts p q := by
  unfold copying
  split_ifs <;> exact ⟨rfl, h⟩

/-- A head that moves on leaves the producer its room. -/
theorem PushPc.Counts.mono {pc : PushPc g.sizeofT} (h : pc.Counts p q) (hq : q ≤ q') :
    pc.Counts p q' := by
  cases pc with
  | copy v t i => exact ⟨h.1, lt_of_lt_of_le h.2 (Nat.add_le_add_right hq _)⟩
  | storeTail v t => exact ⟨h.1, lt_of_lt_of_le h.2 (Nat.add_le_add_right hq _)⟩
  | _ => exact h

/-- A tail that moves on leaves the consumer its value. -/
theorem PopPc.Counts.mono {pc : PopPc} (h : pc.Counts p q) (hp : p ≤ p') : pc.Counts p' q := by
  cases pc with
  | copy t i out => exact ⟨h.1, lt_of_lt_of_le h.2 hp⟩
  | storeHead t out => exact ⟨h.1, lt_of_lt_of_le h.2 hp⟩
  | _ => exact h

/-- What the producer has begun to write is the slot of the tail, and there is room for it. -/
theorem PushPc.Counts.writing {t : ℕ} {pc : PushPc g.sizeofT} (h : pc.Counts p q)
    (ht : pc.writing? = some t) : t = u64 p ∧ p < q + g.capacity := by
  cases pc with
  | copy v t' i => cases ht; exact h
  | storeTail v t' => cases ht; exact h
  | _ => cases ht

/-- What the consumer has begun to read is the slot of the head, and there is a value in it. -/
theorem PopPc.Counts.reading {t : ℕ} {pc : PopPc} (h : pc.Counts p q)
    (ht : pc.reading? = some t) : t = u64 q ∧ q < p := by
  cases pc with
  | copy t' i out => cases ht; exact h
  | storeHead t' out => cases ht; exact h
  | _ => cases ht

end Counts

namespace Counted

variable {start : ℕ} {s s' : State g} {tr : List (Event g)} {e : Event g}

/-- The counters at the start. -/
theorem fresh {file : Mapping} (hlt : start < 2^64)
    (htail : file.shared.control.tailPublish = start)
    (hhead : file.shared.control.headPublish = start) : Counted start (machine g file).init [] where
  tail := htail.trans (u64_of_lt hlt).symm
  head := hhead.trans (u64_of_lt hlt).symm
  headPos_le := le_rfl
  tailPos_le := Nat.le_add_right _ _
  producer := trivial
  consumer := trivial

/-- The counters' difference is that of the positions. -/
theorem sub64_eq (h : Counted start s tr) :
    sub64 (u64 (tailPos start tr)) (u64 (headPos start tr)) =
      tailPos start tr - headPos start tr := by
  have hle := h.tailPos_le
  have hlt := g.capacity_lt
  exact sub64_u64 h.headPos_le (by omega)

/-- A step that leaves the counters as they are. -/
theorem of_quiet (h : Counted start s tr) (hcontrol : s'.mem.control = s.mem.control)
    (hpush : e.pushed? = []) (hpop : e.popped? = [])
    (hp : s'.producer.Counts (tailPos start tr) (headPos start tr))
    (hc : s'.consumer.Counts (tailPos start tr) (headPos start tr)) :
    Counted start s' (tr ++ [e]) := by
  have htail : tailPos start (tr ++ [e]) = tailPos start tr := by
    rw [tailPos, pushed_append, hpush, List.append_nil, tailPos]
  have hhead : headPos start (tr ++ [e]) = headPos start tr := by
    rw [headPos, popped_append, hpop, List.append_nil, headPos]
  constructor
  · rw [hcontrol, htail]
    exact h.tail
  · rw [hcontrol, hhead]
    exact h.head
  · rw [htail, hhead]
    exact h.headPos_le
  · rw [htail, hhead]
    exact h.tailPos_le
  · rw [htail, hhead]
    exact hp
  · rw [htail, hhead]
    exact hc

/-- The producer stores `tail_publish`. -/
theorem of_push (h : Counted start s tr) {v : Element g.sizeofT} {t : ℕ}
    (hpc : s.producer = .storeTail v t) :
    Counted start { s with
      mem := (Effect.tailPublish (u64 (t + 1))).apply s.mem
      producer := .idle } (tr ++ [.producer (.pushed v)]) := by
  have hcounts := h.producer
  rw [hpc] at hcounts
  obtain ⟨rfl, hroom⟩ := hcounts
  have htail : tailPos start (tr ++ [.producer (.pushed v)]) = tailPos start tr + 1 := by
    simp [tailPos, Event.pushed?, Nat.add_assoc]
  have hhead : headPos start (tr ++ [.producer (.pushed v)]) = headPos start tr := by
    simp [headPos, Event.popped?]
  have hle := h.headPos_le
  constructor
  · rw [htail]
    exact u64_succ _
  · rw [hhead]
    exact h.head
  · omega
  · omega
  · trivial
  · rw [htail, hhead]
    exact h.consumer.mono (Nat.le_succ _)

/-- The consumer stores `head_publish`. -/
theorem of_pop (h : Counted start s tr) {t : ℕ} {out : List UInt8}
    (hpc : s.consumer = .storeHead t out) :
    Counted start { s with
      mem := (Effect.headPublish (u64 (t + 1))).apply s.mem
      consumer := .idle } (tr ++ [.consumer (.popped out)]) := by
  have hcounts := h.consumer
  rw [hpc] at hcounts
  obtain ⟨rfl, hne⟩ := hcounts
  have htail : tailPos start (tr ++ [.consumer (.popped out)]) = tailPos start tr := by
    simp [tailPos, Event.pushed?]
  have hhead : headPos start (tr ++ [.consumer (.popped out)]) = headPos start tr + 1 := by
    simp [headPos, Event.popped?, Nat.add_assoc]
  have hle := h.tailPos_le
  constructor
  · rw [htail]
    exact h.tail
  · rw [hhead]
    exact u64_succ _
  · omega
  · omega
  · rw [htail, hhead]
    exact h.producer.mono (Nat.le_succ _)
  · trivial

/-- A step of the producer. -/
theorem of_producer (h : Counted start s tr) {l : PushLabel g.sizeofT} {eff : Effect}
    {pc : PushPc g.sizeofT} {pe : PushEvent g.sizeofT}
    (hs : s.producer.step g s.mem l = some (eff, pc, pe)) :
    Counted start { s with mem := eff.apply s.mem, producer := pc } (tr ++ [.producer pe]) := by
  have hcounts := h.producer
  generalize hpc : s.producer = pc₀ at hs hcounts
  cases PushPc.step_cases hs with
  | loadTail v => exact h.of_quiet rfl rfl rfl h.tail h.consumer
  | accept v t hroom =>
    -- The tail loaded is that of the tail's position still, for only the producer moves it.
    obtain rfl : t = u64 (tailPos start tr) := hcounts
    rw [h.head, h.sub64_eq] at hroom
    exact h.of_quiet rfl rfl rfl (PushPc.counts_copying v 0 (by omega)) h.consumer
  | copy v t i =>
    obtain ⟨rfl, hroom⟩ := hcounts
    exact h.of_quiet rfl rfl rfl (PushPc.counts_copying v (i + 1) hroom) h.consumer
  | store v t => exact h.of_push hpc
  | _ => exact h.of_quiet rfl rfl rfl trivial h.consumer

/-- A step of the consumer. -/
theorem of_consumer (h : Counted start s tr) {l : PopLabel g.sizeofT} {eff : Effect} {pc : PopPc}
    {pe : PopEvent} (hs : s.consumer.step g s.mem l = some (eff, pc, pe)) :
    Counted start { s with mem := eff.apply s.mem, consumer := pc } (tr ++ [.consumer pe]) := by
  have hcounts := h.consumer
  generalize hpc : s.consumer = pc₀ at hs hcounts
  cases PopPc.step_cases hs with
  | loadHead out => exact h.of_quiet rfl rfl rfl h.producer h.head
  | accept t out hne =>
    obtain rfl : t = u64 (headPos start tr) := hcounts
    have hlt : headPos start tr < tailPos start tr :=
      lt_of_le_of_ne h.headPos_le fun heq => hne (by rw [h.tail, heq])
    exact h.of_quiet rfl rfl rfl h.producer (PopPc.counts_copying 0 out hlt)
  | copy t i out =>
    obtain ⟨rfl, hne⟩ := hcounts
    exact h.of_quiet rfl rfl rfl h.producer (PopPc.counts_copying (i + 1) _ hne)
  | store t out => exact h.of_pop hpc
  | _ => exact h.of_quiet rfl rfl rfl h.producer trivial

/-- Every step keeps the counters so. -/
theorem step (h : Counted start s tr) {file : Mapping} {l : Label g}
    (hs : Queue.step file s l = some (s', e)) : Counted start s' (tr ++ [e]) := by
  cases l with
  | producer l =>
    obtain ⟨eff, pc, pe, hstep, rfl, rfl⟩ := step_producer hs
    exact h.of_producer hstep
  | consumer l =>
    obtain ⟨eff, pc, pe, hstep, rfl, rfl⟩ := step_consumer hs
    exact h.of_consumer hstep
  | claim =>
    obtain ⟨hmem, hconsumer, hpc, hpush, hpop⟩ := step_claim hs
    refine h.of_quiet (by rw [hmem]) hpush hpop ?_ (by rw [hconsumer]; exact h.consumer)
    rcases hpc with hpc | hpc <;> rw [hpc] <;> trivial

end Counted

/-! ## What is in the slots -/

/-- What the producer has copied so far is in the slot of its counter. -/
def PushPc.Written (m : Shared) : PushPc g.sizeofT → Prop
  | copy v t i => i < g.sizeofT ∧ SlotHas g m t i v.1
  | storeTail v t => SlotHas g m t g.sizeofT v.1
  | _ => True

/-- What the consumer has copied so far is what the slot of its counter has. -/
def PopPc.Copied (g : Geometry) (m : Shared) : PopPc → Prop
  | idle => True
  | loadHead out => out.length = g.sizeofT
  | loadTail _ out => out.length = g.sizeofT
  | copy h i out => out.length = g.sizeofT ∧ i < g.sizeofT ∧ SlotHas g m h i out
  | storeHead h out => out.length = g.sizeofT ∧ SlotHas g m h g.sizeofT out

section Copies

variable {m m' : Shared} {t i : ℕ}

/-- The producer with `i` bytes copied. -/
theorem PushPc.written_copying {v : Element g.sizeofT} (hi : i ≤ g.sizeofT)
    (h : SlotHas g m t i v.1) : (copying v t i : PushPc g.sizeofT).Written m := by
  unfold copying
  split_ifs with hlt
  · exact ⟨hlt, h⟩
  · obtain rfl : i = g.sizeofT := by omega
    exact h

/-- The consumer with `i` bytes copied. -/
theorem PopPc.copied_copying {out : List UInt8} (hlen : out.length = g.sizeofT)
    (hi : i ≤ g.sizeofT) (h : SlotHas g m t i out) : (copying g t i out).Copied g m := by
  unfold copying
  split_ifs with hlt
  · exact ⟨hlen, hlt, h⟩
  · obtain rfl : i = g.sizeofT := by omega
    exact ⟨hlen, h⟩

/-- What the producer has copied stays while the ring does. -/
theorem PushPc.Written.transfer {pc : PushPc g.sizeofT} (h : pc.Written m)
    (hring : m'.ring = m.ring) : pc.Written m' := by
  cases pc with
  | copy v t i => exact ⟨h.1, h.2.same h.1.le fun b _ => by rw [hring]⟩
  | storeTail v t => exact SlotHas.same h le_rfl fun b _ => by rw [hring]
  | _ => trivial

/-- What the consumer has copied stays while the slot that it reads does. -/
theorem PopPc.Copied.transfer {pc : PopPc} (h : pc.Copied g m)
    (hm : ∀ t, pc.reading? = some t → SameSlot g m m' t) : pc.Copied g m' := by
  cases pc with
  | copy t i out => exact ⟨h.1, h.2.1, h.2.2.same h.2.1.le (hm t rfl)⟩
  | storeHead t out => exact ⟨h.1, h.2.same le_rfl (hm t rfl)⟩
  | _ => exact h

end Copies

/-! ## The invariant -/

/-- What holds at every moment. -/
structure Inv (start : ℕ) (s : State g) (tr : List (Event g)) : Prop extends
    Counted start s tr where
  /-- What was popped is the first part of what was pushed. -/
  consumed : popped tr <+: pushed tr
  /-- Every value has the size of the type. -/
  sized : ∀ v ∈ pushed tr, v.length = g.sizeofT
  /-- A value that was not popped yet is in the slot of its position. -/
  held : ∀ k v, (popped tr).length ≤ k → (pushed tr)[k]? = some v →
    SlotHas g s.mem (u64 (start + k)) g.sizeofT v
  /-- What the producer has copied. -/
  written : s.producer.Written s.mem
  /-- What the consumer has copied. -/
  copied : s.consumer.Copied g s.mem

namespace Inv

variable {start : ℕ} {s s' : State g} {tr : List (Event g)} {e : Event g}

/-- The invariant holds at the start. -/
theorem fresh {file : Mapping} {start : ℕ} (hlt : start < 2^64)
    (htail : file.shared.control.tailPublish = start)
    (hhead : file.shared.control.headPublish = start) : Inv start (machine g file).init [] where
  toCounted := .fresh hlt htail hhead
  consumed := List.prefix_rfl
  sized := by simp [pushed]
  held := by simp [pushed]
  written := trivial
  copied := trivial

/-- Equal counters are at the same position, so all that was pushed has been popped. -/
theorem popped_eq (h : Inv start s tr)
    (heq : s.mem.control.headPublish = s.mem.control.tailPublish) : popped tr = pushed tr := by
  have hle := h.tailPos_le
  have hcap := g.capacity_lt
  rw [h.head, h.tail, u64_eq_iff h.headPos_le (by omega)] at heq
  exact h.consumed.eq_of_length (Nat.add_left_cancel heq)

/-- A pop that finds the queue empty has popped all that was pushed before. -/
theorem popped_eq_of_refused (h : Inv start s tr) {l : PopLabel g.sizeofT} {eff : Effect}
    {pc : PopPc} (hstep : s.consumer.step g s.mem l = some (eff, pc, .refused)) :
    popped tr = pushed tr := by
  obtain ⟨p, out, hpc, htail⟩ := PopPc.empty_of_refused hstep
  have hok := h.consumer
  rw [hpc] at hok
  exact h.popped_eq (h.head.trans (Eq.trans hok.symm htail))

/-- A step that neither commits nor consumes, and leaves the slots of the values in between the
same. -/
theorem of_uncommitted (h : Inv start s tr) (hcounted : Counted start s' (tr ++ [e]))
    (hring : ∀ p, headPos start tr ≤ p → p < tailPos start tr → SameSlot g s.mem s'.mem (u64 p))
    (hpush : e.pushed? = []) (hpop : e.popped? = []) (hw : s'.producer.Written s'.mem)
    (hc : s'.consumer.Copied g s'.mem) : Inv start s' (tr ++ [e]) := by
  have hpushed : pushed (tr ++ [e]) = pushed tr := by rw [pushed_append, hpush, List.append_nil]
  have hpopped : popped (tr ++ [e]) = popped tr := by rw [popped_append, hpop, List.append_nil]
  refine ⟨hcounted, ?_, ?_, ?_, hw, hc⟩ <;> rw [hpushed]
  · rw [hpopped]
    exact h.consumed
  · exact h.sized
  · rw [hpopped]
    intro k v hk hv
    have hlt := (List.getElem?_eq_some_iff.mp hv).1
    exact (h.held k v hk hv).same le_rfl
      (hring _ (Nat.add_le_add_left hk start) (Nat.add_lt_add_left hlt start))

/-- A step that changes nothing shared. -/
theorem of_unshared (h : Inv start s tr) (hcounted : Counted start s' (tr ++ [e]))
    (hmem : s'.mem = s.mem) (hpush : e.pushed? = []) (hpop : e.popped? = [])
    (hw : s'.producer.Written s.mem) (hc : s'.consumer.Copied g s.mem) :
    Inv start s' (tr ++ [e]) := by
  rw [← hmem] at hw hc
  refine h.of_uncommitted hcounted (fun p _ _ b _ => ?_) hpush hpop hw hc
  rw [hmem]

/-- The slot of the tail's position is apart from those of all values not popped yet, as long as
there is room. -/
theorem apart (h : Inv start s tr) (hfits : g.Fits)
    (hroom : tailPos start tr < headPos start tr + g.capacity) {p : ℕ} (hp : headPos start tr ≤ p)
    (hp' : p < tailPos start tr) : g.Apart (u64 (tailPos start tr)) (u64 p) :=
  Geometry.apart_of_window hfits h.headPos_le hroom hp (by omega) (by omega)

/-- The producer copies a byte. -/
theorem of_byte (h : Inv start s tr) (hfits : g.Fits) {v : Element g.sizeofT} {t i : ℕ}
    (hpc : s.producer = .copy v t i)
    (hcounted : Counted start { s with
      mem := (Effect.ring ⟨g.slot t + i, [v.1.getD i 0]⟩).apply s.mem
      producer := .copying v t (i + 1) } (tr ++ [.producer .internal])) :
    Inv start { s with
      mem := (Effect.ring ⟨g.slot t + i, [v.1.getD i 0]⟩).apply s.mem
      producer := .copying v t (i + 1) } (tr ++ [.producer .internal]) := by
  have hcounts := h.producer
  have hwritten := h.written
  rw [hpc] at hcounts hwritten
  obtain ⟨rfl, hroom⟩ := hcounts
  obtain ⟨hi, hhas⟩ := hwritten
  have hsame : ∀ p, headPos start tr ≤ p → p < tailPos start tr → SameSlot g s.mem
      ((Effect.ring ⟨g.slot (u64 (tailPos start tr)) + i, [v.1.getD i 0]⟩).apply s.mem) (u64 p) :=
    fun p hp hp' => sameSlot_of_apart hi (h.apart hfits hroom hp hp')
  refine h.of_uncommitted hcounted hsame rfl rfl (PushPc.written_copying hi hhas.next) ?_
  refine h.copied.transfer fun t ht => ?_
  obtain ⟨rfl, hne⟩ := h.consumer.reading ht
  exact hsame _ le_rfl hne

/-- The producer stores `tail_publish`. -/
theorem of_push (h : Inv start s tr) {v : Element g.sizeofT} {t : ℕ}
    (hpc : s.producer = .storeTail v t) :
    Inv start { s with
      mem := (Effect.tailPublish (u64 (t + 1))).apply s.mem
      producer := .idle } (tr ++ [.producer (.pushed v)]) := by
  have hcounts := h.producer
  have hhas := h.written
  rw [hpc] at hcounts hhas
  have hpushed : pushed (tr ++ [.producer (.pushed v)]) = pushed tr ++ [v.1] := pushed_append _ _
  have hpopped : popped (tr ++ [.producer (.pushed v)]) = popped tr := by simp [Event.popped?]
  refine ⟨h.toCounted.of_push hpc, ?_, ?_, ?_, trivial, h.copied.transfer fun _ _ b _ => rfl⟩
  · rw [hpushed, hpopped]
    exact h.consumed.trans (List.prefix_append _ _)
  · rw [hpushed]
    intro w hw
    rcases List.mem_append.mp hw with hw | hw
    · exact h.sized w hw
    · rw [List.mem_singleton.mp hw]
      exact v.2
  · rw [hpushed, hpopped]
    intro k w hk hw
    -- The value is one of those before, or it is the one that was pushed just now.
    rcases Nat.lt_trichotomy k (pushed tr).length with hlt | rfl | hgt
    · rw [List.getElem?_append_left hlt] at hw
      exact h.held k w hk hw
    · rw [List.getElem?_append_right le_rfl, Nat.sub_self] at hw
      cases hw
      obtain ⟨rfl, -⟩ := hcounts
      exact hhas
    · rw [List.getElem?_eq_none (by simp; omega)] at hw
      cases hw

/-- The consumer stores `head_publish`. -/
theorem of_pop (h : Inv start s tr) {out : List UInt8} {p : ℕ}
    (hpc : s.consumer = .storeHead p out) :
    Inv start { s with
      mem := (Effect.headPublish (u64 (p + 1))).apply s.mem
      consumer := .idle } (tr ++ [.consumer (.popped out)]) := by
  have hcounts := h.consumer
  have hcopied := h.copied
  rw [hpc] at hcounts hcopied
  obtain ⟨hp, hne⟩ := hcounts
  obtain ⟨hlen, hhas⟩ := hcopied
  rw [hp] at hhas
  have hpushed : pushed (tr ++ [.consumer (.popped out)]) = pushed tr := by simp [Event.pushed?]
  have hpopped : popped (tr ++ [.consumer (.popped out)]) = popped tr ++ [out] := popped_append _ _
  -- What was copied is the value at the head's position, the first one that was not popped yet.
  obtain ⟨rest, hrest⟩ := h.consumed
  have hfirst : ∃ rest', rest = out :: rest' := by
    cases rest with
    | nil =>
      rw [List.append_nil] at hrest
      unfold headPos tailPos at hne
      rw [hrest] at hne
      omega
    | cons w rest' =>
      have hw : (pushed tr)[(popped tr).length]? = some w := by rw [← hrest]; simp
      have hmem : w ∈ pushed tr := List.mem_of_getElem? hw
      have heq := hhas.unique (h.held _ w le_rfl hw) hlen (h.sized w hmem)
      exact ⟨rest', by rw [heq]⟩
  obtain ⟨rest', rfl⟩ := hfirst
  refine ⟨h.toCounted.of_pop hpc, ?_, ?_, ?_, h.written.transfer rfl, trivial⟩
  · rw [hpushed, hpopped, ← hrest]
    exact ⟨rest', by simp⟩
  · rw [hpushed]
    exact h.sized
  · rw [hpushed, hpopped]
    intro k w hk hw
    rw [List.length_append] at hk
    exact h.held k w (by omega) hw

/-- A step of the producer. -/
theorem producer_step (h : Inv start s tr) (hfits : g.Fits) {l : PushLabel g.sizeofT} {eff : Effect}
    {pc : PushPc g.sizeofT} {pe : PushEvent g.sizeofT}
    (hstep : s.producer.step g s.mem l = some (eff, pc, pe)) :
    Inv start { s with mem := eff.apply s.mem, producer := pc } (tr ++ [.producer pe]) := by
  have hcounted := h.toCounted.of_producer hstep
  generalize hpc : s.producer = pc₀ at hstep
  cases PushPc.step_cases hstep with
  | accept v t hroom =>
    exact h.of_unshared hcounted rfl rfl rfl
      (PushPc.written_copying (Nat.zero_le _) fun _ hb => absurd hb (Nat.not_lt_zero _)) h.copied
  | copy v t i => exact h.of_byte hfits hpc hcounted
  | store v t => exact h.of_push hpc
  | _ => exact h.of_unshared hcounted rfl rfl rfl trivial h.copied

/-- A step of the consumer. -/
theorem consumer_step (h : Inv start s tr) {l : PopLabel g.sizeofT} {eff : Effect} {pc : PopPc}
    {pe : PopEvent} (hstep : s.consumer.step g s.mem l = some (eff, pc, pe)) :
    Inv start { s with mem := eff.apply s.mem, consumer := pc } (tr ++ [.consumer pe]) := by
  have hcounted := h.toCounted.of_consumer hstep
  have hcopied := h.copied
  generalize hpc : s.consumer = pc₀ at hstep hcopied
  cases PopPc.step_cases hstep with
  | call out => exact h.of_unshared hcounted rfl rfl rfl h.written out.2
  | loadHead out => exact h.of_unshared hcounted rfl rfl rfl h.written hcopied
  | refuse p out => exact h.of_unshared hcounted rfl rfl rfl h.written trivial
  | accept p out hne =>
    exact h.of_unshared hcounted rfl rfl rfl h.written
      (PopPc.copied_copying hcopied (Nat.zero_le _) fun _ hb => absurd hb (Nat.not_lt_zero _))
  | copy p i out =>
    obtain ⟨hlen, hi, hhas⟩ := hcopied
    refine h.of_unshared hcounted rfl rfl rfl h.written
      (PopPc.copied_copying ?_ hi (hhas.copied (by omega)))
    rw [List.length_set, hlen]
  | store p out => exact h.of_pop hpc

/-- Every step keeps the invariant. -/
theorem step {file : Mapping} (h : Inv start s tr) (hfits : g.Fits) {l : Label g}
    (hs : (machine g file).step s l = some (s', e)) : Inv start s' (tr ++ [e]) := by
  change Queue.step file s l = some (s', e) at hs
  cases l with
  | producer l =>
    obtain ⟨eff, pc, pe, hstep, rfl, rfl⟩ := step_producer hs
    exact h.producer_step hfits hstep
  | consumer l =>
    obtain ⟨eff, pc, pe, hstep, rfl, rfl⟩ := step_consumer hs
    exact h.consumer_step hstep
  | claim =>
    obtain ⟨hmem, hconsumer, hpc, hpush, hpop⟩ := step_claim hs
    refine h.of_unshared (h.toCounted.step hs) hmem hpush hpop ?_
      (by rw [hconsumer]; exact h.copied)
    rcases hpc with hpc | hpc <;> rw [hpc] <;> trivial

end Inv

/-- The invariant holds in every run. -/
theorem inv_of_reaches {file : Mapping} {start : ℕ} {s : State g} {tr : List (Event g)}
    (hfits : g.Fits) (hlt : start < 2^64) (htail : file.shared.control.tailPublish = start)
    (hhead : file.shared.control.headPublish = start) (h : (machine g file).Reaches s tr) :
    Inv start s tr := by
  refine h.invariant (fun s tr => Inv start s tr) (Inv.fresh hlt htail hhead) ?_
  intro s tr l s' e _ hinv hs
  exact hinv.step hfits hs

/-! ## A consumer that is not disturbed -/

/-- The steps of a call that are still to come, at most. -/
def PopPc.left (g : Geometry) : PopPc → ℕ
  | idle => g.sizeofT + 4
  | loadHead _ => g.sizeofT + 3
  | loadTail _ _ => g.sizeofT + 2
  | copy _ i _ => g.sizeofT - i + 1
  | storeHead _ _ => 0

/-- The steps to come with `i` bytes copied. -/
theorem PopPc.left_copying_le (g : Geometry) (h i : ℕ) (out : List UInt8) :
    (copying g h i out).left g ≤ g.sizeofT - i + 1 := by
  unfold copying
  split_ifs
  · exact le_rfl
  · exact Nat.zero_le _

/-- The consumer moves, and no one else. -/
def Label.PopsAlone : Label g → Prop
  | .consumer _ => True
  | _ => False

/-- The values in between, and then the steps of the call. -/
def drainMeasure (s : State g) : ℕ ×ₗ ℕ :=
  toLex (sub64 s.mem.control.tailPublish s.mem.control.headPublish, s.consumer.left g)

/-- A step that leaves the counters alone and goes on in the call. -/
theorem drainMeasure_lt_of_left {s : State g} {pc : PopPc} (h : pc.left g < s.consumer.left g) :
    drainMeasure { s with consumer := pc } < drainMeasure s := by
  rw [drainMeasure, drainMeasure, Prod.Lex.toLex_lt_toLex]
  exact Or.inr ⟨rfl, h⟩

namespace Inv

variable {file : Mapping} {start : ℕ} {s : State g} {tr : List (Event g)}

variable (file) in
/-- As long as the counters differ, the consumer has a step that brings it nearer to the tail and
commits nothing. -/
theorem consumer_progress (h : Inv start s tr)
    (hne : s.mem.control.headPublish ≠ s.mem.control.tailPublish) :
    ∃ l s' e, (machine g file).step s (.consumer l) = some (s', e) ∧ e.pushed? = [] ∧
      drainMeasure s' < drainMeasure s := by
  have hok := h.consumer
  have hcopied := h.copied
  generalize hpc : s.consumer = pc at hok hcopied
  cases pc with
  | idle =>
    refine ⟨.call ⟨List.replicate g.sizeofT 0, List.length_replicate⟩,
      { s with consumer := .loadHead (List.replicate g.sizeofT 0) }, .consumer .internal, ?_, rfl,
      drainMeasure_lt_of_left ?_⟩
    · simp only [machine, Queue.step, hpc, PopPc.step, Effect.apply]
    · rw [hpc]
      exact Nat.lt_succ_self _
  | loadHead out =>
    refine ⟨.run, { s with consumer := .loadTail s.mem.control.headPublish out },
      .consumer .internal, ?_, rfl, drainMeasure_lt_of_left ?_⟩
    · simp only [machine, Queue.step, hpc, PopPc.step, Effect.apply]
    · rw [hpc]
      exact Nat.lt_succ_self _
  | loadTail p out =>
    obtain rfl : p = u64 (headPos start tr) := hok
    rw [h.head] at hne
    refine ⟨.run, { s with consumer := .copying g (u64 (headPos start tr)) 0 out },
      .consumer .internal, ?_, rfl, drainMeasure_lt_of_left ?_⟩
    · simp only [machine, Queue.step, hpc, PopPc.step, PopPc.decideEmpty, if_neg hne, Effect.apply]
    · rw [hpc]
      exact lt_of_le_of_lt (PopPc.left_copying_le g _ _ _) (Nat.lt_succ_self _)
  | copy p i out =>
    obtain ⟨rfl, -⟩ := hok
    have hi := hcopied.2.1
    generalize hout : out.set i (s.mem.ring (g.slot (u64 (headPos start tr)) + i)) = out'
    refine ⟨.run, { s with consumer := .copying g (u64 (headPos start tr)) (i + 1) out' },
      .consumer .internal, ?_, rfl, drainMeasure_lt_of_left ?_⟩
    · simp only [machine, Queue.step, hpc, PopPc.step, hout, Effect.apply]
    · rw [hpc]
      refine lt_of_le_of_lt (PopPc.left_copying_le g _ _ _) ?_
      change g.sizeofT - (i + 1) + 1 < g.sizeofT - i + 1
      omega
  | storeHead p out =>
    obtain ⟨rfl, hlt⟩ := hok
    refine ⟨.run, { s with
        mem := (Effect.headPublish (u64 (u64 (headPos start tr) + 1))).apply s.mem
        consumer := .idle }, .consumer (.popped out), ?_, rfl, ?_⟩
    · simp only [machine, Queue.step, hpc, PopPc.step]
    · -- The head moves on, to a position that is not behind the tail.
      have hle := h.tailPos_le
      have hcap := g.capacity_lt
      rw [drainMeasure, drainMeasure, Prod.Lex.toLex_lt_toLex]
      refine Or.inl ?_
      change sub64 s.mem.control.tailPublish (u64 (u64 (headPos start tr) + 1)) <
        sub64 s.mem.control.tailPublish s.mem.control.headPublish
      rw [h.tail, h.head, h.sub64_eq, u64_succ, sub64_u64 hlt (by omega)]
      omega

variable (file) in
/-- From every state the consumer alone can pop the rest of what is committed. -/
theorem drain (h : Inv start s tr) (hfits : g.Fits) :
    ∃ es s', (machine g file).Path Label.PopsAlone s es s' ∧ popped (tr ++ es) = pushed tr := by
  have hstep : ∀ s es, Inv start s (tr ++ es) ∧ pushed (tr ++ es) = pushed tr →
      ¬ s.mem.control.headPublish = s.mem.control.tailPublish →
      ∃ l s' e, Label.PopsAlone l ∧ (machine g file).step s l = some (s', e) ∧
        (Inv start s' (tr ++ (es ++ [e])) ∧ pushed (tr ++ (es ++ [e])) = pushed tr) ∧
        drainMeasure s' < drainMeasure s := by
    rintro s es ⟨hinv, hsame⟩ hne
    obtain ⟨l, s', e, hs, hpush, hlt⟩ := hinv.consumer_progress file hne
    refine ⟨.consumer l, s', e, trivial, hs, ?_, hlt⟩
    rw [← List.append_assoc]
    refine ⟨hinv.step hfits hs, ?_⟩
    rw [pushed_append, hpush, List.append_nil, hsame]
  have hstart : Inv start s (tr ++ []) ∧ pushed (tr ++ []) = pushed tr := by
    rw [List.append_nil]
    exact ⟨h, rfl⟩
  obtain ⟨es, s', hpath, hfinal, hinv, hsame⟩ :=
    Machine.exists_path drainMeasure _ _ hstep hstart
  refine ⟨es, s', hpath, ?_⟩
  rw [← hsame]
  exact hinv.popped_eq hfinal

end Inv

/-- `SPSCQueue` is a crash-consistent queue, also where its counters wrap. For every power of two
`Capacity` and every element size whose slots fit into the range of offsets, from every file in
which both counters have the same value, whatever that is, in every interleaving of single accesses
and bytes of a producer that may die at any step, of those that take its place, and of one consumer:

* what was popped is the first part of what was pushed;
* the counters' difference is at most `Capacity`;
* the slot being written shares no byte with the one being read, nor with the slot of any value that
  was pushed and not popped;
* each of these values is in its slot;
* `claim` changes nothing shared, and the consumer alone can then pop all that is left, in order;
* and so it can in every other state. -/
theorem consistent_across_wrap {file : Mapping} {start : ℕ} {s : State g} {tr : List (Event g)}
    (hfits : g.Fits) (hlt : start < 2^64) (htail : file.shared.control.tailPublish = start)
    (hhead : file.shared.control.headPublish = start) (hrun : (machine g file).Reaches s tr) :
    popped tr <+: pushed tr ∧
      sub64 s.mem.control.tailPublish s.mem.control.headPublish ≤ g.capacity ∧
      (∀ t, s.producer.writing? = some t → (∀ h, s.consumer.reading? = some h → g.Apart t h) ∧
        ∀ k, (popped tr).length ≤ k → k < (pushed tr).length → g.Apart t (u64 (start + k))) ∧
      (∀ k v, (popped tr).length ≤ k → (pushed tr)[k]? = some v →
        s.mem.ring.read (g.slot (u64 (start + k))) g.sizeofT = v) ∧
      (∀ s' e, (machine g file).step s .claim = some (s', e) → s'.mem = s.mem ∧
        ∃ es s'', (machine g file).Path Label.PopsAlone s' es s'' ∧
          popped (tr ++ e :: es) = pushed tr) ∧
      ∃ es s', (machine g file).Path Label.PopsAlone s es s' ∧ popped (tr ++ es) = pushed tr := by
  have hinv := inv_of_reaches hfits hlt htail hhead hrun
  refine ⟨hinv.consumed, ?_, ?_, ?_, ?_, hinv.drain file hfits⟩
  · rw [hinv.tail, hinv.head, hinv.sub64_eq]
    have hle := hinv.tailPos_le
    omega
  · intro t ht
    obtain ⟨rfl, hroom⟩ := hinv.producer.writing ht
    constructor
    · intro h hh
      obtain ⟨rfl, hne⟩ := hinv.consumer.reading hh
      exact hinv.apart hfits hroom le_rfl hne
    · intro k hk hk'
      exact hinv.apart hfits hroom (Nat.add_le_add_left hk start) (Nat.add_lt_add_left hk' start)
  · intro k v hk hv
    exact (hinv.held k v hk hv).read_eq (hinv.sized v (List.mem_of_getElem? hv))
  · intro s' e hs
    obtain ⟨hmem, -, -, hpush, -⟩ := step_claim hs
    obtain ⟨es, s'', hpath, hall⟩ := (hinv.step hfits hs).drain file hfits
    refine ⟨hmem, es, s'', hpath, ?_⟩
    rw [pushed_append, hpush, List.append_nil, List.append_assoc] at hall
    exact hall

/-! ## A run across the wrap -/

/-- The shared memory with both counters at `start`. -/
def countersAt (start : ℕ) (m : Shared) : Shared :=
  { m with control := { m.control with headPublish := start, tailPublish := start } }

/-- A queue of four values of two bytes. -/
def fourPairs : Geometry := ⟨4, 2, by decide, by decide⟩

/-- The producer pushes two bytes. -/
def pushPair (x y : UInt8) : List (Label fourPairs) :=
  .producer (.call (bytePair x y)) :: List.replicate 5 (.producer .run)

/-- A producer dies with half of its second value in the slot, and the one that takes its place
pushes two values, behind the wrap of `tail_publish`. The first value is popped. -/
def crashAtWrap : List (Label fourPairs) :=
  pushPair 1 2 ++
    (.producer (.call (bytePair 9 9)) :: List.replicate 3 (.producer .run) ++
      [.producer .crash, .claim]) ++
    pushPair 3 4 ++ pushPair 5 6 ++
    (.consumer (.call (bytePair 0 0)) :: List.replicate 5 (.consumer .run))

/-- After that, the two values that are left can be popped. -/
theorem consistent_across_wrap_crash : ∃ mapping file s tr,
    createMapping fourPairs.bytes kFlagFixedSPSC = .ok mapping ∧
    file = { mapping with shared := countersAt (2^64 - 2) mapping.shared } ∧
    (machine fourPairs file).Reaches s tr ∧ s.mem.control.tailPublish = 1 ∧
    pushed tr = [[1, 2], [3, 4], [5, 6]] ∧ popped tr = [[1, 2]] ∧
    ∃ es s', (machine fourPairs file).Path Label.PopsAlone s es s' ∧
      popped (tr ++ es) = pushed tr := by
  obtain ⟨mapping, hmap⟩ : ∃ mapping,
    createMapping fourPairs.bytes kFlagFixedSPSC = .ok mapping := ⟨_, rfl⟩
  obtain ⟨s, tr, hrun, htest⟩ :=
    (machine fourPairs { mapping with
      shared := countersAt (2^64 - 2) mapping.shared }).exists_reaches crashAtWrap
      (fun s tr => decide (s.mem.control.tailPublish = 1 ∧
        pushed tr = [[1, 2], [3, 4], [5, 6]] ∧ popped tr = [[1, 2]]))
      (by cases hmap; decide +kernel)
  obtain ⟨htail, hpushed, hpopped⟩ := of_decide_eq_true htest
  have hfits : fourPairs.Fits := by
    unfold Geometry.Fits fourPairs
    decide
  have hlt : 2^64 - 2 < 2^64 := by decide
  exact ⟨mapping, _, s, tr, hmap, rfl, hrun, htail, hpushed, hpopped,
    (consistent_across_wrap hfits hlt rfl rfl hrun).2.2.2.2.2⟩

end LfRing.Queue

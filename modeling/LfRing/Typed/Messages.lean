import LfRing.Mapping
import LfRing.Ring.Calls
import LfRing.Typed.Codec

/-!
# Typed message streams

One `TypedMessageWriter` and one `TypedMessageReader` of `include/lf_ring/typed_message.hpp` on any
of the three rings, call by call. The writer encodes a value and pushes the bytes. The reader pops
into its `buffer_`, checks the type, and decodes all of the buffer.

The buffer is the reader's for its whole life, and `try_pop` makes it longer where it has to but
never shorter. So behind a payload that is shorter than one popped before, bytes of the old one are
left, and the decoder takes them for part of the message (`stale_bytes`). The length that is pushed
is cut to 32 bits besides. `roundTrip_iff` says that nothing else goes wrong: values come through
unchanged exactly if the encodings popped are shorter than `2^32` bytes and no one is shorter than
the one before (`Grows`).
-/

namespace LfRing.Typed

/-! ## The writer and the reader -/

/-- The arguments of `ring_.try_push` in `try_push_typed`. The length is cast to `std::uint32_t`. -/
def pushArgs (v : Value) (type : UInt16) : PushArgs := .ofBytes (some v.encode) type

/-- `decode_payload`, behind the check of the type. -/
def deliver (kind : Kind) (type : UInt16) : Option Popped → Option Value
  | none => none
  | some p => if p.type = type.toNat then decode kind p.out else none

/-- `buffer_` after `ring_.try_pop`. -/
def received (buffer : List UInt8) : Option Popped → List UInt8
  | none => buffer
  | some p => p.out

/-- The shared memory and the reader's buffer. The writer's `scratch_` is cleared by every call. -/
structure State where
  /-- The shared memory. -/
  mem : Shared
  /-- `buffer_`. -/
  buffer : List UInt8

/-- A call. -/
inductive Call
  /-- `try_push_typed(value, type)`. -/
  | push (v : Value) (type : UInt16)
  /-- `try_pop_typed<T>(expected_type, out)`. -/
  | pop (kind : Kind) (type : UInt16)

/-- A call, with what it does not control. -/
structure Label where
  /-- The call. -/
  call : Call
  /-- How the ring's call goes. -/
  choices : List Bool

/-- What a call has done. -/
inductive Event
  /-- A push of a value. -/
  | pushed (v : Value) (type : UInt16) (out : PushResult)
  /-- A pop, with the value it yields if it has returned true. -/
  | popped (kind : Kind) (type : UInt16) (res : Option Value)

/-- One call of the writer or of the reader. The reader asks for sequence numbers. -/
def step (R : CallRing) (s : State) (l : Label) : Option (State × Event) :=
  match l.call with
  | .push v type => (R.push s.mem (pushArgs v type) l.choices).map fun x =>
      ({ s with mem := x.1 }, .pushed v type x.2)
  | .pop kind type => (R.pop s.mem ⟨s.buffer, true⟩ l.choices).map fun x =>
      (⟨x.1, received s.buffer x.2⟩, .popped kind type (deliver kind type x.2))

/-- A writer and a reader on a ring. -/
def machine (R : CallRing) (mapping : Mapping) : Machine State Label Event where
  init := ⟨mapping.shared, []⟩
  step := step R

/-! ## What has happened so far -/

/-- The messages of a run, with what has become of them. -/
structure Log where
  /-- The messages pushed and not yet popped. -/
  pending : List (Value × UInt16)
  /-- The values popped, each with what its pop has yielded. -/
  delivered : List (Value × Option Value)
  /-- What the pops have yielded that found nothing pushed. -/
  idle : List (Option Value)

/-- A call's part in the log: a successful push adds its message, and a pop is for the oldest
one. -/
def Log.next (L : Log) : Event → Log
  | .pushed v type out =>
    if out.accepted then { L with pending := L.pending ++ [(v, type)] } else L
  | .popped _ _ res =>
    match L.pending with
    | [] => { L with idle := L.idle ++ [res] }
    | p :: rest => { L with pending := rest, delivered := L.delivered ++ [(p.1, res)] }

/-- The log of a run. -/
def log (tr : List Event) : Log := tr.foldl Log.next ⟨[], [], []⟩

/-- The value that a successful push has pushed. -/
def Event.accepted? : Event → List Value
  | .pushed v _ out => if out.accepted then [v] else []
  | .popped _ _ _ => []

/-- The bytes of the ring that a call has taken. -/
def Event.bytes : Event → ℕ
  | .pushed _ _ out => out.bytes
  | .popped _ _ _ => 0

/-- The values of all successful pushes. -/
def accepted (tr : List Event) : List Value := tr.flatMap Event.accepted?

/-- The bytes of the ring that all pushes have taken. -/
def takenBytes (tr : List Event) : ℕ := (tr.map Event.bytes).sum

/-- A pop expects the type of the oldest message, if there is one. -/
def Matching (_ : State) (tr : List Event) (l : Label) : Prop :=
  ∀ kind type v u rest, l.call = .pop kind type → (log tr).pending = (v, u) :: rest →
    kind = v.kind ∧ type = u

/-- The lengths of the encodings popped. -/
def Log.lengths (L : Log) : List ℕ := L.delivered.map fun p => p.1.encode.length

/-- Every length fits 32 bits, and none is less than one before it. -/
def Grows (lengths : List ℕ) : Prop := lengths.Pairwise (· ≤ ·) ∧ ∀ n ∈ lengths, n < 2^32

/-- Every pop that found a message has yielded the value pushed. -/
def Log.Right (L : Log) : Prop := ∀ p ∈ L.delivered, p.2 = some p.1

section Histories

variable (tr : List Event) (e : Event)

/-- The log with one more event is the one before it, carried on by the event. -/
@[simp] theorem log_append : log (tr ++ [e]) = (log tr).next e := by simp [log]

/-- One more call adds the bytes that it has taken. -/
@[simp] theorem takenBytes_append : takenBytes (tr ++ [e]) = takenBytes tr + e.bytes := by
  simp [takenBytes]

/-- One more call adds the value that it has pushed, if it was accepted. -/
@[simp] theorem accepted_append : accepted (tr ++ [e]) = accepted tr ++ e.accepted? := by
  simp [accepted]

end Histories

/-! ## What a run keeps -/

/-- One more length. -/
theorem grows_append (lengths : List ℕ) (n : ℕ) :
    Grows (lengths ++ [n]) ↔ Grows lengths ∧ (∀ x ∈ lengths, x ≤ n) ∧ n < 2^32 := by
  simp only [Grows, List.pairwise_append, List.pairwise_singleton, List.mem_append,
    List.mem_singleton, forall_eq, true_and, or_imp, forall_and]
  tauto

/-- Bytes cut to a length of 32 bits, over a buffer of less than `2^32` bytes, are all that the
buffer has then exactly if nothing was cut and they are not fewer than the buffer had. -/
theorem overlay_eq_iff (bytes : List UInt8) {buffer : List UInt8} (hb : buffer.length < 2^32) :
    bytes.take (bytes.length % 2^32) ++ buffer.drop (bytes.length % 2^32) = bytes ↔
      bytes.length < 2^32 ∧ buffer.length ≤ bytes.length := by
  have hmod : bytes.length % 2^32 ≤ bytes.length := Nat.mod_le _ _
  have hlt : bytes.length % 2^32 < 2^32 := Nat.mod_lt _ (by norm_num)
  constructor
  · intro h
    -- By the lengths of the two sides.
    have htotal := congrArg List.length h
    rw [List.length_append, List.length_drop, List.length_take, Nat.min_eq_left hmod] at htotal
    omega
  · rintro ⟨hfits, hle⟩
    rw [Nat.mod_eq_of_lt hfits, List.take_length, List.drop_eq_nil_of_le hle, List.append_nil]

/-- The buffer has the encoding of the value popped exactly if its length fits 32 bits and is not
less than that of the buffer. -/
theorem payload_eq_iff (v : Value) (type : UInt16) {buffer : List UInt8}
    (hb : buffer.length < 2^32) :
    (pushArgs v type).payload ++ buffer.drop (pushArgs v type).payload.length = v.encode ↔
      v.encode.length < 2^32 ∧ buffer.length ≤ v.encode.length := by
  have hpayload : (pushArgs v type).payload = v.encode.take (v.encode.length % 2^32) := rfl
  have hlen : (pushArgs v type).payload.length = v.encode.length % 2^32 := by
    rw [hpayload, List.length_take, Nat.min_eq_left (Nat.mod_le _ _)]
  rw [hlen, hpayload]
  exact overlay_eq_iff v.encode hb

/-- What holds between two calls. -/
structure Inv (Holds : Shared → ℕ → List Record → Prop) (s : State) (tr : List Event) : Prop where
  /-- The ring holds the messages that are pending. -/
  queue : ∃ q, Holds s.mem (takenBytes tr) q ∧
    List.Forall₂ (fun p r => r.toMessage = (pushArgs p.1 p.2).message) (log tr).pending q
  /-- A pop that found nothing has returned false. -/
  idle : ∀ res ∈ (log tr).idle, res = none
  /-- The values have come through exactly if their lengths allow it. -/
  right_iff : (log tr).Right ↔ Grows (log tr).lengths
  /-- As long as they do, the buffer is as long as the longest encoding popped. -/
  buffer : Grows (log tr).lengths → (∀ n ∈ (log tr).lengths, n ≤ s.buffer.length) ∧
    (s.buffer.length = 0 ∨ s.buffer.length ∈ (log tr).lengths)
  /-- The values popped and those pending are the values pushed, in order. -/
  accepted : (log tr).delivered.map Prod.fst ++ (log tr).pending.map Prod.fst = accepted tr

namespace Inv

variable {R : CallRing} {Holds : Shared → ℕ → List Record → Prop} {s : State} {tr : List Event}

/-- A fresh ring and an empty buffer. -/
theorem fresh (hR : R.Fifo Holds) : Inv Holds ⟨Shared.fresh, []⟩ [] where
  queue := ⟨[], hR.fresh, .nil⟩
  idle := by simp [log]
  right_iff := by simp [log, Log.Right, Log.lengths, Grows]
  buffer := by simp [log, Log.lengths]
  accepted := rfl

/-- A push, accepted or not. -/
theorem push (hR : R.Fifo Holds) (h : Inv Holds s tr) {v : Value} {type : UInt16} {m' : Shared}
    {out : PushResult} {choices : List Bool}
    (hpush : R.push s.mem (pushArgs v type) choices = some (m', out))
    (hlt : takenBytes tr + out.bytes < 2^64) :
    Inv Holds { s with mem := m' } (tr ++ [.pushed v type out]) := by
  obtain ⟨q, hq, hall⟩ := h.queue
  have hbytes : takenBytes (tr ++ [.pushed v type out]) = takenBytes tr + out.bytes :=
    takenBytes_append _ _
  rcases hR.push hq hpush hlt with ⟨hacc, n, hq'⟩ | ⟨hrej, hq'⟩
  · have hlog : log (tr ++ [.pushed v type out]) =
        { log tr with pending := (log tr).pending ++ [(v, type)] } := by
      rw [log_append, Log.next, if_pos hacc]
    have hvalues : LfRing.Typed.accepted (tr ++ [.pushed v type out]) =
        LfRing.Typed.accepted tr ++ [v] := by
      rw [accepted_append, Event.accepted?, if_pos hacc]
    refine ⟨⟨_, by rw [hbytes]; exact hq', ?_⟩, ?_, ?_, ?_, ?_⟩
    · rw [hlog]
      exact List.rel_append hall (.cons rfl .nil)
    · rw [hlog]
      exact h.idle
    · rw [hlog]
      exact h.right_iff
    · rw [hlog]
      exact h.buffer
    · rw [hlog, hvalues, ← h.accepted]
      simp
  · have hlog : log (tr ++ [.pushed v type out]) = log tr := by
      rw [log_append, Log.next, hrej]
      rfl
    have hvalues : LfRing.Typed.accepted (tr ++ [.pushed v type out]) =
        LfRing.Typed.accepted tr := by
      rw [accepted_append, Event.accepted?, hrej]
      exact List.append_nil _
    refine ⟨⟨q, by rw [hbytes]; exact hq', by rw [hlog]; exact hall⟩, ?_, ?_, ?_, ?_⟩
    · rw [hlog]
      exact h.idle
    · rw [hlog]
      exact h.right_iff
    · rw [hlog]
      exact h.buffer
    · rw [hlog, hvalues]
      exact h.accepted

/-- A pop that finds nothing. -/
theorem pop_empty (h : Inv Holds s tr) {kind : Kind} {type : UInt16} {m' : Shared}
    (hnone : (log tr).pending = []) (hm : Holds m' (takenBytes tr) []) :
    Inv Holds ⟨m', s.buffer⟩ (tr ++ [.popped kind type none]) := by
  have hlog : log (tr ++ [.popped kind type none]) =
      ⟨[], (log tr).delivered, (log tr).idle ++ [none]⟩ := by
    rw [log_append, Log.next, hnone]
  have hvalues : LfRing.Typed.accepted (tr ++ [.popped kind type none]) =
      LfRing.Typed.accepted tr := by
    rw [accepted_append]
    exact List.append_nil _
  refine ⟨⟨[], by rw [takenBytes_append]; exact hm, ?_⟩, ?_, ?_, ?_, ?_⟩
  · rw [hlog]
    exact .nil
  · rw [hlog]
    intro res hres
    rcases List.mem_append.mp hres with hres | hres
    · exact h.idle res hres
    · exact List.mem_singleton.mp hres
  · rw [hlog]
    exact h.right_iff
  · rw [hlog]
    exact h.buffer
  · rw [hlog, hvalues, ← h.accepted, hnone]

/-- The longest encoding popped, and with it the buffer, fits 32 bits as long as every encoding
does. -/
theorem buffer_lt (h : Inv Holds s tr) (hgrows : Grows (log tr).lengths) :
    s.buffer.length < 2^32 := by
  rcases (h.buffer hgrows).2 with hzero | hmem
  · rw [hzero]
    norm_num
  · exact hgrows.2 _ hmem

/-- A pop that finds a message. -/
theorem pop_found (h : Inv Holds s tr) {v : Value} {type : UInt16} {rest : List (Value × UInt16)}
    {m' : Shared} {q : List Record} {out : List UInt8}
    (hpend : (log tr).pending = (v, type) :: rest) (hm : Holds m' (takenBytes tr) q)
    (hall : List.Forall₂ (fun p r => r.toMessage = (pushArgs p.1 p.2).message) rest q)
    (hout : out = (pushArgs v type).payload ++ s.buffer.drop (pushArgs v type).payload.length) :
    Inv Holds ⟨m', out⟩ (tr ++ [.popped v.kind type (decode v.kind out)]) := by
  have hlog : log (tr ++ [.popped v.kind type (decode v.kind out)]) =
      ⟨rest, (log tr).delivered ++ [(v, decode v.kind out)], (log tr).idle⟩ := by
    rw [log_append, Log.next, hpend]
  have hlengths : (log (tr ++ [.popped v.kind type (decode v.kind out)])).lengths =
      (log tr).lengths ++ [v.encode.length] := by
    rw [hlog]
    simp [Log.lengths]
  have hright : (log (tr ++ [.popped v.kind type (decode v.kind out)])).Right ↔
      (log tr).Right ∧ out = v.encode := by
    rw [hlog, ← decode_eq_some_iff]
    simp only [Log.Right, List.mem_append, List.mem_singleton, or_imp, forall_and, forall_eq]
  have hvalues : LfRing.Typed.accepted (tr ++ [.popped v.kind type (decode v.kind out)]) =
      LfRing.Typed.accepted tr := by
    rw [accepted_append]
    exact List.append_nil _
  -- The buffer is as long as the longest encoding, so to be compared with it is to be compared with
  -- all of them.
  have hiff : Grows (log tr).lengths →
      (out = v.encode ↔ (∀ n ∈ (log tr).lengths, n ≤ v.encode.length) ∧
        v.encode.length < 2^32) := by
    intro hgrows
    obtain ⟨hbound, hmax⟩ := h.buffer hgrows
    rw [hout, payload_eq_iff v type (h.buffer_lt hgrows), and_comm]
    refine and_congr_left fun _ => ⟨fun hle n hn => (hbound n hn).trans hle, fun hle => ?_⟩
    rcases hmax with hzero | hmem
    · omega
    · exact hle _ hmem
  refine ⟨⟨q, by rw [takenBytes_append]; exact hm, by rw [hlog]; exact hall⟩, ?_, ?_, ?_, ?_⟩
  · rw [hlog]
    exact h.idle
  · rw [hright, hlengths, grows_append, h.right_iff]
    exact and_congr_right hiff
  · rw [hlengths, grows_append]
    rintro ⟨hgrows, hle, hlt⟩
    have hencode : out = v.encode := (hiff hgrows).mpr ⟨hle, hlt⟩
    dsimp only
    rw [hencode]
    refine ⟨fun n hn => ?_, Or.inr (List.mem_append_right _ (List.mem_singleton.mpr rfl))⟩
    rcases List.mem_append.mp hn with hn | hn
    · exact hle n hn
    · exact le_of_eq (List.mem_singleton.mp hn)
  · rw [hlog, hvalues, ← h.accepted, hpend]
    simp

/-- Every call keeps the invariant. -/
theorem step (hR : R.Fifo Holds) (h : Inv Holds s tr) {l : Label} {s' : State} {e : Event}
    (hmatch : Matching s tr l) (hlt : takenBytes (tr ++ [e]) < 2^64)
    (hs : Typed.step R s l = some (s', e)) : Inv Holds s' (tr ++ [e]) := by
  obtain ⟨call, choices⟩ := l
  cases call with
  | push v type =>
    obtain ⟨⟨m', out⟩, hpush, heq⟩ := Option.map_eq_some_iff.mp hs
    cases heq
    rw [takenBytes_append] at hlt
    exact h.push hR hpush hlt
  | pop kind type =>
    obtain ⟨⟨m', res⟩, hpop, heq⟩ := Option.map_eq_some_iff.mp hs
    cases heq
    obtain ⟨q, hq, hall⟩ := h.queue
    rcases hR.pop hq hpop with ⟨rfl, rfl, hm⟩ | ⟨r, q', p, rfl, rfl, hof, hm⟩
    · exact h.pop_empty (List.forall₂_nil_right_iff.mp hall) hm
    · -- The record is that of the oldest message, which the reader expects.
      obtain ⟨⟨v, u⟩, rest, hmsg, hall', hpend⟩ := List.forall₂_cons_right_iff.mp hall
      obtain ⟨rfl, rfl⟩ := hmatch kind type v u rest rfl hpend
      obtain ⟨hout, htype, -⟩ := hof
      have hpayload : r.payload = (pushArgs v type).payload := congrArg Message.payload hmsg
      have hid : p.type = type.toNat := htype.trans (congrArg Message.type hmsg)
      have hdeliver : deliver v.kind type (some p) = decode v.kind p.out := if_pos hid
      rw [hdeliver]
      rw [hpayload] at hout
      exact h.pop_found hpend hm hall' hout

end Inv

/-- The invariant of every run of matching calls. -/
theorem inv_of_run {R : CallRing} {Holds : Shared → ℕ → List Record → Prop} (hR : R.Fifo Holds)
    {mapping : Mapping} (hfresh : mapping.shared = Shared.fresh) {s : State} {tr : List Event}
    (h : (machine R mapping).Run Matching s tr) (hlt : takenBytes tr < 2^64) : Inv Holds s tr := by
  refine h.invariant_of (fun tr => takenBytes tr < 2^64) ?_ (Inv Holds) ?_ ?_ hlt
  · intro tr e hbound
    rw [takenBytes_append] at hbound
    omega
  · change Inv Holds ⟨mapping.shared, []⟩ []
    rw [hfresh]
    exact Inv.fresh hR
  · intro s tr l s' e hmatch hbound hinv hs
    exact hinv.step hR hmatch hbound hs

/-- The streams of typed messages, in any schedule of calls in which every pop expects the oldest
message. The values popped and those still in the ring are the values pushed, in order, a pop
returns, and it returns false where nothing is left. Every pop of a message yields the value pushed
exactly if the lengths popped never go down and fit 32 bits. -/
theorem roundTrip_iff (ring : RingMode) {capacityBytes : ℕ} {mapping : Mapping}
    (hcreate : createMapping capacityBytes ring.flags = .ok mapping) {s : State} {tr : List Event}
    (hrun : (machine (ring.calls mapping.capacity) mapping).Run Matching s tr)
    (hlt : takenBytes tr < 2^64) :
    ((∀ p ∈ (log tr).delivered, p.2 = some p.1) ↔ Grows (log tr).lengths) ∧
      (log tr).delivered.map Prod.fst ++ (log tr).pending.map Prod.fst = accepted tr ∧
      (∀ res ∈ (log tr).idle, res = none) ∧
      ∀ kind type, ∃ choices s' e, (machine (ring.calls mapping.capacity) mapping).step s
        ⟨.pop kind type, choices⟩ = some (s', e) := by
  have hR := RingMode.calls_fifo mapping.capacity ring
  have hinv := inv_of_run hR (createMapping_shared hcreate) hrun hlt
  refine ⟨hinv.right_iff, hinv.accepted, hinv.idle, fun kind type => ?_⟩
  obtain ⟨q, hq, -⟩ := hinv.queue
  obtain ⟨choices, m', res, hpop⟩ := hR.pop_returns hq ⟨s.buffer, true⟩
  refine ⟨choices, ⟨m', received s.buffer res⟩, .popped kind type (deliver kind type res), ?_⟩
  change Option.map _ _ = _
  rw [hpop]
  rfl

/-- `Matching`, as a test. -/
def matchingTest (_ : State) (tr : List Event) (l : Label) : Bool :=
  match l.call, (log tr).pending with
  | .pop kind type, (v, u) :: _ => decide (kind = v.kind ∧ type = u)
  | _, _ => true

/-- The test is sound. -/
theorem matching_of_test (s : State) (tr : List Event) (l : Label)
    (h : matchingTest s tr l = true) :
    Matching s tr l := by
  intro kind type v u rest hcall hpend
  rw [matchingTest, hcall, hpend] at h
  exact of_decide_eq_true h

/-- The steps of the calls that push and pop a string of `n` characters on a fresh part of a ring,
without spurious failures. -/
def callSteps (n : ℕ) : RingMode → ℕ × ℕ
  | .mpsc => (11 + n, 8 + n)
  | .mpmc => (11 + n, 9 + n)
  | .spsc => (29 + n, 8 + n)

/-- Two strings of type 7, each pushed and popped before the next. -/
def twoStrings (ring : RingMode) (first second : List UInt8) : List Label :=
  [first, second].flatMap fun chars =>
    [⟨.push (.string chars) 7, List.replicate (callSteps chars.length ring).1 false⟩,
      ⟨.pop .string 7, List.replicate (callSteps chars.length ring).2 false⟩]

/-- The string `x` and then the string `abc` come through. -/
theorem roundTrip_iff_growing : ∃ mapping s tr, createMapping 64 kFlagSPSC = .ok mapping ∧
    (machine (RingMode.spsc.calls mapping.capacity) mapping).Run Matching s tr ∧
    takenBytes tr < 2^64 ∧ (log tr).lengths = [1, 3] ∧
    ∀ p ∈ (log tr).delivered, p.2 = some p.1 := by
  obtain ⟨mapping, hmap⟩ : ∃ mapping, createMapping 64 kFlagSPSC = .ok mapping := ⟨_, rfl⟩
  obtain ⟨s, tr, hrun, htest⟩ :=
    (machine (RingMode.spsc.calls mapping.capacity) mapping).exists_run matchingTest
      matching_of_test (twoStrings .spsc [120] [97, 98, 99])
      (fun _ tr => decide (takenBytes tr < 2^64 ∧ (log tr).lengths = [1, 3]))
      (by cases hmap; decide +kernel)
  obtain ⟨hlt, hlengths⟩ := of_decide_eq_true htest
  refine ⟨mapping, s, tr, hmap, hrun, hlt, hlengths, ?_⟩
  refine (roundTrip_iff .spsc hmap hrun hlt).1.mpr ?_
  rw [hlengths]
  exact ⟨by decide, by decide⟩

/-- The string `abc` and then the string `x` are popped as `abc` and `xbc`. -/
def PopsStale (ring : RingMode) : Prop :=
  ∃ mapping s tr, createMapping 64 ring.flags = .ok mapping ∧
    (machine (ring.calls mapping.capacity) mapping).Run Matching s tr ∧ takenBytes tr < 2^64 ∧
    (log tr).delivered = [(.string [97, 98, 99], some (.string [97, 98, 99])),
      (.string [120], some (.string [120, 98, 99]))]

/-- This happens on each of the rings. -/
theorem popsStale (ring : RingMode) : PopsStale ring := by
  obtain ⟨mapping, hmap⟩ : ∃ mapping, createMapping 64 ring.flags = .ok mapping := ⟨_, rfl⟩
  obtain ⟨s, tr, hrun, htest⟩ :=
    (machine (ring.calls mapping.capacity) mapping).exists_run matchingTest matching_of_test
      (twoStrings ring [97, 98, 99] [120])
      (fun _ tr => decide (takenBytes tr < 2^64 ∧
        (log tr).delivered = [(.string [97, 98, 99], some (.string [97, 98, 99])),
          (.string [120], some (.string [120, 98, 99]))]))
      (by cases hmap; cases ring <;> decide +kernel)
  obtain ⟨hlt, hdelivered⟩ := of_decide_eq_true htest
  exact ⟨mapping, s, tr, hmap, hrun, hlt, hdelivered⟩

/-- The bytes behind a shorter string are those of the one before, on all three rings. -/
theorem stale_bytes : PopsStale .mpsc ∧ PopsStale .mpmc ∧ PopsStale .spsc :=
  ⟨popsStale .mpsc, popsStale .mpmc, popsStale .spsc⟩

end LfRing.Typed

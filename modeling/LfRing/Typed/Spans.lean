import LfRing.Ring.Agreement
import LfRing.Ring.Mpmc
import LfRing.Ring.Mpsc
import LfRing.Ring.Spsc
import LfRing.Typed.Messages

/-!
# Spans and what is stored of them

`try_push(std::span, type)` of the three rings, which `TypedMessageWriter::try_push_typed` calls
with an encoded string or vector. It casts the length of the span to `std::uint32_t` and calls
`try_push(data, size, type)`, which knows nothing of the bytes that were cut off.

A complete call that returns true appends a record with the payload it was given, in any memory
(`appended_of_push`). So a span that is shorter than `2^32` bytes is stored whole or refused. A
longer one is pushed as the bytes that the low 32 bits of its length count. That is refused only
where even this record is larger than the ring (`span_whole_iff`), and a span of `2^32` bytes is
taken for an empty message (`span_cut`).
-/

namespace LfRing

/-! ## What is appended -/

/-- Behind the position `t` over fillers to the end of the ring, as a position or as the counter has
it. -/
inductive BehindFillers (cap t : ℕ) : ℕ → Prop
  /-- No filler. -/
  | here : BehindFillers cap t t
  /-- One more filler. -/
  | filler {o : ℕ} (h : BehindFillers cap t o) : BehindFillers cap t (o + (cap - o % cap))
  /-- The counter's value. -/
  | counter {o : ℕ} (h : BehindFillers cap t o) : BehindFillers cap t (u64 o)

/-- Fillers behind fillers. -/
theorem BehindFillers.trans {cap t t' o : ℕ} (h : BehindFillers cap t t')
    (h' : BehindFillers cap t' o) :
    BehindFillers cap t o := by
  induction h' with
  | here => exact h
  | filler _ ih => exact .filler ih
  | counter _ ih => exact .counter ih

/-- Between the memories `m` and `m'` a record with this payload and type has been appended: it
stands at the old tail or behind fillers there, and the new tail is behind it. -/
def Appended (cap : ℕ) (m m' : Shared) (payload : List UInt8) (type : ℕ) : Prop :=
  ∃ o n, BehindFillers cap m.control.tailPublish o ∧
    m'.control.tailPublish = u64 (o + recordSize payload.length) ∧
    (Chunk.record ⟨⟨payload, type⟩, n⟩).At cap m'.ring o

/-- A record is there once its stores have been made and then that of its number. -/
theorem at_of_numbered {cap o : ℕ} {ring : Memory} {r : Record}
    (h : ∀ st ∈ (Chunk.record r).stores (o % cap), Store.Holds ring st) (n : ℕ) :
    (Chunk.record { r with sequence := n }).At cap
      ((⟨o % cap + 8, leBytes 8 n⟩ : Store).apply ring) o := by
  intro st hst
  rcases Chunk.mem_stores_sequence hst with rfl | ⟨hmem, hdisj⟩
  · exact Store.holds_apply _ _
  · exact (h st hmem).apply_of_disjoint hdisj

section Append

variable {cap : ℕ} {a : PushArgs} {m m' : Shared} {out : PushResult}

/-- A reservation that is carried out appends the record. -/
theorem Reservation.appended {r : Reservation} (ha : r.args.Accepted cap)
    (hstart : r.start = m.control.tailPublish)
    (hpad : r.padding = 0 ∨ (0 < r.padding ∧ r.padding = cap - r.start % cap)) :
    Appended cap m (r.carriedOut cap m) r.args.payload r.args.type := by
  have hlen := ha.length_payload
  have hcap : 0 < cap := by
    have hsize := r.args.le_recordSize
    have hle := ha.recordSize_le
    omega
  have hpos : r.recordPos cap = (r.start + r.padding) % cap := by
    unfold recordPos
    rcases hpad with hzero | ⟨hpos, heq⟩
    · rw [hzero, if_neg (Nat.lt_irrefl 0), Nat.add_zero]
    · rw [if_pos hpos, heq, add_sub_mod_self hcap]
  refine ⟨r.start + r.padding, u64 (m.control.sequence + 1), ?_, ?_, ?_⟩
  · rw [← hstart]
    rcases hpad with hzero | ⟨-, heq⟩
    · rw [hzero]
      exact .here
    · rw [heq]
      exact .filler .here
  · rw [hlen, Nat.add_assoc]
    rfl
  · -- The stores of the record come last, so they are not undone by a wrap record.
    have hstores : ∀ st ∈ (Chunk.record ⟨⟨r.args.payload, r.args.type⟩, 0⟩).stores
        (r.recordPos cap), Store.Holds (Store.applyAll (r.stores cap) m.ring) st := by
      rw [Reservation.stores, Store.applyAll_append, Chunk.stores, hlen]
      have hpair := Chunk.stores_pairwise (.record ⟨⟨r.args.payload, r.args.type⟩, 0⟩)
        (r.recordPos cap)
      rw [Chunk.stores, hlen] at hpair
      exact Store.holds_applyAll hpair _
    rw [hpos] at hstores
    have hat := at_of_numbered hstores (u64 (m.control.sequence + 1))
    rw [← hpos] at hat
    exact hat

/-- `detail::try_push` appends its record if it returns true. -/
theorem appended_of_pushOutcome (h : pushOutcome cap m a = some (m', out))
    (hacc : out.accepted = true) :
    Appended cap m m' a.payload a.type := by
  unfold pushOutcome at h
  split_ifs at h with hrej
  · cases h
    cases hacc
  cases hres : reserve cap a m.control.headPublish m.control.tailReserve with
  | none =>
    rw [hres] at h
    cases h
    cases hacc
  | some r =>
    rw [hres] at h
    dsimp only at h
    split_ifs at h with hstart
    cases h
    have ha : a.Accepted cap := PushArgs.accepted_of_not_rejected hrej
    obtain ⟨rfl, htail⟩ := reserve_start hres
    refine Reservation.appended ha hstart.symm ?_
    -- The padding is nothing, or what is left of the ring.
    unfold reserve at hres
    dsimp only at hres
    split_ifs at hres
    simp only [Option.some.injEq] at hres
    have hmod : r.start % cap < cap := by
      have hsize := r.args.le_recordSize
      have hle := ha.recordSize_le
      exact Nat.mod_lt _ (by omega)
    have hpadding : r.padding = 0 ∨ r.padding = cap - r.start % cap := by
      rw [htail, ← hres]
      unfold place
      dsimp only
      split_ifs
      · exact Or.inr rfl
      · exact Or.inr rfl
      · exact Or.inl rfl
    omega

/-- `SharedRingBufferSPSC::try_push` appends its record if it returns true. -/
theorem Spsc.Pushes.appended (ha : a.Accepted cap) (h : Spsc.Pushes cap a m m' out)
    (hacc : out.accepted = true) : Appended cap m m' a.payload a.type := by
  induction h with
  | full hplace => cases hacc
  | @filler m m' c out hplace hnone _ ih =>
    obtain ⟨o, n, hbehind, htail, hat⟩ := ih hacc
    refine ⟨o, n, BehindFillers.trans ?_ hbehind, htail, hat⟩
    have hlen : c.length = cap - m.control.tailPublish % cap := by
      rcases kind_of_place hplace with rfl | ⟨-, hlen⟩
      · cases hnone
      · exact hlen
    have hmoved : (carriedOut cap a m c).control.tailPublish =
        u64 (m.control.tailPublish + (cap - m.control.tailPublish % cap)) := by
      rw [← hlen]
      cases c with
      | record r => cases hnone
      | skip len => rfl
      | wrap len => rfl
    rw [hmoved]
    exact .counter (.filler .here)
  | record hplace =>
    rw [carriedOut_record ha]
    exact Reservation.appended ha rfl (Or.inl rfl)

/-- A complete call of `try_push` that returns true appends a record with its payload and type,
whatever the memory had in it. -/
theorem appended_of_push (ring : RingMode) {choices : List Bool}
    (h : (ring.calls cap).push m a choices = some (m', out)) (hacc : out.accepted = true) :
    Appended cap m m' a.payload a.type := by
  cases ring with
  | mpsc => exact appended_of_pushOutcome (pushOutcome_of_pushCall h) hacc
  | mpmc => exact appended_of_pushOutcome (pushOutcome_of_pushCall h) hacc
  | spsc =>
    rcases Spsc.pushes_of_pushCall h with ⟨-, -, rfl⟩ | ⟨hrej, hpushes⟩
    · cases hacc
    · exact hpushes.appended (PushArgs.accepted_of_not_rejected (by simp [hrej])) hacc

/-- A call that the first checks reject returns false and has changed nothing. -/
theorem unchanged_of_rejected (ring : RingMode) (hrej : a.rejected cap = true) :
    (∃ choices x, (ring.calls cap).push m a choices = some x) ∧
      ∀ choices m' out, (ring.calls cap).push m a choices = some (m', out) →
        out.accepted = false ∧ m' = m := by
  have houtcome : pushOutcome cap m a = some (m, ⟨false, 0⟩) := by rw [pushOutcome, if_pos hrej]
  have hmany : ∀ choices m' out, pushCall cap m a choices = some (m', out) →
      out.accepted = false ∧ m' = m := by
    intro choices m' out h
    cases houtcome.symm.trans (pushOutcome_of_pushCall h)
    exact ⟨rfl, rfl⟩
  cases ring with
  | mpsc => exact ⟨⟨[], _, pushCall_rejected hrej m⟩, hmany⟩
  | mpmc => exact ⟨⟨[], _, pushCall_rejected hrej m⟩, hmany⟩
  | spsc =>
    refine ⟨⟨[], _, Spsc.pushCall_rejected hrej m⟩, ?_⟩
    intro choices m' out h
    rcases Spsc.pushes_of_pushCall h with ⟨-, rfl, rfl⟩ | ⟨hnot, -⟩
    · exact ⟨rfl, rfl⟩
    · rw [hrej] at hnot
      cases hnot

/-- In a fresh ring a call that the first checks let pass returns true. -/
theorem accepted_of_fresh (ring : RingMode) (hrej : a.rejected cap = false) {choices : List Bool}
    (h : (ring.calls cap).push Shared.fresh a choices = some (m', out)) : out.accepted = true := by
  have ha : a.Accepted cap := PushArgs.accepted_of_not_rejected (by simp [hrej])
  have hmany : pushCall cap Shared.fresh a choices = some (m', out) → out.accepted = true := by
    intro h
    obtain ⟨r, hr⟩ := (reserve_self ha 0).mpr
      (Or.inl (by rw [Nat.zero_mod]; exact ha.recordSize_le))
    have hnone : NonePending Shared.fresh := rfl
    rcases Spsc.reserved_of_pushOutcome hrej hnone (pushOutcome_of_pushCall h) with
      ⟨hnone, -⟩ | ⟨-, -, -, rfl⟩
    · cases hnone.symm.trans hr
    · rfl
  cases ring with
  | mpsc => exact hmany h
  | mpmc => exact hmany h
  | spsc =>
    rcases Spsc.pushes_of_pushCall h with ⟨hyes, -⟩ | ⟨-, hpushes⟩
    · rw [hrej] at hyes
      cases hyes
    · have hplace : Spsc.place cap a 0 0 = some (.record (Spsc.record a 0)) := by
        have hsize := a.le_recordSize
        have hle := ha.recordSize_le
        have hsum : u64 (0 + a.recordSize) ≤ a.recordSize := by
          rw [Nat.zero_add]
          exact Nat.mod_le _ _
        unfold Spsc.place sizeofRecordHeader
        dsimp only
        rw [sub64_self, Nat.zero_mod, Nat.sub_zero, if_neg (by omega), if_neg (by omega),
          if_neg (by omega), if_neg (by omega)]
      exact (hpushes.of_record hplace).2

end Append

/-! ## Spans -/

/-- A `std::span<const std::byte>`. -/
structure Span where
  /-- Its bytes. -/
  bytes : List UInt8
  /-- Whether `data()` is null. -/
  null : Bool
  /-- Only an empty span may be null. -/
  null_empty : null = true → bytes = []

/-- The arguments of `try_push` in `try_push(std::span, type)`. The length is cast to
`std::uint32_t`. -/
def Span.pushArgs (s : Span) (type : UInt16) : PushArgs where
  data := if s.null then none else some s.bytes
  size := s.bytes.length % 2^32
  type := type.toNat
  size_lt := Nat.mod_lt _ (by norm_num)
  type_lt := type.toNat_lt
  size_le := by
    intro bs hbs
    split_ifs at hbs
    cases hbs
    exact Nat.mod_le _ _

/-- The arguments pass on the bytes that the low 32 bits of the length count. -/
structure PushArgs.CutFrom (a : PushArgs) (bytes : List UInt8) : Prop where
  /-- The size passed on. -/
  size_eq : a.size = bytes.length % 2^32
  /-- The bytes passed on. -/
  payload_eq : a.payload = bytes.take (bytes.length % 2^32)
  /-- A null pointer comes without bytes. -/
  size_of_null : a.data = none → a.size = 0

/-- The span overload cuts. -/
theorem Span.cutFrom (s : Span) (type : UInt16) : (s.pushArgs type).CutFrom s.bytes := by
  refine ⟨rfl, ?_, ?_⟩
  · unfold pushArgs PushArgs.payload
    dsimp only
    split_ifs with hnull
    · rw [s.null_empty hnull, List.take_nil]
      rfl
    · rfl
  · intro hnone
    unfold pushArgs at hnone ⊢
    dsimp only at hnone ⊢
    split_ifs at hnone with hnull
    rw [s.null_empty hnull]
    rfl

/-- `try_push_typed` cuts. -/
theorem Typed.pushArgs_cutFrom (v : Typed.Value) (type : UInt16) :
    (Typed.pushArgs v type).CutFrom v.encode := by
  refine ⟨rfl, rfl, ?_⟩
  intro hnone
  cases hnone

/-- No record of the ring can store `n` bytes: the header has 32 bits for the length, and the ring
has its capacity. -/
def TooLong (cap n : ℕ) : Prop := 2^32 ≤ n ∨ cap < recordSize n

/-- A push of these bytes, made with the arguments `a`, stores them whole or not at all: if it
returns true the record appended has them for its payload, and if they are too long it returns false
and changes nothing. -/
structure StoresWhole (ring : RingMode) (cap : ℕ) (m : Shared) (a : PushArgs) (bytes : List UInt8) :
    Prop where
  /-- The record appended. -/
  appended : ∀ choices m' out, (ring.calls cap).push m a choices = some (m', out) →
    out.accepted = true → Appended cap m m' bytes a.type
  /-- What is too long is refused. -/
  refused : TooLong cap bytes.length → (∃ choices x, (ring.calls cap).push m a choices = some x) ∧
    ∀ choices m' out, (ring.calls cap).push m a choices = some (m', out) →
      out.accepted = false ∧ m' = m

/-- A reachable memory in which no call is under way. -/
def RingMode.Quiescent (mapping : Mapping) (m : Shared) : RingMode → Prop
  | mpsc => ∃ tr, (Mpsc.machine mapping).Reaches ⟨m, fun _ => .idle, .idle⟩ tr
  | mpmc => ∃ tr, (Mpmc.machine mapping).Reaches ⟨m, fun _ => .idle, fun _ => .idle⟩ tr
  | spsc => ∃ tr, (Spsc.machine mapping).Reaches ⟨m, .idle, .idle⟩ tr

/-- A fresh ring is quiescent. -/
theorem RingMode.quiescent_shared (mapping : Mapping) (ring : RingMode) :
    ring.Quiescent mapping mapping.shared := by
  cases ring with
  | mpsc => exact ⟨[], .init⟩
  | mpmc => exact ⟨[], .init⟩
  | spsc => exact ⟨[], .init⟩

/-- The length is passed on as it is, or what is left of it is too much for the ring. -/
def PassedOn (cap n : ℕ) : Prop := n < 2^32 ∨ cap < recordSize (n % 2^32)

section Whole

variable {cap : ℕ} {a : PushArgs} {bytes : List UInt8}

/-- The first checks look at the length that is left. -/
theorem PushArgs.CutFrom.rejected_iff (h : a.CutFrom bytes) :
    a.rejected cap = true ↔ cap < LfRing.recordSize (bytes.length % 2^32) := by
  have hnull : (a.data.isNone && a.size != 0) = false := by
    cases hdata : a.data with
    | none => simp [h.size_of_null hdata]
    | some bs => rfl
  rw [rejected, hnull, Bool.false_or, decide_eq_true_eq, recordSize, h.size_eq]

/-- A length that is passed on is stored whole, in every memory. -/
theorem PushArgs.CutFrom.storesWhole (h : a.CutFrom bytes) (hpassed : PassedOn cap bytes.length)
    (ring : RingMode) (m : Shared) : StoresWhole ring cap m a bytes := by
  rcases hpassed with hlt | hover
  · have hmod : bytes.length % 2^32 = bytes.length := Nat.mod_eq_of_lt hlt
    constructor
    · intro choices m' out hpush hacc
      have happ := appended_of_push ring hpush hacc
      rwa [h.payload_eq, hmod, List.take_length] at happ
    · rintro (hlong | hover)
      · omega
      · exact unchanged_of_rejected ring (h.rejected_iff.mpr (by rwa [hmod]))
  · -- Nothing is accepted here.
    have hrefused := unchanged_of_rejected (m := m) ring (h.rejected_iff.mpr hover)
    constructor
    · intro choices m' out hpush hacc
      rw [(hrefused.2 choices m' out hpush).1] at hacc
      cases hacc
    · exact fun _ => hrefused

/-- A length that is cut is accepted by a fresh ring. -/
theorem PushArgs.CutFrom.passedOn (h : a.CutFrom bytes) {ring : RingMode}
    (hwhole : StoresWhole ring cap Shared.fresh a bytes) : PassedOn cap bytes.length := by
  by_contra hnot
  obtain ⟨hlong, hfits⟩ := not_or.mp hnot
  obtain ⟨⟨choices, ⟨m', out⟩, hpush⟩, hrefused⟩ := hwhole.refused (Or.inl (not_lt.mp hlong))
  have hrej : a.rejected cap = false :=
    Bool.eq_false_iff.mpr fun hyes => hfits (h.rejected_iff.mp hyes)
  have hacc := accepted_of_fresh ring hrej hpush
  rw [(hrefused choices m' out hpush).1] at hacc
  cases hacc

/-- So the length decides whether bytes are stored whole in every quiescent state. -/
theorem PushArgs.CutFrom.storesWhole_iff (h : a.CutFrom bytes) (ring : RingMode)
    {mapping : Mapping} (hfresh : mapping.shared = Shared.fresh) :
    (∀ m, ring.Quiescent mapping m → StoresWhole ring mapping.capacity m a bytes) ↔
      PassedOn mapping.capacity bytes.length := by
  constructor
  · intro hall
    have hwhole := hall mapping.shared (ring.quiescent_shared mapping)
    rw [hfresh] at hwhole
    exact h.passedOn hwhole
  · intro hpassed m _
    exact h.storesWhole hpassed ring m

end Whole

/-- A successful span push stores the whole span, and a span that is too long is refused with the
ring unchanged, in every quiescent state of a ring exactly if the length is below `2^32`, or its low
32 bits alone make a record that is larger than the ring. That holds for each of the three rings and
for every span, and for every string and vector that a `TypedMessageWriter` pushes. -/
theorem span_whole_iff (ring : RingMode) {capacityBytes : ℕ} {mapping : Mapping}
    (hcreate : createMapping capacityBytes ring.flags = .ok mapping) (type : UInt16) :
    (∀ span : Span, (∀ m, ring.Quiescent mapping m →
        StoresWhole ring mapping.capacity m (span.pushArgs type) span.bytes) ↔
      PassedOn mapping.capacity span.bytes.length) ∧
    ∀ v : Typed.Value, (∀ m, ring.Quiescent mapping m →
        StoresWhole ring mapping.capacity m (Typed.pushArgs v type) v.encode) ↔
      PassedOn mapping.capacity v.encode.length := by
  have hfresh := createMapping_shared hcreate
  exact ⟨fun span => (span.cutFrom type).storesWhole_iff ring hfresh,
    fun v => (Typed.pushArgs_cutFrom v type).storesWhole_iff ring hfresh⟩

/-- The empty span, and one of eight bytes, are stored whole. -/
theorem span_whole_iff_short : ∃ mapping, createMapping 64 kFlagSPSC = .ok mapping ∧
    (∀ m, RingMode.spsc.Quiescent mapping m → StoresWhole .spsc mapping.capacity m
      (Span.pushArgs ⟨[], true, fun _ => rfl⟩ 7) []) ∧
    ∀ m, RingMode.spsc.Quiescent mapping m → StoresWhole .spsc mapping.capacity m
      (Typed.pushArgs (.string (List.replicate 8 65)) 7) (List.replicate 8 65) := by
  obtain ⟨mapping, hmap⟩ : ∃ mapping, createMapping 64 kFlagSPSC = .ok mapping := ⟨_, rfl⟩
  obtain ⟨hspan, htyped⟩ := span_whole_iff .spsc hmap 7
  exact ⟨mapping, hmap, (hspan ⟨[], true, fun _ => rfl⟩).mpr (Or.inl (by decide)),
    (htyped (.string (List.replicate 8 65))).mpr (Or.inl (by decide))⟩

/-- A span of `2^32` zero bytes. -/
def hugeSpan : Span := ⟨List.replicate (2^32) 0, false, by rintro ⟨⟩⟩

/-- A fresh ring of 64 bytes takes a span of `2^32` bytes, and what it appends is an empty
message. -/
def TakesCut (ring : RingMode) : Prop :=
  ∃ mapping choices m' out, createMapping 64 ring.flags = .ok mapping ∧
    ring.Quiescent mapping mapping.shared ∧
    (ring.calls mapping.capacity).push mapping.shared (hugeSpan.pushArgs 0) choices =
    some (m', out) ∧
    out.accepted = true ∧ Appended mapping.capacity mapping.shared m' [] 0 ∧
    ¬ StoresWhole ring mapping.capacity mapping.shared (hugeSpan.pushArgs 0) hugeSpan.bytes

/-- That goes for every ring, as the span's arguments are those of an empty message. -/
theorem takesCut (ring : RingMode) : TakesCut ring := by
  have hlen : hugeSpan.bytes.length = 2^32 := List.length_replicate
  have hcut := hugeSpan.cutFrom 0
  obtain ⟨mapping, hmap, hcap⟩ :
      ∃ mapping, createMapping 64 ring.flags = .ok mapping ∧ mapping.capacity = 64 := by
    cases ring with
    | mpsc => exact ⟨_, rfl, rfl⟩
    | mpmc => exact ⟨_, rfl, rfl⟩
    | spsc => exact ⟨_, rfl, rfl⟩
  have hfresh := createMapping_shared hmap
  have hnot : ¬ PassedOn mapping.capacity hugeSpan.bytes.length := by
    unfold PassedOn
    rw [hlen, hcap]
    decide
  have hrej : (hugeSpan.pushArgs 0).rejected mapping.capacity = false :=
    Bool.eq_false_iff.mpr fun hyes => hnot (Or.inr (hcut.rejected_iff.mp hyes))
  obtain ⟨choices, m', out, hpush⟩ : ∃ choices m' out,
      (ring.calls mapping.capacity).push Shared.fresh (hugeSpan.pushArgs 0) choices =
        some (m', out) := by
    have hnone : NonePending Shared.fresh := rfl
    cases ring with
    | mpsc => exact pushCall_returns hnone (by simp [hrej])
    | mpmc => exact pushCall_returns hnone (by simp [hrej])
    | spsc => exact Spsc.pushCall_returns (by simp [hrej]) (by rw [hcap]; decide)
  have hacc := accepted_of_fresh ring hrej hpush
  have happ := appended_of_push ring hpush hacc
  rw [hcut.payload_eq, hlen, Nat.mod_self, List.take_zero] at happ
  refine ⟨mapping, choices, m', out, hmap, ring.quiescent_shared mapping, ?_, hacc, ?_, ?_⟩
  · rw [hfresh]
    exact hpush
  · rw [hfresh]
    exact happ
  · rw [hfresh]
    exact fun hwhole => hnot (hcut.passedOn hwhole)

/-- All three rings take a span of `2^32` bytes for an empty message. -/
theorem span_cut : TakesCut .mpsc ∧ TakesCut .mpmc ∧ TakesCut .spsc :=
  ⟨takesCut .mpsc, takesCut .mpmc, takesCut .spsc⟩

end LfRing

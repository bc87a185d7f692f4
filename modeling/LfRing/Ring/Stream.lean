import LfRing.Library.Circular
import LfRing.Layout

/-!
# The stream of a ring

All three rings keep the same thing in their bytes: a stream of chunks, addressed modulo the
capacity. A chunk is a record, or it fills the end of the ring so that the next record starts at
offset zero. Such a filler carries a wrap record where a header has room for it, and is recognised
by its length alone where not.

`Stream cap ring o cs e` says that the ring has the chunks `cs` between the positions `o` and `e`.
The producers extend the stream at its end, the consumers take it up at its start, and neither cares
how the other does so: a stream is kept by any change of the ring outside its positions
(`Stream.frame`), and grows by what is published behind it (`Stream.append`). `Chunk.At` is what a
consumer finds at the head: the lemmas below it say what each load of `try_pop` returns.
-/

namespace LfRing

/-- A message as a producer hands it in. -/
structure Message where
  /-- The bytes of the message. -/
  payload : List UInt8
  /-- The type given along with them. -/
  type : ℕ
deriving DecidableEq, Repr

/-- A message in the ring, with the sequence number of its record. -/
structure Record extends Message where
  /-- The sequence number of the record. -/
  sequence : ℕ
deriving DecidableEq, Repr

/-- One piece of the stream. -/
inductive Chunk
  /-- The end of the ring, too short for a header. -/
  | skip (len : ℕ)
  /-- The end of the ring, starting with a wrap record. -/
  | wrap (len : ℕ)
  /-- A record. -/
  | record (r : Record)

namespace Chunk

/-- How far a chunk moves the stream. -/
def length : Chunk → ℕ
  | skip len => len
  | wrap len => len
  | record r => recordSize r.payload.length

/-- The bytes of a chunk in the ring, as the stores that put them there. -/
def stores (pos : ℕ) : Chunk → List Store
  | skip _ => []
  | wrap _ => RecordHeader.stores ⟨0, 0, kWrapFlag, 0⟩ pos
  | record r => RecordHeader.stores ⟨r.payload.length, r.type, 0, r.sequence⟩ pos ++
      payloadStores pos r.payload

/-- The chunk may stand at position `o`: a filler ends at the end of the ring, with or without room
for a header, and a record does not cross it. -/
def Fits (cap o : ℕ) : Chunk → Prop
  | skip len => len = cap - o % cap ∧ 0 < len ∧ len < 16
  | wrap len => len = cap - o % cap ∧ 16 ≤ len
  | record r => o % cap + recordSize r.payload.length ≤ cap ∧ r.payload.length < 2^32 ∧
      r.type < 2^16 ∧ r.sequence < 2^64

/-- The ring has the chunk's bytes at position `o`. -/
def At (cap : ℕ) (ring : Memory) (o : ℕ) (c : Chunk) : Prop :=
  ∀ st ∈ c.stores (o % cap), st.Holds ring

/-- The record of a chunk. -/
def record? : Chunk → Option Record
  | record r => some r
  | _ => none

/-- A chunk that fits takes some space. -/
theorem Fits.length_pos {cap o : ℕ} {c : Chunk} (h : c.Fits cap o) : 0 < c.length := by
  cases c with
  | skip len => exact h.2.1
  | wrap len =>
    have := h.2
    simp only [length]
    omega
  | record r =>
    have := le_recordSize h.2.1
    simp only [length]
    omega

/-- A chunk that fits does not cross the end of the ring. -/
theorem Fits.add_length_le {cap o : ℕ} {c : Chunk} (h : c.Fits cap o) :
    o % cap + c.length ≤ cap := by
  cases c with
  | skip len =>
    obtain ⟨h1, h2, -⟩ := h
    simp only [length]
    omega
  | wrap len =>
    obtain ⟨h1, h2⟩ := h
    simp only [length]
    omega
  | record r => exact h.1

/-- The fields of a header lie in its sixteen bytes, and none is empty. -/
theorem header_stores_within {h : RecordHeader} {pos : ℕ} {st : Store} (hst : st ∈ h.stores pos) :
    ∃ k, st.addr = pos + k ∧ k + st.bytes.length ≤ 16 ∧ 0 < st.bytes.length := by
  simp only [RecordHeader.stores, List.mem_cons, List.not_mem_nil, or_false] at hst
  rcases hst with rfl | rfl | rfl | rfl
  · exact ⟨0, by simp⟩
  · exact ⟨4, by simp⟩
  · exact ⟨6, by simp⟩
  · exact ⟨8, by simp⟩

/-- The payload's bytes lie behind the header. -/
theorem payload_stores_within {payload : List UInt8} {pos : ℕ} {st : Store}
    (hst : st ∈ payloadStores pos payload) :
    ∃ k, st.addr = pos + k ∧ 16 ≤ k ∧ k + st.bytes.length ≤ 16 + payload.length ∧
      0 < st.bytes.length := by
  obtain ⟨i, hi, rfl⟩ := List.mem_mapIdx.mp hst
  exact ⟨16 + i, by simp only [sizeofRecordHeader]; omega, by omega,
    by simp only [List.length_singleton]; omega, by simp⟩

/-- Every store of a chunk that fits covers positions of the chunk. -/
theorem Fits.covers {cap o : ℕ} {c : Chunk} (h : c.Fits cap o) {st : Store}
    (hst : st ∈ c.stores (o % cap)) : st.Covers cap o (o + c.length) := by
  have hfit := h.add_length_le
  -- The store's offset and length within the chunk are all that matters.
  suffices hk : ∃ k, st.addr = o % cap + k ∧ k + st.bytes.length ≤ c.length ∧
      0 < st.bytes.length by
    obtain ⟨k, h1, h2, h3⟩ := hk
    have := Store.covers_of_fits hfit h2 h3
    rwa [← h1] at this
  cases c with
  | skip len => simp [stores] at hst
  | wrap len =>
    obtain ⟨k, h1, h2, h3⟩ := header_stores_within hst
    exact ⟨k, h1, le_trans h2 h.2, h3⟩
  | record r =>
    have hle := le_recordSize h.2.1
    simp only [length]
    rcases List.mem_append.mp hst with hst | hst
    · obtain ⟨k, h1, h2, h3⟩ := header_stores_within hst
      exact ⟨k, h1, by omega, h3⟩
    · obtain ⟨k, h1, -, h2, h3⟩ := payload_stores_within hst
      exact ⟨k, h1, by omega, h3⟩

/-- The stores of a chunk do not overlap. -/
theorem stores_pairwise (c : Chunk) (pos : ℕ) : (c.stores pos).Pairwise Store.Disjoint := by
  have hheader : ∀ h : RecordHeader, (h.stores pos).Pairwise Store.Disjoint := by
    intro h
    simp [RecordHeader.stores, Store.Disjoint]
  cases c with
  | skip len => exact List.Pairwise.nil
  | wrap len => exact hheader _
  | record r =>
    refine List.pairwise_append.mpr ⟨hheader _, ?_, ?_⟩
    · rw [payloadStores, List.pairwise_iff_getElem]
      intro i j hi hj hij
      simp only [List.getElem_mapIdx, Store.Disjoint, List.length_singleton]
      omega
    · intro st hst st' hst'
      obtain ⟨k, h1, h2, -⟩ := header_stores_within hst
      obtain ⟨k', h1', h2', -⟩ := payload_stores_within hst'
      unfold Store.Disjoint
      omega

/-- Giving a record its sequence number changes one of its stores, from which the others are
disjoint. -/
theorem mem_stores_sequence {r : Record} {pos n : ℕ} {st : Store}
    (hst : st ∈ (record { r with sequence := n }).stores pos) :
    st = ⟨pos + 8, leBytes 8 n⟩ ∨
      (st ∈ (record r).stores pos ∧ st.Disjoint ⟨pos + 8, leBytes 8 n⟩) := by
  simp only [stores, RecordHeader.stores, List.cons_append, List.nil_append, List.mem_cons] at hst ⊢
  rcases hst with rfl | rfl | rfl | rfl | hst
  · exact Or.inr ⟨Or.inl rfl, by simp [Store.Disjoint]⟩
  · exact Or.inr ⟨Or.inr (Or.inl rfl), by simp [Store.Disjoint]⟩
  · exact Or.inr ⟨Or.inr (Or.inr (Or.inl rfl)), by simp [Store.Disjoint]⟩
  · exact Or.inl rfl
  · obtain ⟨k, h1, h2, -⟩ := payload_stores_within hst
    refine Or.inr ⟨by simp [hst], ?_⟩
    simp only [Store.Disjoint, length_leBytes]
    omega

/-- A chunk's bytes stay when the ring keeps its positions. -/
theorem At.frame {cap o : ℕ} {ring ring' : Memory} {c : Chunk} (hfit : c.Fits cap o)
    (h : c.At cap ring o) (hag : AgreeOn cap ring ring' o (o + c.length)) : c.At cap ring' o :=
  fun st hst => (h st hst).of_agreeOn (hfit.covers hst) hag

section Loads

variable {cap o : ℕ} {ring : Memory}

/-- A wrap record's flags. -/
theorem At.wrap_flags {len : ℕ} (h : (wrap len).At cap ring o) :
    ring.load (o % cap + 6) 2 = kWrapFlag :=
  (h ⟨o % cap + 6, leBytes 2 kWrapFlag⟩ (by simp [stores, RecordHeader.stores])).load_eq
    (by decide)

variable {r : Record}

/-- A record's flags are clear. -/
theorem At.record_flags (h : (record r).At cap ring o) : ring.load (o % cap + 6) 2 = 0 :=
  (h ⟨o % cap + 6, leBytes 2 0⟩ (by simp [stores, RecordHeader.stores])).load_eq (by decide)

/-- A record's size field is the length of its payload. -/
theorem At.record_size (hfit : (record r).Fits cap o) (h : (record r).At cap ring o) :
    ring.load (o % cap) 4 = r.payload.length :=
  (h ⟨o % cap, leBytes 4 r.payload.length⟩ (by simp [stores, RecordHeader.stores])).load_eq
    (by have := hfit.2.1; norm_num; omega)

/-- A record's type field. -/
theorem At.record_type (hfit : (record r).Fits cap o) (h : (record r).At cap ring o) :
    ring.load (o % cap + 4) 2 = r.type :=
  (h ⟨o % cap + 4, leBytes 2 r.type⟩ (by simp [stores, RecordHeader.stores])).load_eq
    (by have := hfit.2.2.1; norm_num; omega)

/-- A record's sequence field. -/
theorem At.record_sequence (hfit : (record r).Fits cap o) (h : (record r).At cap ring o) :
    ring.load (o % cap + 8) 8 = r.sequence :=
  (h ⟨o % cap + 8, leBytes 8 r.sequence⟩ (by simp [stores, RecordHeader.stores])).load_eq
    (by have := hfit.2.2.2; norm_num; omega)

/-- A record's payload bytes. -/
theorem At.record_byte (h : (record r).At cap ring o) {i : ℕ} (hi : i < r.payload.length) :
    ring (o % cap + 16 + i) = r.payload[i] := by
  have hin : (⟨o % cap + 16 + i, [r.payload[i]]⟩ : Store) ∈ (record r).stores (o % cap) := by
    simp only [stores, List.mem_append]
    right
    exact List.mem_mapIdx.mpr ⟨i, hi, rfl⟩
  have := h _ hin
  simpa [Store.Holds, Memory.read] using this

end Loads

section Recognition

variable {cap o : ℕ} {ring : Memory} {c : Chunk}

/-- Where no header has room before the end of the ring, there is a skip. -/
theorem Fits.of_short (hfit : c.Fits cap o) (hshort : cap - o % cap < 16) :
    c.record? = none ∧ c.length = cap - o % cap := by
  cases c with
  | skip len => exact ⟨rfl, hfit.1⟩
  | wrap len =>
    have := hfit.1
    have := hfit.2
    omega
  | record r =>
    have := hfit.1
    have := le_recordSize hfit.2.1
    omega

/-- A header with the wrap flag is that of a wrap record. -/
theorem At.of_wrapFlag (hfit : c.Fits cap o) (h : c.At cap ring o) (hroom : 16 ≤ cap - o % cap)
    (hflag : ring.load (o % cap + 6) 2 &&& kWrapFlag ≠ 0) :
    c.record? = none ∧ c.length = cap - o % cap := by
  cases c with
  | skip len =>
    have := hfit.1
    have := hfit.2.2
    omega
  | wrap len => exact ⟨rfl, hfit.1⟩
  | record r =>
    rw [h.record_flags] at hflag
    exact absurd (Nat.zero_and _) hflag

/-- A header without the wrap flag is that of a record. -/
theorem At.of_not_wrapFlag (hfit : c.Fits cap o) (h : c.At cap ring o)
    (hroom : 16 ≤ cap - o % cap) (hflag : ring.load (o % cap + 6) 2 &&& kWrapFlag = 0) :
    ∃ r, c = record r := by
  cases c with
  | skip len =>
    have := hfit.1
    have := hfit.2.2
    omega
  | wrap len =>
    rw [h.wrap_flags] at hflag
    exact absurd hflag (by decide)
  | record r => exact ⟨r, rfl⟩

end Recognition

end Chunk

/-- The ring has the chunks `cs` between the positions `o` and `e`. -/
def Stream (cap : ℕ) (ring : Memory) : ℕ → List Chunk → ℕ → Prop
  | o, [], e => o = e
  | o, c :: cs, e => c.Fits cap o ∧ c.At cap ring o ∧ Stream cap ring (o + c.length) cs e

/-- The records of a stream. -/
def records (cs : List Chunk) : List Record := cs.filterMap Chunk.record?

/-- An empty stream has no records. -/
@[simp] theorem records_nil : records [] = [] := rfl

/-- The records of two streams, one after the other. -/
@[simp] theorem records_append (cs ds : List Chunk) :
    records (cs ++ ds) = records cs ++ records ds := by
  simp [records]

/-- Skipped bytes have no record. -/
@[simp] theorem records_singleton_skip (n : ℕ) : records [.skip n] = [] := rfl

/-- A wrap marker has no record. -/
@[simp] theorem records_singleton_wrap (n : ℕ) : records [.wrap n] = [] := rfl

/-- A record is its own. -/
@[simp] theorem records_singleton_record (r : Record) : records [.record r] = [r] := rfl

/-- The length of a stream. -/
def span (cs : List Chunk) : ℕ := (cs.map Chunk.length).sum

/-- An empty stream has length zero. -/
@[simp] theorem span_nil : span [] = 0 := rfl

/-- The length of a stream, from its first chunk on. -/
@[simp] theorem span_cons (c : Chunk) (cs : List Chunk) : span (c :: cs) = c.length + span cs := by
  simp [span]

/-- The lengths of two streams add up. -/
@[simp] theorem span_append (cs ds : List Chunk) : span (cs ++ ds) = span cs + span ds := by
  simp [span]

namespace Stream

variable {cap : ℕ} {ring ring' : Memory} {o e f : ℕ} {cs ds : List Chunk} {c : Chunk}

/-- A stream does not run backwards. -/
theorem le (h : Stream cap ring o cs e) : o ≤ e := by
  induction cs generalizing o with
  | nil => exact le_of_eq h
  | cons c cs ih =>
    have := ih h.2.2
    omega

/-- A stream that has not moved is empty. -/
theorem eq_nil (h : Stream cap ring o cs o) : cs = [] := by
  cases cs with
  | nil => rfl
  | cons c cs =>
    obtain ⟨hfit, -, hrest⟩ := h
    have := hrest.le
    have := hfit.length_pos
    omega

/-- A stream that has moved has a first chunk. -/
theorem exists_cons (h : Stream cap ring o cs e) (hne : o ≠ e) : ∃ c ds, cs = c :: ds := by
  cases cs with
  | nil => exact absurd h hne
  | cons c ds => exact ⟨c, ds, rfl⟩

/-- What is published behind a stream extends it. -/
theorem append (h : Stream cap ring o cs e) (h' : Stream cap ring e ds f) :
    Stream cap ring o (cs ++ ds) f := by
  induction cs generalizing o with
  | nil =>
    obtain rfl : o = e := h
    exact h'
  | cons c cs ih => exact ⟨h.1, h.2.1, ih h.2.2⟩

/-- A stream stays when the ring keeps its positions. -/
theorem frame (h : Stream cap ring o cs e) (hag : AgreeOn cap ring ring' o e) :
    Stream cap ring' o cs e := by
  induction cs generalizing o with
  | nil => exact h
  | cons c cs ih =>
    obtain ⟨hfit, hat, hrest⟩ := h
    have hle := hrest.le
    exact ⟨hfit, hat.frame hfit (hag.mono le_rfl hle), ih hrest (hag.mono (by omega) le_rfl)⟩

/-- A part of a stream does not end behind it. -/
theorem le_of_append (h : Stream cap ring o (cs ++ ds) e) (h' : Stream cap ring o cs f) :
    f ≤ e := by
  induction cs generalizing o with
  | nil =>
    obtain rfl : o = f := h'
    exact h.le
  | cons c cs ih => exact ih h.2.2 h'.2.2

/-- The stream of one chunk. -/
theorem singleton (hfit : c.Fits cap o) (hat : c.At cap ring o) :
    Stream cap ring o [c] (o + c.length) :=
  ⟨hfit, hat, rfl⟩

/-- A stream in two parts. -/
theorem split (h : Stream cap ring o (cs ++ ds) e) :
    ∃ mid, Stream cap ring o cs mid ∧ Stream cap ring mid ds e := by
  induction cs generalizing o with
  | nil => exact ⟨o, rfl, h⟩
  | cons c cs ih =>
    obtain ⟨mid, h1, h2⟩ := ih h.2.2
    exact ⟨mid, ⟨h.1, h.2.1, h1⟩, h2⟩

/-- A stream ends where its chunks do. -/
theorem eq_add_span (h : Stream cap ring o cs e) : e = o + span cs := by
  induction cs generalizing o with
  | nil => exact h.symm
  | cons c cs ih =>
    rw [ih h.2.2, span_cons]
    omega

end Stream

/-! ## Records with their positions -/

/-- The records of a stream that starts at `o`, with their positions. -/
def recordsAt : ℕ → List Chunk → List (ℕ × Record)
  | _, [] => []
  | o, c :: cs => (c.record?.toList.map fun r => (o, r)) ++ recordsAt (o + c.length) cs

/-- The positions do not change which records there are. -/
theorem map_snd_recordsAt (o : ℕ) (cs : List Chunk) :
    (recordsAt o cs).map Prod.snd = records cs := by
  induction cs generalizing o with
  | nil => rfl
  | cons c cs ih =>
    rw [recordsAt, List.map_append, ih]
    cases c <;> rfl

/-- The records of a stream in two parts. -/
theorem recordsAt_append (o : ℕ) (cs ds : List Chunk) :
    recordsAt o (cs ++ ds) = recordsAt o cs ++ recordsAt (o + span cs) ds := by
  induction cs generalizing o with
  | nil => rfl
  | cons c cs ih =>
    rw [List.cons_append, recordsAt, recordsAt, ih, span_cons, List.append_assoc, Nat.add_assoc]

end LfRing

import LfRing.Bounds
import LfRing.Latest.Slot
import LfRing.Queue.Fifo
import LfRing.Ring.Contained
import LfRing.Ring.Spsc

/-!
# Taking over an existing file

A file is made for one geometry, and later opened or claimed for another, or for the same one. What
each of `SharedLatest`, `SPSCQueue` and `SharedRingBufferSPSC` checks of the geometry is different.

`SPSCQueue` compares the capacity in the file with `Capacity * sizeof(T)`. But `create_mapping` has
rounded that up to a multiple of eight, so the queue that made the file is refused itself unless the
product is one already (`reopens_iff`).

`SharedLatest` compares nothing, and `SharedRingBufferSPSC::claim` ignores the capacity asked for if
there is a file. `takeover_iff` says exactly when the region is large enough.
-/

namespace LfRing

/-! ## What a created file holds -/

section Created

variable {capacityBytes flags expectedFlags : ℕ} {created mapping : Mapping} (shared : Shared)

/-- A file that was created is opened as it is, whatever has happened to its control block and
ring. -/
theorem openMapping_created (h : createMapping capacityBytes flags = .ok created)
    (hlt : capacityBytes + 392 ≤ 2^64) :
    openMapping { created with shared := shared } flags =
      .ok { created with shared := shared } := by
  obtain ⟨hcap, hheader, hsize⟩ := createMapping_fields h
  have hoffset : u64 (headerRegionSize + controlRegionSize) = 384 := by decide
  have hround : alignUp capacityBytes kAlignment = (capacityBytes + 7) / 8 * 8 :=
    alignUp_kAlignment (by omega)
  rw [hoffset, hround, u64_of_lt (by omega)] at hsize
  rw [hoffset, hround] at hheader
  have hopen := openMapping_eq_ok { created with shared := shared } flags
    (by simp only [hsize, sizeofHeader]; omega) (by simp only [hheader]) (by simp only [hheader])
    (by simp only [hheader])
    (by simp only [hheader, hsize]; rw [u64_of_lt (by omega)])
    (by simp only [hheader, hsize, headerRegionSize_eq, sizeofControlBlock_eq, u64]; omega)
  rw [hopen, hheader, ← hround, ← hcap]

/-- Whatever is opened of a file that was created, its capacity is what was asked for, rounded
up. -/
theorem capacity_of_openMapping (h : createMapping capacityBytes flags = .ok created)
    (hopen : openMapping { created with shared := shared } expectedFlags = .ok mapping) :
    mapping.capacity = alignUp capacityBytes kAlignment ∧ flags = expectedFlags := by
  obtain ⟨rfl, -, -⟩ := openMapping_checks hopen
  obtain ⟨-, hheader, -⟩ := createMapping_fields h
  refine ⟨by simp only [hheader], ?_⟩
  by_contra hne
  simp only [openMapping, hheader, ne_eq, not_true_eq_false, hne, not_false_eq_true, if_true,
    if_false] at hopen
  split_ifs at hopen

end Created

/-! ## A queue opened by its own type -/

namespace Queue

/-- The mapping has its ring where the created one has it, inside the file, with at least `needed`
bytes. -/
def Reopened (created mapping : Mapping) (needed : ℕ) : Prop :=
  mapping.header.ringOffset = created.header.ringOffset ∧ needed ≤ mapping.capacity ∧
    mapping.header.ringOffset + mapping.capacity ≤ mapping.mappingSize

variable {g : Geometry} {created : Mapping} (shared : Shared)

/-- A product below `2^64` is asked for as it is. -/
theorem Geometry.bytes_eq (h : g.capacity * g.sizeofT < 2^64) : g.bytes = g.capacity * g.sizeofT :=
  u64_of_lt h

/-- `open` and `claim` of the file that `create` has made for the same type succeed if and only if
`Capacity * sizeof(T)` was not rounded up. -/
theorem open_claim_created (hlt : g.capacity * g.sizeofT < 2^63)
    (h : createMapping g.bytes kFlagFixedSPSC = .ok created) :
    ((∃ mapping, openFile g { created with shared := shared } = .ok mapping ∧
        Reopened created mapping (g.capacity * g.sizeofT)) ∧
      ∃ mapping, claim g (some { created with shared := shared }) = .ok (.resumed, mapping) ∧
        Reopened created mapping (g.capacity * g.sizeofT)) ↔ created.capacity = g.bytes := by
  have hbytes := g.bytes_eq (show g.capacity * g.sizeofT < 2^64 by omega)
  have hopen := openMapping_created shared h (by omega)
  have hbounds := ((createMapping_inBounds_iff (by omega) h).mpr (by omega)).1.2.1
  constructor
  · rintro ⟨⟨mapping, hmap, -⟩, -⟩
    by_contra hne
    rw [openFile, hopen] at hmap
    simp only [ne_eq, hne, not_false_eq_true, if_true, reduceCtorEq] at hmap
  · intro heq
    have hreopened : Reopened created { created with shared := shared } (g.capacity * g.sizeofT) :=
      ⟨rfl, by rw [← hbytes, ← heq], hbounds⟩
    constructor
    · refine ⟨_, ?_, hreopened⟩
      rw [openFile, hopen]
      simp only [heq, ne_eq, not_true_eq_false, if_false]
    · refine ⟨_, ?_, hreopened⟩
      rw [claim, hopen]
      simp only [heq, ne_eq, not_true_eq_false, if_false]

/-- A queue can be reopened by its own type exactly when its slots take a multiple of eight bytes.
For every element size and every power of two `Capacity` with a product below `2^63`, `create` makes
a file, and `open` and `claim` for the same type, whatever has happened to the queue since, succeed
and give a ring of at least that many bytes at the same offset, if and only if eight divides the
product. -/
theorem reopens_iff (g : Geometry) (shared : Shared) (hsize : 0 < g.sizeofT)
    (hlt : g.capacity * g.sizeofT < 2^63) :
    ∃ created, createMapping g.bytes kFlagFixedSPSC = .ok created ∧
      (((∃ mapping, openFile g { created with shared := shared } = .ok mapping ∧
          Reopened created mapping (g.capacity * g.sizeofT)) ∧
        ∃ mapping, claim g (some { created with shared := shared }) = .ok (.resumed, mapping) ∧
          Reopened created mapping (g.capacity * g.sizeofT)) ↔ 8 ∣ g.capacity * g.sizeofT) := by
  have hbytes := g.bytes_eq (show g.capacity * g.sizeofT < 2^64 by omega)
  have hpos : 0 < g.capacity * g.sizeofT := Nat.mul_pos g.powerOfTwo.1 hsize
  obtain ⟨created, hcreate⟩ : ∃ created, createMapping g.bytes kFlagFixedSPSC = .ok created := by
    unfold createMapping
    rw [if_neg (by omega)]
    exact ⟨_, rfl⟩
  refine ⟨created, hcreate, (open_claim_created shared hlt hcreate).trans ?_⟩
  rw [(createMapping_fields hcreate).1, hbytes, alignUp_kAlignment (by omega)]
  omega

/-- A queue of two values of eight bytes can be reopened. -/
theorem reopens_iff_words : ∃ created, createMapping 16 kFlagFixedSPSC = .ok created ∧
    ∃ mapping, openFile ⟨2, 8, by decide, by decide⟩ created = .ok mapping ∧
      Reopened created mapping 16 := by
  obtain ⟨created, hcreate, hiff⟩ :=
    reopens_iff ⟨2, 8, by decide, by decide⟩ Shared.fresh (by decide) (by decide)
  obtain ⟨⟨mapping, hopen, hregion⟩, -⟩ := hiff.mpr (by decide)
  rw [← createMapping_shared hcreate] at hopen
  exact ⟨created, hcreate, mapping, hopen, hregion⟩

/-- A queue of four single bytes cannot: the file has eight bytes for it, and it expects four. -/
theorem refused_by_own_type : ∃ created, createMapping 4 kFlagFixedSPSC = .ok created ∧
    openFile ⟨4, 1, by decide, by decide⟩ created =
      .error "SPSCQueue::open capacity mismatch: file has 8 bytes, expected 4" ∧
    claim ⟨4, 1, by decide, by decide⟩ (some created) =
      .error "SPSCQueue::claim capacity mismatch: file has 8 bytes, expected 4" := by
  obtain ⟨created, hcreate⟩ : ∃ created, createMapping 4 kFlagFixedSPSC = .ok created := ⟨_, rfl⟩
  have hopen := openMapping_created Shared.fresh hcreate (by decide)
  rw [← createMapping_shared hcreate] at hopen
  have hcap : created.capacity = 8 := (createMapping_fields hcreate).1
  refine ⟨created, hcreate, ?_, ?_⟩
  · rw [openFile, hopen]
    simp only [hcap]
    rfl
  · rw [claim, hopen]
    simp only [hcap]
    rfl

end Queue

/-! ## The bytes that the operations address -/

namespace Latest

variable {size : ℕ}

/-- The mapping that `claim` works on, with the file at the path if there is one. What it does to
the control block and the ring of that is in `WriterPc`. -/
def claimFile (size : ℕ) : Option Mapping → Except String Mapping
  | none => createMapping size kFlagLatest
  | some file => openMapping file kFlagLatest

/-- The byte of the ring that the next step of a writer stores to. -/
def WriterPc.address? : WriterPc size → Option ℕ
  | clear addr => some addr
  | copy _ _ i _ => some i
  | _ => none

/-- The byte of the ring that the next step of a reader loads. -/
def ReadPc.address? : ReadPc size → Option ℕ
  | copy _ _ _ j _ => some j
  | _ => none

/-- In every run on the mapping, whatever is in its memory, every byte addressed lies in the
ring. -/
def InRange (size : ℕ) (mapping : Mapping) : Prop :=
  ∀ shared start s tr, (machine size { mapping with shared := shared } start).Reaches s tr →
    (∀ i a, (s.writers i).address? = some a → a < mapping.capacity) ∧
      ∀ i a, (s.readers i).address? = some a → a < mapping.capacity

/-- A writer stores to bytes of the value or of the ring. -/
theorem WriterPc.address_step {cap now : ℕ} {m : Shared} {pc pc' : WriterPc size}
    {l : WriterLabel size} {eff : Effect} {e : WriterEvent size} (hsize : size ≤ cap)
    (hs : pc.step cap m now l = some (eff, pc', e)) {a : ℕ} (ha : pc'.address? = some a) :
    a < cap := by
  have hclearing : ∀ addr, (clearing cap addr : WriterPc size).address? = some a → a < cap := by
    intro addr h
    unfold clearing at h
    split_ifs at h with hlt
    · cases h
      exact hlt
    · cases h
  have hcopying : ∀ v s i notify, (copying v s i notify : WriterPc size).address? = some a →
      a < cap := by
    intro v s i notify h
    unfold copying at h
    split_ifs at h with hlt
    · cases h
      omega
    · cases h
  cases step_cases hs with
  | won oldHb t h => exact hclearing 0 ha
  | clear addr => exact hclearing (addr + 1) ha
  | begin v s notify => exact hcopying v s 0 notify ha
  | copy v s i notify => exact hcopying v s (i + 1) notify ha
  | heartbeat t notify => cases notify <;> cases ha
  | _ => cases ha

/-- A reader loads bytes of the value. -/
theorem ReadPc.address_step {now : ℕ} {m : Shared} {pc pc' : ReadPc size} {l : ReadLabel size}
    {e : ReadEvent} (hs : pc.step m now l = some (pc', e)) {a : ℕ} (ha : pc'.address? = some a) :
    a < size := by
  have hcopying : ∀ c i s1 j out, (copying c i s1 j out : ReadPc size).address? = some a →
      a < size := by
    intro c i s1 j out h
    unfold copying at h
    split_ifs at h with hlt
    · cases h
      exact hlt
    · cases h
  cases step_cases hs with
  | call c =>
    unfold enter at ha
    split at ha <;> cases ha
  | loadS1 c i out =>
    have hspin : (spin c i out).address? = none := by
      unfold spin
      split
      · split_ifs <;> rfl
      · rfl
    unfold examine at ha
    split_ifs at ha
    · exact hcopying _ _ _ 0 _ ha
    · rw [hspin] at ha
      cases ha
  | copy c i s1 j out => exact hcopying _ _ _ (j + 1) _ ha
  | _ => cases ha

/-- With a ring at least as large as the value every byte addressed lies in it. -/
theorem inRange_of_le {mapping : Mapping} (h : size ≤ mapping.capacity) : InRange size mapping := by
  intro shared start s tr hrun
  refine hrun.invariant (fun s _ =>
    (∀ i a, (s.writers i).address? = some a → a < mapping.capacity) ∧
    ∀ i a, (s.readers i).address? = some a → a < mapping.capacity) ?_ ?_
  · refine ⟨fun i a ha => ?_, fun i a ha => by cases ha⟩
    change (creator i : WriterPc size).address? = some a at ha
    unfold creator at ha
    rw [Function.update_apply] at ha
    split_ifs at ha <;> cases ha
  · rintro s tr l s' e - ⟨hw, hr⟩ hs
    change step mapping.capacity s l = some (s', e) at hs
    cases l with
    | writer i l =>
      obtain ⟨eff, pc, we, hstep, rfl, rfl⟩ := step_writer hs
      refine ⟨fun j a ha => ?_, hr⟩
      dsimp only at ha
      rw [Function.update_apply] at ha
      split_ifs at ha
      · exact WriterPc.address_step h hstep ha
      · exact hw j a ha
    | reader i l =>
      obtain ⟨pc, re, hstep, rfl, rfl⟩ := step_reader hs
      refine ⟨hw, fun j a ha => ?_⟩
      dsimp only at ha
      rw [Function.update_apply] at ha
      split_ifs at ha
      · exact lt_of_lt_of_le (ReadPc.address_step hstep ha) h
      · exact hr j a ha
    | tick d =>
      cases hs
      exact ⟨hw, hr⟩

end Latest

namespace Queue

variable {g : Geometry}

variable (g) in
/-- The byte of the ring that the next step of the producer stores to. -/
def PushPc.address? : PushPc g.sizeofT → Option ℕ
  | copy _ t i => some (g.slot t + i)
  | _ => none

variable (g) in
/-- The byte of the ring that the next step of the consumer loads. -/
def PopPc.address? : PopPc → Option ℕ
  | copy h i _ => some (g.slot h + i)
  | _ => none

/-- In every run on the mapping, whatever is in its memory, every byte addressed lies in the
ring. -/
def InRange (g : Geometry) (mapping : Mapping) : Prop :=
  ∀ shared s tr, (machine g { mapping with shared := shared }).Reaches s tr →
    (∀ a, s.producer.address? g = some a → a < mapping.capacity) ∧
      ∀ a, s.consumer.address? g = some a → a < mapping.capacity

/-- A slot ends where the slots end, or before. -/
theorem Geometry.slot_add_lt (h : g.capacity * g.sizeofT < 2^64) (t : ℕ) {i : ℕ}
    (hi : i < g.sizeofT) :
    g.slot t + i < g.capacity * g.sizeofT := by
  have hmod : t % g.capacity < g.capacity := Nat.mod_lt _ g.powerOfTwo.1
  have hend : t % g.capacity * g.sizeofT + g.sizeofT ≤ g.capacity * g.sizeofT := mul_apart hmod
  rw [slot, and_kMask, u64_of_lt (by omega)]
  omega

/-- With a ring as large as the slots every byte addressed lies in it. -/
theorem inRange_of_lt {mapping : Mapping} (h : g.capacity * g.sizeofT < 2^64)
    (hle : g.capacity * g.sizeofT ≤ mapping.capacity) : InRange g mapping := by
  have hpush : ∀ v t i a, (PushPc.copying v t i : PushPc g.sizeofT).address? g = some a →
      a < mapping.capacity := by
    intro v t i a ha
    unfold PushPc.copying at ha
    split_ifs at ha with hi
    · cases ha
      exact lt_of_lt_of_le (Geometry.slot_add_lt h t hi) hle
    · cases ha
  have hpop : ∀ t i out a, (PopPc.copying g t i out).address? g = some a →
      a < mapping.capacity := by
    intro t i out a ha
    unfold PopPc.copying at ha
    split_ifs at ha with hi
    · cases ha
      exact lt_of_lt_of_le (Geometry.slot_add_lt h t hi) hle
    · cases ha
  intro shared s tr hrun
  refine hrun.invariant (fun s _ => (∀ a, s.producer.address? g = some a → a < mapping.capacity) ∧
    ∀ a, s.consumer.address? g = some a → a < mapping.capacity)
    ⟨(fun a ha => by cases ha), (fun a ha => by cases ha)⟩ ?_
  rintro s tr l s' e - ⟨hp, hc⟩ hs
  change step { mapping with shared := shared } s l = some (s', e) at hs
  cases l with
  | producer l =>
    obtain ⟨eff, pc, pe, hstep, rfl, rfl⟩ := step_producer hs
    refine ⟨fun a ha => ?_, hc⟩
    generalize s.producer = pc₀ at hstep
    cases PushPc.step_cases hstep with
    | accept v t hroom => exact hpush v t 0 a ha
    | copy v t i => exact hpush v t (i + 1) a ha
    | _ => cases ha
  | consumer l =>
    obtain ⟨eff, pc, pe, hstep, rfl, rfl⟩ := step_consumer hs
    refine ⟨hp, fun a ha => ?_⟩
    generalize s.consumer = pc₀ at hstep
    cases PopPc.step_cases hstep with
    | accept t out hne => exact hpop t 0 out a ha
    | copy t i out => exact hpop t (i + 1) _ a ha
    | _ => cases ha
  | claim =>
    obtain ⟨-, hconsumer, hpc, -, -⟩ := step_claim hs
    refine ⟨fun a ha => ?_, by rwa [hconsumer]⟩
    rcases hpc with hpc | hpc <;> rw [hpc] at ha <;> cases ha

end Queue

namespace Spsc

/-- The mapping that `claim` works on, with the file at the path if there is one. What it does to
the control block of that is in `PushPc`. -/
def claimFile (capacityBytes : ℕ) : Option Mapping → Except String Mapping
  | none => createMapping capacityBytes kFlagSPSC
  | some file => openMapping file kFlagSPSC

/-- The store to the ring that the next step of the producer makes. -/
def PushPc.store? : PushPc → Option Store
  | store _ _ _ st _ => some st
  | storeSequence _ _ _ st _ => some st
  | _ => none

/-- In every run on the mapping, whatever is in its memory, every byte addressed lies in the
ring. -/
def InRange (mapping : Mapping) : Prop :=
  ∀ shared s tr, (machine { mapping with shared := shared }).Reaches s tr →
    (∀ st, s.producer.store? = some st → st.addr + st.bytes.length ≤ mapping.capacity) ∧
      ∀ a n, s.consumer.read? mapping.capacity = some (a, n) → a + n ≤ mapping.capacity

/-- The stores lie in the ring. -/
def StoresIn (cap : ℕ) (todo : List Store) : Prop := ∀ st ∈ todo, st.addr + st.bytes.length ≤ cap

/-- What the producer has checked before it stores to the ring. -/
def PushPc.Checked (cap : ℕ) : PushPc → Prop
  | loadHead a => a.Accepted cap
  | loadTail a _ => a.Accepted cap
  | store a tail c st todo => a.Accepted cap ∧ c.Fits cap tail ∧ StoresIn cap (st :: todo)
  | fetchSequence a tail => a.Accepted cap ∧ tail % cap + 16 ≤ cap
  | storeSequence a _ _ st todo => a.Accepted cap ∧ StoresIn cap (st :: todo)
  | reserve a _ _ => a.Accepted cap
  | publish a _ _ => a.Accepted cap
  | _ => True

namespace PushPc

/-- The bytes of a chunk that fits. -/
theorem storesIn_chunk {cap tail : ℕ} {c : Chunk} (hfit : c.Fits cap tail) :
    StoresIn cap (chunkStores cap tail c) := by
  intro st hst
  obtain ⟨x, hx, hst⟩ := List.mem_flatMap.mp hst
  exact ((hfit.covers hx).bytewise hst).addr_add_le

/-- The bytes of the sequence number. -/
theorem storesIn_number {cap tail n : ℕ} (h : tail % cap + 16 ≤ cap) :
    StoresIn cap (numberStores cap tail n) := by
  intro st hst
  obtain ⟨i, y, hi, rfl⟩ := Store.mem_bytewise hst
  rw [length_leBytes] at hi
  change tail % cap + 8 + i + 1 ≤ cap
  omega

/-- With some bytes of a chunk left. -/
theorem checked_storing {cap tail : ℕ} {a : PushArgs} {c : Chunk} {todo : List Store}
    (ha : a.Accepted cap) (hfit : c.Fits cap tail) (htodo : StoresIn cap todo) :
    (storing a tail c todo).Checked cap := by
  cases todo with
  | cons st todo => exact ⟨ha, hfit, htodo⟩
  | nil =>
    cases c with
    | record r =>
      have hle := le_recordSize hfit.2.1
      have hend := hfit.1
      exact ⟨ha, by omega⟩
    | _ => exact ha

/-- With some bytes of the sequence number left. -/
theorem checked_numbering {cap tail n : ℕ} {a : PushArgs} {todo : List Store} (ha : a.Accepted cap)
    (htodo : StoresIn cap todo) : (numbering a tail n todo).Checked cap := by
  cases todo with
  | cons st todo => exact ⟨ha, htodo⟩
  | nil => exact ha

/-- Every step checks what the next one stores, whatever is in the shared memory. -/
theorem Checked.step {cap : ℕ} {m : Shared} {pc pc' : PushPc} {l : PushLabel} {eff : Effect}
    {e : PushEvent} (h : pc.Checked cap) (hs : pc.step cap m l = some (eff, pc', e)) :
    pc'.Checked cap := by
  cases PushPc.step_cases hs with
  | call a hrej => exact PushArgs.accepted_of_not_rejected hrej
  | loadHead a => exact h
  | room a head c hplace =>
    have hfit := place_fits h hplace
    exact checked_storing h hfit (storesIn_chunk hfit)
  | store a tail c st todo =>
    exact checked_storing h.1 h.2.1 fun x hx => h.2.2 x (List.mem_cons_of_mem _ hx)
  | fetch a tail => exact checked_numbering h.1 (storesIn_number h.2)
  | number a tail n st todo =>
    exact checked_numbering h.1 fun x hx => h.2 x (List.mem_cons_of_mem _ hx)
  | reserve a tail c => exact h
  | publish a tail c =>
    cases c with
    | record r => trivial
    | _ => exact h
  | _ => trivial

/-- So it lies in the ring. -/
theorem Checked.store_le {cap : ℕ} {pc : PushPc} (h : pc.Checked cap) {st : Store}
    (hst : pc.store? = some st) : st.addr + st.bytes.length ≤ cap := by
  cases pc with
  | store a tail c x todo =>
    cases hst
    exact h.2.2 st List.mem_cons_self
  | storeSequence a tail n x todo =>
    cases hst
    exact h.2 st List.mem_cons_self
  | _ => cases hst

end PushPc

/-- Every byte addressed lies in the ring, whatever its size. -/
theorem inRange (mapping : Mapping) : InRange mapping := by
  intro shared s tr hrun
  obtain ⟨hp, hc⟩ : s.producer.Checked mapping.capacity ∧ s.consumer.Checked mapping.capacity := by
    refine hrun.invariant (fun s _ => s.producer.Checked mapping.capacity ∧
      s.consumer.Checked mapping.capacity) ⟨trivial, trivial⟩ ?_
    rintro s tr l s' e - ⟨hp, hc⟩ hs
    change step mapping.capacity s l = some (s', e) at hs
    cases l with
    | producer l =>
      obtain ⟨eff, pc, pe, hstep, rfl, rfl⟩ := step_producer hs
      exact ⟨hp.step hstep, hc⟩
    | consumer l =>
      obtain ⟨eff, pc, pe, hstep, rfl, rfl⟩ := step_consumer hs
      exact ⟨hp, hc.step hstep⟩
    | replace =>
      cases hs
      exact ⟨hp, trivial⟩
  exact ⟨fun st hst => hp.store_le hst, fun a n hread => hc.read_le hread⟩

end Spsc

/-! ## The region that is taken over -/

namespace Takeover

/-- Who has created a file, with the geometry it was created for. -/
inductive Creator
  /-- A `SharedLatest`, by `sizeof(T)`. -/
  | latest (size : ℕ)
  /-- An `SPSCQueue`. -/
  | queue (g : Queue.Geometry)
  /-- A `SharedRingBufferSPSC`, by `capacity_bytes`. -/
  | ring (capacityBytes : ℕ)

/-- Who takes it over, with the geometry it is instantiated or called with. -/
inductive Opener
  /-- `SharedLatest::open`. -/
  | latestOpen (size : ℕ)
  /-- `SharedLatest::claim`. -/
  | latestClaim (size : ℕ)
  /-- `SPSCQueue::open`. -/
  | queueOpen (g : Queue.Geometry)
  /-- `SPSCQueue::claim`. -/
  | queueClaim (g : Queue.Geometry)
  /-- `SharedRingBufferSPSC::open`, which has no capacity to ask for. -/
  | ringOpen
  /-- `SharedRingBufferSPSC::claim`. -/
  | ringClaim (capacityBytes : ℕ)

/-- `create`. -/
def Creator.create : Creator → Except String Mapping
  | latest size => createMapping size kFlagLatest
  | queue g => createMapping g.bytes kFlagFixedSPSC
  | ring capacityBytes => createMapping capacityBytes kFlagSPSC

/-- The bytes asked of `create_mapping`. -/
def Creator.bytes : Creator → ℕ
  | latest size => size
  | queue g => g.bytes
  | ring capacityBytes => capacityBytes

/-- `open` or `claim`, on a file that exists. -/
def Opener.take (file : Mapping) : Opener → Except String Mapping
  | latestOpen _ => openMapping file kFlagLatest
  | latestClaim size => Latest.claimFile size (some file)
  | queueOpen g => Queue.openFile g file
  | queueClaim g => (Queue.claim g (some file)).map Prod.snd
  | ringOpen => openMapping file kFlagSPSC
  | ringClaim capacityBytes => Spsc.claimFile capacityBytes (some file)

/-- The bytes of the ring that are needed, or asked for. -/
def Opener.needs : Opener → ℕ
  | latestOpen size => size
  | latestClaim size => size
  | queueOpen g => g.capacity * g.sizeofT
  | queueClaim g => g.capacity * g.sizeofT
  | ringOpen => 0
  | ringClaim capacityBytes => capacityBytes

/-- No operation addresses a byte outside the ring. -/
def Opener.InRange (mapping : Mapping) : Opener → Prop
  | latestOpen size => Latest.InRange size mapping
  | latestClaim size => Latest.InRange size mapping
  | queueOpen g => Queue.InRange g mapping
  | queueClaim g => Queue.InRange g mapping
  | ringOpen => Spsc.InRange mapping
  | ringClaim _ => Spsc.InRange mapping

/-- What the opener needs is no more than what the creator asked for, rounded up to the alignment. A
queue compares that itself, and needs that `Capacity * sizeof(T)` does not wrap. -/
def Suits (creator : Creator) : Opener → Prop
  | .latestOpen size => size ≤ alignUp creator.bytes kAlignment
  | .latestClaim size => size ≤ alignUp creator.bytes kAlignment
  | .queueOpen g => g.capacity * g.sizeofT < 2^64
  | .queueClaim g => g.capacity * g.sizeofT < 2^64
  | .ringOpen => True
  | .ringClaim capacityBytes => capacityBytes ≤ alignUp creator.bytes kAlignment

variable {created mapping : Mapping}

/-- The mode a file is created with. -/
def Creator.flags : Creator → ℕ
  | latest _ => kFlagLatest
  | queue _ => kFlagFixedSPSC
  | ring _ => kFlagSPSC

/-- The mode a file is opened with. -/
def Opener.flags : Opener → ℕ
  | latestOpen _ => kFlagLatest
  | latestClaim _ => kFlagLatest
  | queueOpen _ => kFlagFixedSPSC
  | queueClaim _ => kFlagFixedSPSC
  | ringOpen => kFlagSPSC
  | ringClaim _ => kFlagSPSC

/-- Every creator calls `create_mapping`, with its bytes and its mode. -/
theorem Creator.create_eq (creator : Creator) :
    creator.create = createMapping creator.bytes creator.flags := by
  cases creator <;> rfl

/-- What `SPSCQueue::open` and `claim` return has passed `open_mapping` and the comparison. -/
theorem queue_checks {g : Queue.Geometry} {file : Mapping} :
    (Queue.openFile g file = .ok mapping →
        openMapping file kFlagFixedSPSC = .ok mapping ∧ mapping.capacity = g.bytes) ∧
      ((Queue.claim g (some file)).map Prod.snd = .ok mapping →
        openMapping file kFlagFixedSPSC = .ok mapping ∧ mapping.capacity = g.bytes) := by
  rw [Queue.openFile, Queue.claim]
  cases openMapping file kFlagFixedSPSC with
  | error message => exact ⟨(fun h => by cases h), (fun h => by cases h)⟩
  | ok opened =>
    by_cases hcap : opened.capacity = g.bytes
    · simp only [hcap, ne_eq, not_true_eq_false, if_false]
      constructor <;>
        · intro h
          cases h
          exact ⟨rfl, hcap⟩
    · simp only [hcap, ne_eq, not_false_eq_true, if_true]
      exact ⟨(fun h => by cases h), (fun h => by cases h)⟩

/-- Whoever takes the file over has opened it in the mode asked for. -/
theorem Opener.openMapping_of_take {o : Opener} {file : Mapping} (h : o.take file = .ok mapping) :
    openMapping file o.flags = .ok mapping := by
  cases o with
  | queueOpen g => exact (queue_checks.1 h).1
  | queueClaim g => exact (queue_checks.2 h).1
  | _ => exact h

/-- Only a queue compares: its region has `Capacity * sizeof(T)` bytes unless the product wraps. -/
theorem queue_iff {g : Queue.Geometry} (hcap : mapping.capacity = g.bytes) :
    g.capacity * g.sizeofT ≤ mapping.capacity ∧ Queue.InRange g mapping ↔
      g.capacity * g.sizeofT < 2^64 := by
  constructor
  · rintro ⟨hle, -⟩
    have hlt : g.bytes < 2^64 := u64_lt _
    omega
  · intro hlt
    have hbytes := g.bytes_eq hlt
    exact ⟨by omega, Queue.inRange_of_lt hlt (by omega)⟩

/-- When a region that was taken over is large enough. Whoever has created the file, for whatever
geometry, and whoever opens or claims it, for whatever geometry and with whatever in its memory: if
that returns, then the ring has the bytes that are needed, and no operation addresses a byte outside
it, exactly when the geometries suit each other. -/
theorem takeover_iff (creator : Creator) (o : Opener) (shared : Shared)
    (hcreate : creator.create = .ok created)
    (htake : o.take { created with shared := shared } = .ok mapping) :
    o.needs ≤ mapping.capacity ∧ o.InRange mapping ↔ Suits creator o := by
  rw [creator.create_eq] at hcreate
  obtain ⟨hcap, -⟩ := capacity_of_openMapping shared hcreate (Opener.openMapping_of_take htake)
  cases o with
  | latestOpen size =>
    change size ≤ mapping.capacity ∧ Latest.InRange size mapping ↔
        size ≤ alignUp creator.bytes kAlignment
    rw [← hcap]
    exact ⟨fun h => h.1, fun h => ⟨h, Latest.inRange_of_le h⟩⟩
  | latestClaim size =>
    change size ≤ mapping.capacity ∧ Latest.InRange size mapping ↔
        size ≤ alignUp creator.bytes kAlignment
    rw [← hcap]
    exact ⟨fun h => h.1, fun h => ⟨h, Latest.inRange_of_le h⟩⟩
  | queueOpen g => exact queue_iff (queue_checks.1 htake).2
  | queueClaim g => exact queue_iff (queue_checks.2 htake).2
  | ringOpen => exact ⟨fun _ => True.intro, fun _ => ⟨Nat.zero_le _, Spsc.inRange mapping⟩⟩
  | ringClaim capacityBytes =>
    change capacityBytes ≤ mapping.capacity ∧ Spsc.InRange mapping ↔
      capacityBytes ≤ alignUp creator.bytes kAlignment
    rw [← hcap]
    exact ⟨fun h => h.1, fun h => ⟨h, Spsc.inRange mapping⟩⟩

/-- A file for eight bytes can be opened for four. -/
theorem takeover_iff_smaller : ∃ created mapping, (Creator.latest 8).create = .ok created ∧
    (Opener.latestOpen 4).take created = .ok mapping ∧ 4 ≤ mapping.capacity ∧
      Latest.InRange 4 mapping := by
  obtain ⟨created, hcreate⟩ : ∃ created, createMapping 8 kFlagLatest = .ok created := ⟨_, rfl⟩
  have hopen := openMapping_created created.shared hcreate (by decide)
  obtain ⟨hle, hrange⟩ := (takeover_iff (.latest 8) (.latestOpen 4) created.shared
    hcreate hopen).mpr (by decide : 4 ≤ alignUp 8 kAlignment)
  exact ⟨created, created, hcreate, hopen, hle, hrange⟩

/-- A file for eight bytes is opened for sixteen as well, and a `write` then stores to the byte
behind the ring. And a ring of sixteen bytes is claimed where sixty-four are asked for. -/
theorem too_small : (∃ created s tr, (Creator.latest 8).create = .ok created ∧
      (Opener.latestOpen 16).take created = .ok created ∧ created.capacity = 8 ∧
      (Latest.machine 16 created 0).Reaches s tr ∧ (s.writers 0).address? = some 8) ∧
    ∃ created, (Creator.ring 16).create = .ok created ∧
      (Opener.ringClaim 64).take created = .ok created ∧ created.capacity = 16 := by
  constructor
  · obtain ⟨created, hcreate⟩ : ∃ created, createMapping 8 kFlagLatest = .ok created := ⟨_, rfl⟩
    have hopen := openMapping_created created.shared hcreate (by decide)
    obtain ⟨s, tr, hrun, htest⟩ := (Latest.machine 16 created 0).exists_reaches
      (.writer 0 (.write ⟨List.replicate 16 1, rfl⟩ false) :: List.replicate 10 (.writer 0 .run))
      (fun s _ => (s.writers 0).address? == some 8)
      (by cases hcreate; decide +kernel)
    exact ⟨created, s, tr, hcreate, hopen, (createMapping_fields hcreate).1, hrun,
      beq_iff_eq.mp htest⟩
  · obtain ⟨created, hcreate⟩ : ∃ created, createMapping 16 kFlagSPSC = .ok created := ⟨_, rfl⟩
    exact ⟨created, hcreate, openMapping_created created.shared hcreate (by decide),
      (createMapping_fields hcreate).1⟩

end Takeover

end LfRing

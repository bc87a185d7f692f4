import LfRing.Mapping

/-!
# Where mappings are in bounds

What `create_mapping` and `open_mapping` hand out is used without further checks: the control block
is read at its offset, and the ring at its own, modulo the capacity. All sums on the way are taken
in 64-bit arithmetic.

`create_mapping` rounds the capacity up to a multiple of eight. From `2^64 - 7` on this wraps to
zero, and a little below it the length of the mapping does. `open_mapping` takes the offsets and the
capacity from the file, and compares their sums with the file's length after they may have wrapped.
A capacity of zero is compared with nothing. `inBounds_iff` says exactly when the mapping is in
bounds.
-/

namespace LfRing

/-- The header at the start of a file, field by field. -/
def Header.ofBytes (bytes : Memory) : Header where
  magic := bytes.load 0 4
  version := bytes.load 4 2
  headerSize := bytes.load 6 2
  capacityBytes := bytes.load 8 8
  controlOffset := bytes.load 16 8
  ringOffset := bytes.load 24 8
  alignment := bytes.load 32 8
  flags := bytes.load 40 8

/-- A file of some length that starts with these bytes, before it is opened. -/
def existingFile (size : ℕ) (bytes : Memory) (shared : Shared) : Mapping where
  mappingSize := size
  header := Header.ofBytes bytes
  capacity := 0
  shared := shared

/-- The control block and the ring lie in the mapping, and there is a ring. -/
def Mapping.InBounds (m : Mapping) : Prop :=
  m.header.controlOffset + sizeofControlBlock ≤ m.mappingSize ∧
    m.header.ringOffset + m.capacity ≤ m.mappingSize ∧ m.capacity ≠ 0

/-- The offsets and the capacity in a header make sums that do not wrap, and the capacity is not
zero. -/
def Header.Sums (h : Header) : Prop :=
  h.controlOffset + sizeofControlBlock < 2^64 ∧ h.ringOffset + h.capacityBytes < 2^64 ∧
    h.capacityBytes ≠ 0

/-- Rounding up wraps to zero where the sum wraps. -/
theorem alignUp_kAlignment_of_ge {v : ℕ} (hv : v < 2^64) (h : 2^64 ≤ v + 7) :
    alignUp v kAlignment = 0 := by
  have hsum : u64 (v + 8 - 1) = v + 7 - 2^64 := by
    unfold u64
    omega
  unfold alignUp kAlignment
  rw [hsum, and_not_seven (by omega)]
  omega

/-- The control block starts behind the header's cache line. -/
theorem headerRegionSize_eq : headerRegionSize = 64 := by decide

/-- The ring starts behind the control block's cache lines. -/
theorem controlRegionSize_eq : controlRegionSize = 320 := by decide

/-- The control block fills them. -/
theorem sizeofControlBlock_eq : sizeofControlBlock = 320 := by decide

/-- A created mapping is in bounds and has the capacity asked for unless that is close to `2^64`. -/
theorem createMapping_inBounds_iff {capacityBytes flags : ℕ} {mapping : Mapping}
    (hlt : capacityBytes < 2^64) (h : createMapping capacityBytes flags = .ok mapping) :
    mapping.InBounds ∧ capacityBytes ≤ mapping.capacity ↔ capacityBytes + 392 ≤ 2^64 := by
  unfold createMapping at h
  split at h
  · cases h
  · rename_i hzero
    cases h
    simp only [Mapping.InBounds, headerRegionSize_eq, controlRegionSize_eq, sizeofControlBlock_eq]
    rcases Nat.lt_or_ge (capacityBytes + 7) (2^64) with hfit | hwrap
    · rw [alignUp_kAlignment hfit]
      unfold u64
      omega
    · -- The capacity is zero.
      rw [alignUp_kAlignment_of_ge hlt hwrap]
      omega

/-- What `open_mapping` has checked of a file that it opens. -/
theorem openMapping_checks {file mapping : Mapping} {expectedFlags : ℕ}
    (h : openMapping file expectedFlags = .ok mapping) :
    mapping = { file with capacity := file.header.capacityBytes } ∧
      u64 (file.header.ringOffset + file.header.capacityBytes) ≤ file.mappingSize ∧
      u64 (file.header.controlOffset + sizeofControlBlock) ≤ file.mappingSize := by
  simp only [openMapping] at h
  split_ifs at h with h1 h2 h3 h4 h5 h6
  cases h
  exact ⟨rfl, Nat.le_of_not_lt h5, Nat.le_of_not_lt h6⟩

/-- A file that passes all checks is opened. -/
theorem openMapping_eq_ok (file : Mapping) (expectedFlags : ℕ)
    (hsize : sizeofHeader ≤ file.mappingSize) (hmagic : file.header.magic = kMagic)
    (hversion : file.header.version = kVersion) (hflags : file.header.flags = expectedFlags)
    (hring : u64 (file.header.ringOffset + file.header.capacityBytes) ≤ file.mappingSize)
    (hcontrol : u64 (file.header.controlOffset + sizeofControlBlock) ≤ file.mappingSize) :
    openMapping file expectedFlags = .ok { file with capacity := file.header.capacityBytes } := by
  simp only [openMapping, hmagic, hversion, hflags, ne_eq, not_true_eq_false, if_false]
  rw [if_neg (Nat.not_lt.mpr hsize), if_neg (Nat.not_lt.mpr hring),
    if_neg (Nat.not_lt.mpr hcontrol)]

/-- A mapping that was opened is in bounds unless a sum of header fields wraps or the capacity is
zero. -/
theorem openMapping_inBounds_iff {file mapping : Mapping} {expectedFlags : ℕ}
    (hsize : file.mappingSize < 2^64) (h : openMapping file expectedFlags = .ok mapping) :
    mapping.InBounds ↔ file.header.Sums := by
  obtain ⟨rfl, hring, hcontrol⟩ := openMapping_checks h
  simp only [Mapping.InBounds, Header.Sums, sizeofControlBlock_eq] at hcontrol ⊢
  constructor
  · rintro ⟨h1, h2, h3⟩
    exact ⟨by omega, by omega, h3⟩
  · rintro ⟨h1, h2, h3⟩
    rw [u64_of_lt h2] at hring
    rw [u64_of_lt h1] at hcontrol
    exact ⟨hcontrol, hring, h3⟩

/-- Mappings are in bounds exactly where no sum wraps. For every capacity and mode, what
`create_mapping` returns is in bounds, and has the capacity asked for, if and only if that is at
most `2^64 - 392`. For every file, of any length and with any bytes at its start, what
`open_mapping` returns is in bounds if and only if the sums of the header's fields do not wrap and
its capacity is not zero. -/
theorem inBounds_iff (capacityBytes size flags : ℕ) (bytes : Memory) (shared : Shared)
    (hcapacity : capacityBytes < 2^64) (hsize : size < 2^64) :
    (∀ mapping, createMapping capacityBytes flags = .ok mapping →
      (mapping.InBounds ∧ capacityBytes ≤ mapping.capacity ↔ capacityBytes + 392 ≤ 2^64)) ∧
    ∀ mapping, openMapping (existingFile size bytes shared) flags = .ok mapping →
      (mapping.InBounds ↔ (Header.ofBytes bytes).Sums) := by
  constructor
  · intro mapping hmap
    exact createMapping_inBounds_iff hcapacity hmap
  · intro mapping hmap
    have hlen : (existingFile size bytes shared).mappingSize < 2^64 := hsize
    have hiff := openMapping_inBounds_iff hlen hmap
    rwa [existingFile] at hiff

/-- The bytes of a header. -/
def Header.toBytes (h : Header) : Memory :=
  Memory.write (fun _ => 0) 0 (leBytes 4 h.magic ++ leBytes 2 h.version ++ leBytes 2 h.headerSize ++
    leBytes 8 h.capacityBytes ++ leBytes 8 h.controlOffset ++ leBytes 8 h.ringOffset ++
    leBytes 8 h.alignment ++ leBytes 8 h.flags)

/-- The header of a small ring, with the ring at `ringOffset`. The one that `create_mapping` writes
is at
384. -/
def smallHeader (ringOffset : ℕ) : Header :=
  ⟨kMagic, kVersion, sizeofHeader, 64, 64, ringOffset, kAlignment, kFlagMPSC⟩

/-- The file of a small ring, with the ring at `ringOffset`. -/
def smallFile (ringOffset : ℕ) : Mapping :=
  existingFile 448 (smallHeader ringOffset).toBytes Shared.fresh

/-- A ring of 64 bytes is in bounds when it is created, and when its file is opened. -/
theorem inBounds_iff_small :
    (∃ mapping, createMapping 64 kFlagMPSC = .ok mapping ∧ mapping.InBounds ∧
      64 ≤ mapping.capacity) ∧
    ∃ mapping, openMapping (smallFile 384) kFlagMPSC = .ok mapping ∧ mapping.InBounds := by
  obtain ⟨hcreated, hopened⟩ := inBounds_iff 64 448 kFlagMPSC (smallHeader 384).toBytes Shared.fresh
    (by decide) (by decide)
  constructor
  · obtain ⟨mapping, hmap⟩ : ∃ mapping, createMapping 64 kFlagMPSC = .ok mapping := ⟨_, rfl⟩
    exact ⟨mapping, hmap, (hcreated mapping hmap).mpr (by decide)⟩
  · have hmap := openMapping_eq_ok (smallFile 384) kFlagMPSC
      (by decide) (by decide +kernel) (by decide +kernel) (by decide +kernel) (by decide +kernel)
      (by decide +kernel)
    refine ⟨_, hmap, (hopened _ hmap).mpr ?_⟩
    unfold Header.Sums
    decide +kernel

/-- For the largest capacity `create_mapping` returns a ring of no bytes, and a file whose ring
starts eight bytes before the end of the 64-bit range is opened. -/
theorem outOfBounds :
    (∃ mapping, createMapping (2^64 - 1) kFlagMPSC = .ok mapping ∧ mapping.capacity = 0) ∧
    ∃ mapping, openMapping (smallFile (2^64 - 8)) kFlagMPSC = .ok mapping ∧
      mapping.mappingSize < mapping.header.ringOffset + mapping.capacity := by
  constructor
  · obtain ⟨mapping, hmap⟩ : ∃ mapping,
      createMapping (2^64 - 1) kFlagMPSC = .ok mapping := ⟨_, rfl⟩
    refine ⟨mapping, hmap, ?_⟩
    cases hmap
    decide
  · refine ⟨_, openMapping_eq_ok (smallFile (2^64 - 8)) kFlagMPSC (by decide) (by decide +kernel)
      (by decide +kernel) (by decide +kernel) (by decide +kernel) (by decide +kernel), ?_⟩
    decide +kernel

end LfRing

import LfRing.Layout

/-!
# Creating and opening a mapping

`create_mapping` and `open_mapping` of `src/shared_memory_mapping.cpp`, on the assumption that the
operating system's calls succeed and map the length asked for. `create_mapping` refuses a capacity
of zero, and otherwise rounds the capacity up to the records' alignment, lays out the header, the
control block and the ring one after the other, and leaves all counters and ring bytes zero.
`open_mapping` compares the header of a file with what it expects, and takes the capacity from
there.
-/

namespace LfRing

/-- `kCacheLineSize`, where the compiler does not define another. -/
def kCacheLineSize : ℕ := 64

/-- `kMagic`, the bytes of `LFRB`. -/
def kMagic : ℕ := 0x4C465242

/-- `kVersion` of the layout. -/
def kVersion : ℕ := 4

/-- `kFlagLatest`, the mode of a `SharedLatest`'s file. -/
def kFlagLatest : ℕ := 0x8

/-- `kFlagFixedSPSC`, the mode of an `SPSCQueue`'s file. -/
def kFlagFixedSPSC : ℕ := 0x10

/-- The three rings of messages. -/
inductive RingMode
  /-- `SharedRingBuffer`. -/
  | mpsc
  /-- `SharedRingBufferMPMC`. -/
  | mpmc
  /-- `SharedRingBufferSPSC`. -/
  | spsc

/-- The mode that a ring creates and opens its file with. -/
def RingMode.flags : RingMode → ℕ
  | mpsc => kFlagMPSC
  | mpmc => kFlagMPMC
  | spsc => kFlagSPSC

/-- `Header`: the first bytes of the file. -/
structure Header where
  /-- `kMagic`. -/
  magic : ℕ
  /-- `kVersion`. -/
  version : ℕ
  /-- `sizeof(Header)`. -/
  headerSize : ℕ
  /-- The capacity of the ring. -/
  capacityBytes : ℕ
  /-- Where the control block starts. -/
  controlOffset : ℕ
  /-- Where the ring starts. -/
  ringOffset : ℕ
  /-- `kAlignment`. -/
  alignment : ℕ
  /-- The mode of the file, one of the `kFlag` constants. -/
  flags : ℕ

/-- `sizeof(Header)`. -/
def sizeofHeader : ℕ := 48

/-- `sizeof(ControlBlock)`: five counters, each padded to a cache line. -/
def sizeofControlBlock : ℕ := 5 * kCacheLineSize

/-- `header_region_size`. -/
def headerRegionSize : ℕ := alignUp sizeofHeader kCacheLineSize

/-- `control_region_size`. -/
def controlRegionSize : ℕ := alignUp sizeofControlBlock kCacheLineSize

/-- `Mapping`: a mapped file, with the shared memory found in it. -/
structure Mapping where
  /-- The length of the mapping. -/
  mappingSize : ℕ
  /-- The header of the file. -/
  header : Header
  /-- The capacity of the ring. -/
  capacity : ℕ
  /-- The control block and the ring. -/
  shared : Shared

/-- `create_mapping`. -/
def createMapping (capacityBytes flags : ℕ) : Except String Mapping :=
  if capacityBytes = 0 then
    .error "capacity_bytes must be > 0"
  else
    let cap := alignUp capacityBytes kAlignment
    let headerSize := headerRegionSize
    let ringOffset := u64 (headerSize + controlRegionSize)
    .ok {
      mappingSize := u64 (ringOffset + cap)
      header := {
        magic := kMagic
        version := kVersion
        headerSize := sizeofHeader
        capacityBytes := cap
        controlOffset := headerSize
        ringOffset := ringOffset
        alignment := kAlignment
        flags := flags }
      capacity := cap
      shared := Shared.fresh }

/-- The fields of a created mapping. -/
theorem createMapping_fields {capacityBytes flags : ℕ} {created : Mapping}
    (h : createMapping capacityBytes flags = .ok created) :
    created.capacity = alignUp capacityBytes kAlignment ∧
      created.header = ⟨kMagic, kVersion, sizeofHeader, alignUp capacityBytes kAlignment,
        headerRegionSize, u64 (headerRegionSize + controlRegionSize), kAlignment, flags⟩ ∧
      created.mappingSize = u64 (u64 (headerRegionSize + controlRegionSize) +
        alignUp capacityBytes kAlignment) := by
  unfold createMapping at h
  split at h
  · cases h
  · cases h
    exact ⟨rfl, rfl, rfl⟩

/-- A created mapping starts with every counter and every ring byte zero. -/
theorem createMapping_shared {capacityBytes flags : ℕ} {m : Mapping}
    (h : createMapping capacityBytes flags = .ok m) : m.shared = Shared.fresh := by
  unfold createMapping at h
  split at h
  · cases h
  · cases h
    rfl

/-- `open_mapping` on a file with the length, the header and the shared memory of `file`. -/
def openMapping (file : Mapping) (expectedFlags : ℕ) : Except String Mapping :=
  if file.mappingSize < sizeofHeader then
    .error "shared memory file too small"
  else if file.header.magic ≠ kMagic then
    .error "invalid ring buffer magic"
  else if file.header.version ≠ kVersion then
    .error "unsupported ring buffer version"
  else if file.header.flags ≠ expectedFlags then
    .error "ring buffer mode mismatch"
  else
    let cap := file.header.capacityBytes
    let ringOffset := file.header.ringOffset
    let controlOffset := file.header.controlOffset
    if file.mappingSize < u64 (ringOffset + cap) then
      .error "ring buffer mapping size mismatch"
    else if file.mappingSize < u64 (controlOffset + sizeofControlBlock) then
      .error "ring buffer control block out of range"
    else
      .ok { file with capacity := cap }

/-- Opening a file changes nothing in the shared memory. -/
theorem openMapping_shared {file mapping : Mapping} {expectedFlags : ℕ}
    (h : openMapping file expectedFlags = .ok mapping) : mapping.shared = file.shared := by
  simp only [openMapping] at h
  split_ifs at h
  cases h
  rfl

end LfRing

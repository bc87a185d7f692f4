import Mathlib.Data.List.Infix
import LfRing.Ring.Mpsc
import LfRing.Ring.Mpmc
import LfRing.Ring.Numbering
import LfRing.Ring.Spsc

/-!
# Opening a ring while it is created

`Mapping.lean` takes `create_mapping` and `open_mapping` as one step each. Here they take one system
call, one store or one load of a header field at a time. One process creates the file, any number of
others try to open it meanwhile, and whoever has a mapping goes on to use the ring.

The file exists and can be mapped before anything is stored in it. What tells an opener that the
header is complete is `flags`: it is the last field to be stored, and it is loaded before the
capacity and the offsets, so every opener that gets past its check finds what the creator has stored
there (`Inv`). But it says nothing about the control block, whose counters the creator stores after
it. An opener can push a message before that, and the creator then takes `tail_reserve` and
`tail_publish` back to zero (`pushed_over`).

As long as nobody is inside `try_push` or `try_pop` before the creator has made its last store
(`usesAfter`), those stores change nothing, and what the users do is a run of the ring's own machine
(`uses_ring`). `created_before_use` is what this means for the three rings.
-/

namespace LfRing

/-! ## What the users of a fresh ring keep -/

/-- The counters are in order, and nothing that was published is lost: `tail_publish` is behind all
of it, and the ring has every record that `head_publish` has not passed. -/
structure Intact (cap : ℕ) (m : Shared) (published : List Chunk) : Prop where
  /-- The consumers have not passed what is published. -/
  head_le : m.control.headPublish ≤ m.control.tailPublish
  /-- What is published was reserved. -/
  tail_le : m.control.tailPublish ≤ m.control.tailReserve
  /-- What is published is in the ring. -/
  ring : OnRing cap m published

namespace Mpsc

/-- The users of a `SharedRingBuffer` keep it intact as long as `tail_reserve` does not wrap. -/
theorem intact_of_run {mapping : Mapping} {ok : State → List Event → Label → Prop} {s : State}
    {tr : List Event} (hfresh : mapping.shared = Shared.fresh) (h : (machine mapping).Run ok s tr)
    (hlt : reservedBytes (pushes tr) < 2^64) :
    Intact mapping.capacity s.mem (publishedChunks (pushes tr)) := by
  obtain ⟨pending, passed, ahead, seen, hinv⟩ := inv_of_run hfresh h hlt
  refine ⟨hinv.writer.inv.head_le, hinv.writer.inv.chain.le, ?_⟩
  clear hinv
  induction h with
  | init =>
    rw [machine, hfresh]
    exact .fresh _
  | @step s tr s' e l hrun _ hs ih =>
    have hbefore := reservedBytes_lt_of_append Event.push? tr [e] hlt
    have hring := ih hbefore
    obtain ⟨pending, passed, ahead, seen, hinv⟩ := inv_of_run hfresh hrun hbefore
    cases l with
    | producer i l =>
      obtain ⟨eff, pc, pe, hstep, rfl, rfl⟩ := step_producer hs
      rw [pushes_producer] at hlt
      obtain ⟨pending', -, hview⟩ := hinv.writer.step hstep hlt
      rw [pushes_producer, publishedChunks_append, publishedChunks_singleton]
      exact hring.publish hview
    | consumer l =>
      obtain ⟨eff, pc, pe, hstep, rfl, rfl⟩ := step_consumer hs
      obtain ⟨passed', ahead', -, -, hview, -⟩ := hinv.reader.step hinv.writer.tailPublish_lt hstep
      rw [pushes_consumer]
      exact hring.advance hview.le_headPublish hview.tailPublish_eq hview.ring_eq

end Mpsc

namespace Mpmc

/-- The users of a `SharedRingBufferMPMC` keep it intact as long as `tail_reserve` does not wrap and
consumers load `head_reserve` as they should. -/
theorem intact_of_run {mapping : Mapping} {s : State} {tr : List Event}
    (hfresh : mapping.shared = Shared.fresh) (h : (machine mapping).Run currentTail s tr)
    (hlt : reservedBytes (pushes tr) < 2^64) :
    Intact mapping.capacity s.mem (publishedChunks (pushes tr)) := by
  obtain ⟨pending, passed, claimed, ahead, hinv⟩ := inv_of_run hfresh h hlt
  refine ⟨hinv.writer.inv.head_le, hinv.writer.inv.chain.le, ?_⟩
  clear hinv
  induction h with
  | init =>
    rw [machine, hfresh]
    exact .fresh _
  | @step s tr s' e l hrun hok hs ih =>
    cases l with
    | producer i l =>
      obtain ⟨eff, pc, pe, hstep, rfl, rfl⟩ := step_producer hs
      have hbefore := reservedBytes_lt_of_append Event.push? tr _ hlt
      rw [pushes_producer] at hlt
      obtain ⟨pending, passed, claimed, ahead, hinv⟩ := inv_of_run hfresh hrun hbefore
      obtain ⟨pending', -, hview⟩ := hinv.writer.step hstep hlt
      rw [pushes_producer, publishedChunks_append, publishedChunks_singleton]
      exact (ih hbefore).publish hview
    | consumer i l =>
      obtain ⟨eff, pc, pe, hstep, rfl, rfl⟩ := step_consumer hs
      rw [pushes_consumer] at hlt ⊢
      obtain ⟨pending, passed, claimed, ahead, hinv⟩ := inv_of_run hfresh hrun hlt
      obtain ⟨passed', claimed', ahead', -, -, hview⟩ := hinv.pool.step hinv.writer.tailPublish_lt
        (loadHead_of_currentTail hok hstep) hstep
      exact (ih hlt).advance hview.le_headPublish hview.tailPublish_eq hview.ring_eq

end Mpmc

namespace Spsc

/-- What the producer knows about `tail_reserve`. -/
def PushPc.Reserved (m : Shared) : PushPc → Prop
  | claimStore tail => tail = m.control.tailPublish
  | publish _ tail c => m.control.tailReserve = u64 (tail + c.length)
  | _ => True

/-- `tail_reserve` is stored before `tail_publish`, and `claim` stores the latter's value there. -/
theorem PushInv.reserved_step {cap bytes : ℕ} {m : Shared} {pc pc' : PushPc} {l : PushLabel}
    {eff : Effect} {e : PushEvent} (h : PushInv cap m pc bytes) (hok : pc.Reserved m)
    (hle : m.control.tailPublish ≤ m.control.tailReserve)
    (hs : pc.step cap m l = some (eff, pc', e)) :
    pc'.Reserved (eff.apply m) ∧
      (eff.apply m).control.tailPublish ≤ (eff.apply m).control.tailReserve := by
  have hpc := h.ok
  cases PushPc.step_cases hs with
  | claimed tail => exact ⟨trivial, le_of_eq hok.symm⟩
  | claimLoad => exact ⟨rfl, hle⟩
  | store a tail c st todo =>
    refine ⟨?_, hle⟩
    unfold PushPc.storing PushPc.stored
    split <;> first | trivial | split <;> trivial
  | fetch a tail =>
    refine ⟨?_, hle⟩
    unfold PushPc.numbering
    split <;> trivial
  | number a tail n st todo =>
    refine ⟨?_, hle⟩
    unfold PushPc.numbering
    split <;> trivial
  | room a head c hplace =>
    refine ⟨?_, hle⟩
    unfold PushPc.storing PushPc.stored
    split <;> first | trivial | split <;> trivial
  | reserve a tail c =>
    obtain ⟨-, hp, -⟩ := hpc
    refine ⟨rfl, ?_⟩
    change m.control.tailPublish ≤ u64 (tail + c.length)
    rw [u64_of_lt hp.lt, hp.tail_eq]
    exact Nat.le_add_right _ _
  | publish a tail c =>
    refine ⟨?_, le_of_eq hok.symm⟩
    cases c <;> trivial
  | _ => exact ⟨trivial, hle⟩

/-- The users of a `SharedRingBufferSPSC` keep it intact as long as fewer than `2^64` bytes are
placed. -/
theorem intact_of_run {mapping : Mapping} {ok : State → List Event → Label → Prop} {s : State}
    {tr : List Event} (hfresh : mapping.shared = Shared.fresh) (h : (machine mapping).Run ok s tr)
    (hlt : placedBytes tr < 2^64) : Intact mapping.capacity s.mem (publishedChunks tr) := by
  have hall : s.producer.Reserved s.mem ∧ s.mem.control.tailPublish ≤ s.mem.control.tailReserve ∧
      OnRing mapping.capacity s.mem (publishedChunks tr) := by
    induction h with
    | init =>
      rw [machine, hfresh]
      exact ⟨trivial, le_rfl, .fresh _⟩
    | @step s tr s' e l hrun _ hs ih =>
      have hbytes := hlt
      rw [placedBytes_append] at hbytes
      obtain ⟨hres, hle, hring⟩ := ih (by omega)
      obtain ⟨passed, ahead, seen, hinv⟩ := inv_of_run hfresh hrun (by omega)
      cases l with
      | producer l =>
        obtain ⟨eff, pc, pe, hstep, rfl, rfl⟩ := step_producer hs
        obtain ⟨hres', hle'⟩ := hinv.push.reserved_step hres hle hstep
        obtain ⟨-, hview⟩ := hinv.push.step hstep (by simpa [Event.push?] using hbytes)
        refine ⟨hres', hle', ?_⟩
        rw [publishedChunks_append]
        simpa [Event.push?] using hring.publish hview
      | consumer l =>
        obtain ⟨eff, pc, pe, hstep, rfl, rfl⟩ := step_consumer hs
        have hpush := hinv.push.bytes_le
        obtain ⟨passed', ahead', -, -, hview, -⟩ := hinv.reader.step (by omega) hstep
        refine ⟨?_, ?_, ?_⟩
        · unfold PushPc.Reserved at hres ⊢
          rw [hview.tailPublish_eq, hview.tailReserve_eq]
          exact hres
        · rw [hview.tailPublish_eq, hview.tailReserve_eq]
          exact hle
        · rw [publishedChunks_append]
          simpa [Event.push?] using
            hring.advance hview.le_headPublish hview.tailPublish_eq hview.ring_eq
      | replace =>
        cases hs
        rw [publishedChunks_append]
        simpa [Event.push?] using ⟨hres, hle, hring⟩
  obtain ⟨passed, ahead, seen, hinv⟩ := inv_of_run hfresh h hlt
  exact ⟨hinv.push.head_le, hall.2.1, hall.2.2⟩

end Spsc

namespace Opening

/-! ## The stores of `create_mapping` -/

/-- The fields of the header. -/
inductive HeaderField
  /-- `magic`. -/
  | magic
  /-- `version`. -/
  | version
  /-- `header_size`. -/
  | headerSize
  /-- `capacity_bytes`. -/
  | capacityBytes
  /-- `control_offset`. -/
  | controlOffset
  /-- `ring_offset`. -/
  | ringOffset
  /-- `alignment`. -/
  | alignment
  /-- `flags`. -/
  | flags

/-- The header with another value in one field. -/
def HeaderField.set (v : ℕ) (h : Header) : HeaderField → Header
  | magic => { h with magic := v }
  | version => { h with version := v }
  | headerSize => { h with headerSize := v }
  | capacityBytes => { h with capacityBytes := v }
  | controlOffset => { h with controlOffset := v }
  | ringOffset => { h with ringOffset := v }
  | alignment => { h with alignment := v }
  | flags => { h with flags := v }

/-- The header of a file that was just made as long as it is to be. -/
def zeroHeader : Header := ⟨0, 0, 0, 0, 0, 0, 0, 0⟩

/-- A store of the creator. -/
inductive FileStore
  /-- To a field of the header. -/
  | header (f : HeaderField) (v : ℕ)
  /-- To a counter of the control block or to a byte of the ring. -/
  | shared (eff : Effect)

/-- What a store does to the header. -/
def FileStore.onHeader (h : Header) : FileStore → Header
  | header f v => f.set v h
  | shared _ => h

/-- What a store does to the control block and the ring. -/
def FileStore.onShared (m : Shared) : FileStore → Shared
  | header _ _ => m
  | shared eff => eff.apply m

/-- The stores to the counters, in the order of the source. -/
def controlStores : List FileStore :=
  [.shared (.headReserve 0), .shared (.headPublish 0), .shared (.tailReserve 0),
    .shared (.tailPublish 0), .shared (.sequence 0)]

/-- The `memset` of the mapping: every field, counter and byte is set to zero, from the front. -/
def memsetStores (mapping : Mapping) : List FileStore :=
  [.header .magic 0, .header .version 0, .header .headerSize 0, .header .capacityBytes 0,
      .header .controlOffset 0, .header .ringOffset 0, .header .alignment 0, .header .flags 0] ++
    controlStores ++
    (List.range (mapping.mappingSize - mapping.header.ringOffset)).map fun i =>
      .shared (.ring ⟨i, [0]⟩)

/-- The stores to the header's fields before `flags`, in the order of the source. -/
def fieldStores (h : Header) : List FileStore :=
  [.header .magic h.magic, .header .version h.version, .header .headerSize h.headerSize,
    .header .capacityBytes h.capacityBytes, .header .controlOffset h.controlOffset,
    .header .ringOffset h.ringOffset, .header .alignment h.alignment]

/-- All that `create_mapping` stores in the file. -/
def stores (mapping : Mapping) : List FileStore :=
  memsetStores mapping ++ fieldStores mapping.header ++
    .header .flags mapping.header.flags :: controlStores

/-- Where the creator is. -/
inductive CreatePc
  /-- About to create the file. -/
  | open
  /-- About to give it its length. -/
  | truncate
  /-- About to make the stores `todo`. With none left, `create_mapping` has returned. -/
  | store (todo : List FileStore)

/-! ## The loads of `open_mapping` -/

/-- What the mapping of an opener has from the header. -/
structure View where
  /-- `capacity`. -/
  capacity : ℕ
  /-- The offset from which `ring` was computed. -/
  ringOffset : ℕ
  /-- The offset from which `control` was computed. -/
  controlOffset : ℕ

/-- Where an opener is. -/
inductive OpenPc
  /-- It has not called `open_mapping`, or the call has thrown. -/
  | idle
  /-- About to open the file. -/
  | open (expectedFlags : ℕ)
  /-- About to ask for its length. -/
  | stat (expectedFlags : ℕ)
  /-- About to load `magic`. -/
  | loadMagic (expectedFlags size : ℕ)
  /-- About to load `version`. -/
  | loadVersion (expectedFlags size : ℕ)
  /-- About to load `flags`. -/
  | loadFlags (expectedFlags size : ℕ)
  /-- About to load `capacity_bytes`. -/
  | loadCapacity (size : ℕ)
  /-- About to load `ring_offset`. -/
  | loadRingOffset (size cap : ℕ)
  /-- About to load `control_offset`. -/
  | loadControlOffset (size cap ringOffset : ℕ)
  /-- `open_mapping` has returned. -/
  | opened (view : View)

/-- What an opener's step reports. -/
inductive OpenEvent
  /-- A step inside the call. -/
  | internal
  /-- The call has thrown. Where the system's own text follows, it is left out. -/
  | threw (message : String)
  /-- The call has returned. -/
  | returned

namespace OpenPc

/-- The comparisons behind the last load. -/
def checked (size cap ringOffset controlOffset : ℕ) : OpenPc × OpenEvent :=
  if size < u64 (ringOffset + cap) then
    (idle, .threw "ring buffer mapping size mismatch")
  else if size < u64 (controlOffset + sizeofControlBlock) then
    (idle, .threw "ring buffer control block out of range")
  else
    (opened ⟨cap, ringOffset, controlOffset⟩, .returned)

/-- One step of `open_mapping` on a file of the given length, if there is one, and with the given
header. -/
def step (size? : Option ℕ) (h : Header) : OpenPc → Option (OpenPc × OpenEvent)
  | idle => none
  | .open expectedFlags =>
    match size? with
    | none => some (idle, .threw "open failed")
    | some _ => some (stat expectedFlags, .internal)
  | stat expectedFlags =>
    if size?.getD 0 < sizeofHeader then
      some (idle, .threw "shared memory file too small")
    else
      some (loadMagic expectedFlags (size?.getD 0), .internal)
  | loadMagic expectedFlags size =>
    if h.magic ≠ kMagic then
      some (idle, .threw "invalid ring buffer magic")
    else
      some (loadVersion expectedFlags size, .internal)
  | loadVersion expectedFlags size =>
    if h.version ≠ kVersion then
      some (idle, .threw "unsupported ring buffer version")
    else
      some (loadFlags expectedFlags size, .internal)
  | loadFlags expectedFlags size =>
    if h.flags ≠ expectedFlags then
      some (idle, .threw "ring buffer mode mismatch")
    else
      some (loadCapacity size, .internal)
  | loadCapacity size => some (loadRingOffset size h.capacityBytes, .internal)
  | loadRingOffset size cap => some (loadControlOffset size cap h.ringOffset, .internal)
  | loadControlOffset size cap ringOffset => some (checked size cap ringOffset h.controlOffset)
  | opened _ => none

end OpenPc

/-! ## Creator, openers and users -/

/-- A ring and those who use it: states that have the shared memory and the place of every user, the
users' steps, and what they keep. -/
structure RingUsers where
  /-- The states. -/
  σ : Type
  /-- Whose step it is. -/
  ι : Type
  /-- What a step reports. -/
  ε : Type
  /-- All users between two calls, on the given shared memory. -/
  start : Shared → σ
  /-- The shared memory. -/
  mem : σ → Shared
  /-- The same users on another shared memory. -/
  withMem : σ → Shared → σ
  /-- A step of a user whose mapping has the capacity `cap`. -/
  step : (cap : ℕ) → σ → ι → Option (σ × ε)
  /-- What users must keep to. -/
  ok : σ → List ε → ι → Prop
  /-- The bytes of the ring that have been asked for. -/
  bytes : List ε → ℕ
  /-- The chunks published. -/
  published : List ε → List Chunk
  /-- The memory started with is the memory there is. -/
  mem_start : ∀ m, mem (start m) = m
  /-- Another memory under users who have not begun. -/
  withMem_start : ∀ m m', withMem (start m) m' = start m'
  /-- The users keep a fresh ring intact. -/
  intact : ∀ (mapping : Mapping) s tr, mapping.shared = Shared.fresh →
    (Machine.mk (start mapping.shared) (step mapping.capacity)).Run ok s tr → bytes tr < 2^64 →
    Intact mapping.capacity (mem s) (published tr)

/-- The machine of the users alone, on a mapping. -/
def RingUsers.machine (R : RingUsers) (mapping : Mapping) : Machine R.σ R.ι R.ε where
  init := R.start mapping.shared
  step := R.step mapping.capacity

/-- The file, and the place of every process. -/
structure State (σ : Type) where
  /-- The length of the file, if there is one. -/
  size? : Option ℕ
  /-- The header of the file. -/
  header : Header
  /-- The control block and the ring, with the users' places. -/
  ring : σ
  /-- Where the creator is. -/
  creator : CreatePc
  /-- Where each opener is. -/
  openers : ℕ → OpenPc

/-- A process with a mapping. -/
inductive User
  /-- The process that has created the file. -/
  | creator
  /-- A process that has opened it. -/
  | opener (i : ℕ)

/-- Who moves next. -/
inductive Label (ι : Type)
  /-- The creator, in `create_mapping`. -/
  | create
  /-- An opener calls `open_mapping`. -/
  | call (i expectedFlags : ℕ)
  /-- An opener takes a step in `open_mapping`. -/
  | run (i : ℕ)
  /-- A process with a mapping takes a step in `try_push` or `try_pop`. -/
  | use (u : User) (l : ι)

/-- What a step reports. -/
inductive Event (ε : Type)
  /-- A step of the creator, or the start of a call. -/
  | internal
  /-- A step of an opener. -/
  | opener (i : ℕ) (e : OpenEvent)
  /-- A step of a user of the ring. -/
  | used (e : ε)

/-- The step of a user, if it is one. -/
def Event.used? {ε : Type} : Event ε → List ε
  | used e => [e]
  | _ => []

/-- The steps of the users. -/
def used {ε : Type} (tr : List (Event ε)) : List ε := tr.flatMap Event.used?

/-- The capacity in a process's mapping, if it has one. -/
def State.capacity? {σ : Type} (mapping : Mapping) (s : State σ) : User → Option ℕ
  | .creator =>
    match s.creator with
    | .store [] => some mapping.capacity
    | _ => none
  | .opener i =>
    match s.openers i with
    | .opened view => some view.capacity
    | _ => none

/-- One step of the creator: it creates the file, gives it its length, and makes its stores. -/
def createStep (R : RingUsers) (mapping : Mapping) (s : State R.σ) : Option (State R.σ) :=
  match s.creator with
  | .open => some { s with size? := some 0, creator := .truncate }
  | .truncate =>
    some { s with size? := some mapping.mappingSize, creator := .store (stores mapping) }
  | .store [] => none
  | .store (st :: todo) => some { s with
      header := st.onHeader s.header
      ring := R.withMem s.ring (st.onShared (R.mem s.ring))
      creator := .store todo }

/-- One step of any process. The modes that `open_mapping` is called with are not zero. A user's
mapping points at the control block and the ring that the creator's does, since its offsets are the
creator's (`Inv.opened`). -/
def step (R : RingUsers) (mapping : Mapping) (s : State R.σ) :
    Label R.ι → Option (State R.σ × Event R.ε)
  | .create => (createStep R mapping s).map fun s' => (s', .internal)
  | .call i expectedFlags =>
    match s.openers i with
    | .idle =>
      if expectedFlags ≠ 0 then
        some ({ s with openers := Function.update s.openers i (.open expectedFlags) }, .internal)
      else none
    | _ => none
  | .run i =>
    match (s.openers i).step s.size? s.header with
    | none => none
    | some (pc, e) => some ({ s with openers := Function.update s.openers i pc }, .opener i e)
  | .use u l =>
    match s.capacity? mapping u with
    | none => none
    | some cap =>
      match R.step cap s.ring l with
      | none => none
      | some (ring, e) => some ({ s with ring := ring }, .used e)

/-- The creation of a mapping, with everyone who opens and uses it. There is no file yet. -/
def machine (R : RingUsers) (mapping : Mapping) : Machine (State R.σ) (Label R.ι) (Event R.ε) where
  init := ⟨none, zeroHeader, R.start Shared.fresh, .open, fun _ => .idle⟩
  step := step R mapping

/-- The ring is used only after the last store of the creator, and as its users must. -/
def usesAfter (R : RingUsers) (s : State R.σ) (tr : List (Event R.ε)) (l : Label R.ι) : Prop :=
  ∀ u l', l = .use u l' → s.creator = .store [] ∧ R.ok s.ring (used tr) l'

/-- One more step adds what it does to the ring. -/
@[simp] theorem used_append {ε : Type} (tr : List (Event ε)) (e : Event ε) :
    used (tr ++ [e]) = used tr ++ e.used? := by
  simp [used]

/-- The transitions of the system, one constructor each. -/
inductive Step (R : RingUsers) (mapping : Mapping) (s : State R.σ) :
    Label R.ι → State R.σ → Event R.ε → Prop
  /-- The file is created. -/
  | create (h : s.creator = .open) :
    Step R mapping s .create { s with size? := some 0, creator := .truncate } .internal
  /-- It gets its length. -/
  | truncate (h : s.creator = .truncate) :
    Step R mapping s .create
      { s with size? := some mapping.mappingSize, creator := .store (stores mapping) } .internal
  /-- A store of the creator. -/
  | store (st : FileStore) (todo : List FileStore) (h : s.creator = .store (st :: todo)) :
    Step R mapping s .create { s with
      header := st.onHeader s.header
      ring := R.withMem s.ring (st.onShared (R.mem s.ring))
      creator := .store todo } .internal
  /-- A call of `open_mapping`. -/
  | call (i expectedFlags : ℕ) (h : expectedFlags ≠ 0) :
    Step R mapping s (.call i expectedFlags)
      { s with openers := Function.update s.openers i (.open expectedFlags) } .internal
  /-- A step in `open_mapping`. -/
  | run (i : ℕ) (pc : OpenPc) (e : OpenEvent)
    (h : (s.openers i).step s.size? s.header = some (pc, e)) :
    Step R mapping s (.run i) { s with openers := Function.update s.openers i pc } (.opener i e)
  /-- A step of a user. -/
  | use (u : User) (l : R.ι) (cap : ℕ) (ring : R.σ) (e : R.ε)
    (hcap : s.capacity? mapping u = some cap) (h : R.step cap s.ring l = some (ring, e)) :
    Step R mapping s (.use u l) { s with ring := ring } (.used e)

/-- Every step is one of these. -/
theorem step_cases {R : RingUsers} {mapping : Mapping} {s s' : State R.σ} {l : Label R.ι}
    {e : Event R.ε} (h : step R mapping s l = some (s', e)) : Step R mapping s l s' e := by
  cases l with
  | create =>
    simp only [step, createStep] at h
    split at h <;> cases h
    · exact .create ‹_›
    · exact .truncate ‹_›
    · exact .store _ _ ‹_›
  | call i expectedFlags =>
    simp only [step] at h
    split at h
    · split_ifs at h with hflags
      cases h
      exact .call i expectedFlags hflags
    · cases h
  | run i =>
    simp only [step] at h
    split at h
    · cases h
    · cases h
      exact .run i _ _ ‹_›
  | use u l =>
    simp only [step] at h
    split at h
    · cases h
    · split at h
      · cases h
      · cases h
        exact .use u l _ _ _ ‹_› ‹_›

/-! ## What the stores amount to -/

/-- The store does not put a mode into `flags`. -/
def FileStore.Unflagged : FileStore → Prop
  | header .flags v => v = 0
  | _ => True

/-- Up to the store of `flags` no store puts a mode there. -/
theorem unflagged_of_mem {mapping : Mapping} {st : FileStore}
    (h : st ∈ memsetStores mapping ++ fieldStores mapping.header) : st.Unflagged := by
  simp only [memsetStores, fieldStores, controlStores, List.mem_append, List.mem_cons,
    List.not_mem_nil, List.mem_map, or_false] at h
  rcases h with ((h | h) | ⟨i, -, rfl⟩) | h
  · rcases h with rfl | rfl | rfl | rfl | rfl | rfl | rfl | rfl <;> trivial
  · rcases h with rfl | rfl | rfl | rfl | rfl <;> trivial
  · trivial
  · rcases h with rfl | rfl | rfl | rfl | rfl | rfl | rfl <;> trivial

/-- Such stores leave `flags` zero. -/
theorem flags_foldl {sts : List FileStore} (hsts : ∀ st ∈ sts, st.Unflagged) {h : Header}
    (h0 : h.flags = 0) : (sts.foldl FileStore.onHeader h).flags = 0 := by
  induction sts generalizing h with
  | nil => exact h0
  | cons st sts ih =>
    refine ih (fun x hx => hsts x (List.mem_cons_of_mem _ hx)) ?_
    have hst := hsts st List.mem_cons_self
    cases st with
    | shared eff => exact h0
    | header f v =>
      cases f with
      | flags => exact hst
      | _ => exact h0

/-- Once `flags` is not zero, only the stores to the counters are left. -/
theorem suffix_of_flags {mapping : Mapping} {done todo : List FileStore}
    (h : done ++ todo = stores mapping)
    (hflags : (done.foldl FileStore.onHeader zeroHeader).flags ≠ 0) : todo <:+ controlStores := by
  have htodo : todo <:+ stores mapping := ⟨done, h⟩
  have hcontrol : .header .flags mapping.header.flags :: controlStores <:+ stores mapping :=
    ⟨memsetStores mapping ++ fieldStores mapping.header, rfl⟩
  rcases List.suffix_or_suffix_of_suffix htodo hcontrol with hsuf | ⟨rest, rfl⟩
  · rcases List.suffix_cons_iff.mp hsuf with rfl | hsuf
    · -- The store of `flags` is the next one, and those before it have left zero there.
      obtain rfl := List.append_cancel_right h
      exact absurd (flags_foldl (fun _ hst => unflagged_of_mem hst) rfl) hflags
    · exact hsuf
  · -- The store of `flags` is still to come.
    rw [stores, ← List.append_assoc] at h
    have hunflagged : ∀ st ∈ done, st.Unflagged := by
      intro st hst
      refine unflagged_of_mem (?_ : st ∈ memsetStores mapping ++ fieldStores mapping.header)
      rw [← List.append_cancel_right h]
      exact List.mem_append_left rest hst
    exact absurd (flags_foldl hunflagged rfl) hflags

/-- Stores that each leave the header as it is. -/
theorem foldl_onHeader {sts : List FileStore} {h : Header} (hsts : ∀ st ∈ sts, st.onHeader h = h) :
    sts.foldl FileStore.onHeader h = h := by
  induction sts with
  | nil => rfl
  | cons st sts ih =>
    rw [List.foldl_cons, hsts st List.mem_cons_self]
    exact ih fun x hx => hsts x (List.mem_cons_of_mem _ hx)

/-- The `memset` leaves the header zero. -/
theorem header_memset (mapping : Mapping) :
    (memsetStores mapping).foldl FileStore.onHeader zeroHeader = zeroHeader := by
  refine foldl_onHeader fun st hst => ?_
  simp only [memsetStores, controlStores, List.mem_append, List.mem_cons, List.not_mem_nil,
    List.mem_map, or_false] at hst
  rcases hst with (hst | hst) | ⟨i, -, rfl⟩
  · rcases hst with rfl | rfl | rfl | rfl | rfl | rfl | rfl | rfl <;> rfl
  · rcases hst with rfl | rfl | rfl | rfl | rfl <;> rfl
  · rfl

/-- The stores to its fields make it what it is to be. -/
theorem header_fields (h : Header) :
    (fieldStores h ++ [FileStore.header .flags h.flags]).foldl FileStore.onHeader
      zeroHeader = h := by
  cases h
  simp only [fieldStores, List.cons_append, List.nil_append, List.foldl_cons, List.foldl_nil,
    FileStore.onHeader, HeaderField.set]

/-- The stores to the counters leave it. -/
theorem header_control {sts : List FileStore} (hsts : sts ⊆ controlStores) (h : Header) :
    sts.foldl FileStore.onHeader h = h := by
  refine foldl_onHeader fun st hst => ?_
  have hmem := hsts hst
  simp only [controlStores, List.mem_cons, List.not_mem_nil, or_false] at hmem
  rcases hmem with rfl | rfl | rfl | rfl | rfl <;> rfl

/-- With only those left, the header is the one that `create_mapping` makes. -/
theorem header_of_suffix {mapping : Mapping} {done todo : List FileStore}
    (h : done ++ todo = stores mapping) (hsuf : todo <:+ controlStores) :
    done.foldl FileStore.onHeader zeroHeader = mapping.header := by
  obtain ⟨rest, hrest⟩ := hsuf
  have hall : stores mapping = memsetStores mapping ++
      (fieldStores mapping.header ++ [.header .flags mapping.header.flags]) ++ rest ++ todo := by
    rw [stores, ← hrest]
    simp only [List.append_assoc, List.cons_append, List.nil_append]
  rw [hall] at h
  rw [List.append_cancel_right h, List.foldl_append, List.foldl_append, header_memset,
    header_fields]
  exact header_control (hrest ▸ List.subset_append_left rest todo) _

/-- Every store sets zero where there is zero in a control block and a ring that nobody has used. -/
theorem onShared_fresh {mapping : Mapping} {st : FileStore} (h : st ∈ stores mapping) :
    st.onShared Shared.fresh = Shared.fresh := by
  simp only [stores, memsetStores, fieldStores, controlStores, List.mem_append, List.mem_cons,
    List.not_mem_nil, List.mem_map, or_false] at h
  rcases h with (((h | h) | ⟨i, -, rfl⟩) | h) | h
  · rcases h with rfl | rfl | rfl | rfl | rfl | rfl | rfl | rfl <;> rfl
  · rcases h with rfl | rfl | rfl | rfl | rfl <;> rfl
  · have hring : ((Effect.ring ⟨i, [0]⟩).apply Shared.fresh).ring = Shared.fresh.ring := by
      funext b
      rw [ring_apply_byte]
      split <;> rfl
    exact congrArg (Shared.mk _) hring
  · rcases h with rfl | rfl | rfl | rfl | rfl | rfl | rfl <;> rfl
  · rcases h with rfl | rfl | rfl | rfl | rfl | rfl <;> rfl

/-! ## What an opener finds -/

/-- What the header makes of a mapping. -/
def Header.view (h : Header) : View := ⟨h.capacityBytes, h.ringOffset, h.controlOffset⟩

/-- The header has what the stores made so far have put there. -/
def CreatePc.Ok (mapping : Mapping) (h : Header) : CreatePc → Prop
  | .open => h = zeroHeader
  | .truncate => h = zeroHeader
  | .store todo => ∃ done, done ++ todo = stores mapping ∧
    h = done.foldl FileStore.onHeader zeroHeader

/-- The header is complete: at most stores to the counters are left. -/
def CreatePc.Described : CreatePc → Prop
  | .open => False
  | .truncate => False
  | .store todo => todo <:+ controlStores

/-- What an opener knows: past its load of `flags` the header is complete, and what it has loaded
since is what the creator has stored. -/
def OpenPc.Ok (mapping : Mapping) (described : Prop) : OpenPc → Prop
  | .idle => True
  | .open expectedFlags => expectedFlags ≠ 0
  | .stat expectedFlags => expectedFlags ≠ 0
  | .loadMagic expectedFlags _ => expectedFlags ≠ 0
  | .loadVersion expectedFlags _ => expectedFlags ≠ 0
  | .loadFlags expectedFlags _ => expectedFlags ≠ 0
  | .loadCapacity _ => described
  | .loadRingOffset _ cap => described ∧ cap = mapping.header.capacityBytes
  | .loadControlOffset _ cap ringOffset => described ∧ cap = mapping.header.capacityBytes ∧
      ringOffset = mapping.header.ringOffset
  | .opened view => described ∧ view = Header.view mapping.header

/-- A header that is complete stays so. -/
theorem OpenPc.Ok.mono {mapping : Mapping} {d d' : Prop} {pc : OpenPc} (h : pc.Ok mapping d)
    (hd : d → d') : pc.Ok mapping d' := by
  cases pc with
  | loadCapacity size => exact hd h
  | loadRingOffset size cap => exact ⟨hd h.1, h.2⟩
  | loadControlOffset size cap ringOffset => exact ⟨hd h.1, h.2⟩
  | opened view => exact ⟨hd h.1, h.2⟩
  | _ => exact h

/-- An opener that loads `flags` and finds a mode there finds a complete header from then on. -/
theorem OpenPc.Ok.step {mapping : Mapping} {d : Prop} {pc pc' : OpenPc} {size? : Option ℕ}
    {h : Header} {e : OpenEvent} (hok : pc.Ok mapping d) (hflags : h.flags ≠ 0 → d)
    (hheader : d → h = mapping.header) (hs : pc.step size? h = some (pc', e)) :
    pc'.Ok mapping d := by
  cases pc with
  | idle => cases hs
  | «open» expectedFlags =>
    simp only [OpenPc.step] at hs
    split at hs <;> cases hs
    · trivial
    · exact hok
  | stat expectedFlags =>
    simp only [OpenPc.step] at hs
    split at hs <;> cases hs
    · trivial
    · exact hok
  | loadMagic expectedFlags size =>
    simp only [OpenPc.step] at hs
    split at hs <;> cases hs
    · trivial
    · exact hok
  | loadVersion expectedFlags size =>
    simp only [OpenPc.step] at hs
    split at hs <;> cases hs
    · trivial
    · exact hok
  | loadFlags expectedFlags size =>
    simp only [OpenPc.step] at hs
    split at hs <;> cases hs
    · trivial
    · rename_i heq
      rw [not_not] at heq
      exact hflags (heq ▸ hok)
  | loadCapacity size =>
    cases hs
    exact ⟨hok, by rw [hheader hok]⟩
  | loadRingOffset size cap =>
    cases hs
    exact ⟨hok.1, hok.2, by rw [hheader hok.1]⟩
  | loadControlOffset size cap ringOffset =>
    obtain ⟨hd, rfl, rfl⟩ := hok
    simp only [OpenPc.step, OpenPc.checked, Option.some.injEq] at hs
    split_ifs at hs <;> cases hs
    · trivial
    · trivial
    · exact ⟨hd, by rw [hheader hd]; rfl⟩
  | opened view => cases hs

/-- What holds at every moment, whoever uses the ring. -/
structure Inv {σ : Type} (mapping : Mapping) (s : State σ) : Prop where
  /-- The header. -/
  creator : s.creator.Ok mapping s.header
  /-- What every opener knows. -/
  openers : ∀ i, (s.openers i).Ok mapping s.creator.Described

section Invariant

variable {R : RingUsers} {mapping : Mapping} {s s' : State R.σ}

/-- A complete header is that of the mapping. -/
theorem Inv.header_eq (h : Inv mapping s) (hd : s.creator.Described) :
    s.header = mapping.header := by
  have hcreator := h.creator
  cases hc : s.creator with
  | store todo =>
    rw [hc] at hcreator hd
    obtain ⟨done, hall, hheader⟩ := hcreator
    rw [hheader]
    exact header_of_suffix hall hd
  | _ =>
    rw [hc] at hd
    exact hd.elim

/-- A header with a mode in it is complete. -/
theorem Inv.described (h : Inv mapping s) (hflags : s.header.flags ≠ 0) : s.creator.Described := by
  have hcreator := h.creator
  cases hc : s.creator with
  | store todo =>
    rw [hc] at hcreator
    obtain ⟨done, hall, hheader⟩ := hcreator
    rw [hheader] at hflags
    exact suffix_of_flags hall hflags
  | _ =>
    rw [hc] at hcreator
    exact absurd (congrArg Header.flags hcreator) hflags

/-- One opener moves on. -/
theorem Inv.update (h : Inv mapping s) (i : ℕ) {pc : OpenPc}
    (hpc : pc.Ok mapping s.creator.Described) :
    Inv mapping { s with openers := Function.update s.openers i pc } := by
  refine ⟨h.creator, fun j => ?_⟩
  change (Function.update s.openers i pc j).Ok mapping s.creator.Described
  by_cases hj : j = i
  · subst hj
    rwa [Function.update_self]
  · rw [Function.update_of_ne hj]
    exact h.openers j

/-- Every step keeps this. -/
theorem Inv.step (h : Inv mapping s) {l : Label R.ι} {e : Event R.ε}
    (hs : step R mapping s l = some (s', e)) : Inv mapping s' := by
  cases step_cases hs with
  | create hc =>
    have hcreator := h.creator
    rw [hc] at hcreator
    refine ⟨hcreator, fun i => (h.openers i).mono ?_⟩
    rw [hc]
    exact id
  | truncate hc =>
    have hcreator := h.creator
    rw [hc] at hcreator
    refine ⟨⟨[], rfl, hcreator⟩, fun i => (h.openers i).mono ?_⟩
    rw [hc]
    exact False.elim
  | store st todo hc =>
    have hcreator := h.creator
    rw [hc] at hcreator
    obtain ⟨done, hall, hheader⟩ := hcreator
    refine ⟨⟨done ++ [st], by simpa using hall, ?_⟩, fun i => (h.openers i).mono ?_⟩
    · rw [List.foldl_append, ← hheader]
      rfl
    · rw [hc]
      exact (List.suffix_cons st todo).trans
  | call i expectedFlags hflags => exact h.update i hflags
  | run i pc e hstep => exact h.update i ((h.openers i).step h.described h.header_eq hstep)
  | use u l cap ring e hcap hstep => exact ⟨h.creator, h.openers⟩

/-- It holds before there is a file. -/
theorem Inv.init (R : RingUsers) (mapping : Mapping) : Inv mapping (machine R mapping).init :=
  ⟨rfl, fun _ => trivial⟩

/-- It holds in every run. -/
theorem inv_of_run {ok : State R.σ → List (Event R.ε) → Label R.ι → Prop} {tr : List (Event R.ε)}
    (h : (machine R mapping).Run ok s tr) : Inv mapping s := by
  refine h.invariant (fun s _ => Inv mapping s) (.init R mapping) ?_
  intro s tr l s' e _ hinv hs
  exact hinv.step hs

/-- The mapping of an opener that has succeeded. -/
theorem Inv.opened (h : Inv mapping s) {i : ℕ} {view : View} (hi : s.openers i = .opened view) :
    view = Header.view mapping.header := by
  have hok := h.openers i
  rw [hi] at hok
  exact hok.2

/-- A process that uses the ring has the capacity of the mapping. -/
theorem Inv.capacity_eq (h : Inv mapping s) (hmap : mapping.header.capacityBytes = mapping.capacity)
    {u : User} {cap : ℕ} (hcap : s.capacity? mapping u = some cap) : cap = mapping.capacity := by
  cases u with
  | creator =>
    simp only [State.capacity?] at hcap
    split at hcap <;> cases hcap
    rfl
  | opener i =>
    simp only [State.capacity?] at hcap
    split at hcap
    · rename_i view hview
      cases hcap
      rw [h.opened hview, ← hmap]
      rfl
    · cases hcap

end Invariant

/-! ## Creation before use -/

/-- The capacity in the header is the mapping's. -/
theorem createMapping_capacityBytes {capacityBytes flags : ℕ} {mapping : Mapping}
    (h : createMapping capacityBytes flags = .ok mapping) :
    mapping.header.capacityBytes = mapping.capacity := by
  unfold createMapping at h
  split at h
  · cases h
  · cases h
    rfl

section Users

variable {R : RingUsers} {mapping : Mapping} {s : State R.σ} {tr : List (Event R.ε)}

/-- Nobody has used the ring while the creator has stores left, and the users' steps are a run of
their machine. -/
structure Apart (R : RingUsers) (mapping : Mapping) (s : State R.σ) (tr : List (Event R.ε)) :
    Prop where
  /-- The header and the openers. -/
  inv : Inv mapping s
  /-- The ring is as it was, or the creator has finished. -/
  unused : s.creator = .store [] ∨ s.ring = R.start Shared.fresh
  /-- What the users have done. -/
  run : (R.machine mapping).Run R.ok s.ring (used tr)

/-- A store of the creator changes nothing in a ring that nobody has used. -/
theorem Inv.store_ring (h : Inv mapping s) {st : FileStore} {todo : List FileStore}
    (hc : s.creator = .store (st :: todo)) (hring : s.ring = R.start Shared.fresh) :
    R.withMem s.ring (st.onShared (R.mem s.ring)) = s.ring := by
  have hcreator := h.creator
  rw [hc] at hcreator
  obtain ⟨done, hall, -⟩ := hcreator
  have hst : st ∈ stores mapping := hall ▸ List.mem_append_right done List.mem_cons_self
  rw [hring, R.mem_start, R.withMem_start, onShared_fresh hst]

/-- Every step keeps creator and users apart. -/
theorem Apart.step (h : Apart R mapping s tr)
    (hmap : mapping.header.capacityBytes = mapping.capacity) {l : Label R.ι} {s' : State R.σ}
    {e : Event R.ε}
    (hok : usesAfter R s tr l) (hs : step R mapping s l = some (s', e)) :
    Apart R mapping s' (tr ++ [e]) := by
  refine ⟨h.inv.step hs, ?_, ?_⟩
  all_goals
    have hunused := h.unused
    have hrun := h.run
  · cases step_cases hs with
    | create hc =>
      rw [hc] at hunused
      exact Or.inr (hunused.resolve_left (by rintro ⟨⟩))
    | truncate hc =>
      rw [hc] at hunused
      exact Or.inr (hunused.resolve_left (by rintro ⟨⟩))
    | store st todo hc =>
      rw [hc] at hunused
      have hring := hunused.resolve_left (by rintro ⟨⟩)
      exact Or.inr ((h.inv.store_ring hc hring).trans hring)
    | call i expectedFlags hflags => exact hunused
    | run i pc e hstep => exact hunused
    | use u l cap ring e hcap hstep => exact Or.inl (hok u l rfl).1
  · rw [used_append]
    cases step_cases hs with
    | create hc => simpa [Event.used?] using hrun
    | truncate hc => simpa [Event.used?] using hrun
    | store st todo hc =>
      rw [hc] at hunused
      have hring := hunused.resolve_left (by rintro ⟨⟩)
      simpa [Event.used?, h.inv.store_ring hc hring] using hrun
    | call i expectedFlags hflags => simpa [Event.used?] using hrun
    | run i pc e hstep => simpa [Event.used?] using hrun
    | use u l cap ring e hcap hstep =>
      -- The user's capacity is the mapping's, so this is a step of the ring's machine.
      rw [h.inv.capacity_eq hmap hcap] at hstep
      exact .step l hrun (hok u l rfl).2 hstep

/-- The stores that the creator has left change nothing in the ring. -/
theorem Apart.create_ring (h : Apart R mapping s tr) {s' : State R.σ} {e : Event R.ε}
    (hs : Opening.step R mapping s .create = some (s', e)) : s'.ring = s.ring := by
  cases step_cases hs with
  | create hc => rfl
  | truncate hc => rfl
  | store st todo hc =>
    have hunused := h.unused
    rw [hc] at hunused
    exact h.inv.store_ring hc (hunused.resolve_left (by rintro ⟨⟩))

/-- Where the ring is used only after the creator's last store, every opener has the capacity and
the offsets of the mapping, the creator's stores change nothing in the ring, and what the users do
is a run of the ring's machine. -/
theorem uses_ring {capacityBytes flags : ℕ}
    (hcreate : createMapping capacityBytes flags = .ok mapping)
    (h : (machine R mapping).Run (usesAfter R) s tr) : Apart R mapping s tr := by
  refine h.invariant (Apart R mapping) ⟨.init R mapping, Or.inr rfl, ?_⟩ ?_
  · have hinit : R.start Shared.fresh = (R.machine mapping).init := by
      rw [RingUsers.machine, createMapping_shared hcreate]
    change (R.machine mapping).Run R.ok (R.start Shared.fresh) []
    rw [hinit]
    exact .init
  · intro s tr l s' e hok hinv hs
    exact hinv.step (createMapping_capacityBytes hcreate) hok hs

end Users

/-! ## The three rings -/

/-- Producers and the consumer of a `SharedRingBuffer`. -/
def mpscUsers : RingUsers where
  σ := Mpsc.State
  ι := Mpsc.Label
  ε := Mpsc.Event
  start m := ⟨m, fun _ => .idle, .idle⟩
  mem := Mpsc.State.mem
  withMem s m := { s with mem := m }
  step := Mpsc.step
  ok _ _ _ := True
  bytes tr := reservedBytes (Mpsc.pushes tr)
  published tr := publishedChunks (Mpsc.pushes tr)
  mem_start _ := rfl
  withMem_start _ _ := rfl
  intact _ _ _ hfresh hrun hlt := Mpsc.intact_of_run hfresh hrun hlt

/-- Producers and consumers of a `SharedRingBufferMPMC`. The consumers must load `head_reserve` as
`currentTail` says: otherwise they pass `tail_publish` whenever the ring was created. -/
def mpmcUsers : RingUsers where
  σ := Mpmc.State
  ι := Mpmc.Label
  ε := Mpmc.Event
  start m := ⟨m, fun _ => .idle, fun _ => .idle⟩
  mem := Mpmc.State.mem
  withMem s m := { s with mem := m }
  step := Mpmc.step
  ok := Mpmc.currentTail
  bytes tr := reservedBytes (Mpmc.pushes tr)
  published tr := publishedChunks (Mpmc.pushes tr)
  mem_start _ := rfl
  withMem_start _ _ := rfl
  intact _ _ _ hfresh hrun hlt := Mpmc.intact_of_run hfresh hrun hlt

/-- Producer and consumer of a `SharedRingBufferSPSC`. -/
def spscUsers : RingUsers where
  σ := Spsc.State
  ι := Spsc.Label
  ε := Spsc.Event
  start m := ⟨m, .idle, .idle⟩
  mem := Spsc.State.mem
  withMem s m := { s with mem := m }
  step := Spsc.step
  ok _ _ _ := True
  bytes := Spsc.placedBytes
  published := Spsc.publishedChunks
  mem_start _ := rfl
  withMem_start _ _ := rfl
  intact _ _ _ hfresh hrun hlt := Spsc.intact_of_run hfresh hrun hlt

/-- The users of each ring. -/
def users : RingMode → RingUsers
  | .mpsc => mpscUsers
  | .mpmc => mpmcUsers
  | .spsc => spscUsers

/-- What the creation of a ring owes those who open it, in every interleaving. Whoever opens the
file has the capacity and the offsets that the creator has stored, whatever else happens. And where
the ring is used only after the creator's last store:

* the stores that the creator has left change nothing in the control block and the ring;
* what the users have done is a run of their machine on the mapping created;
* as long as they have asked for fewer than `2^64` bytes, the counters are in order, and nothing
  that they have published is lost. -/
theorem created_before_use (mode : RingMode) {capacityBytes : ℕ} {mapping : Mapping}
    (hcreate : createMapping capacityBytes mode.flags = .ok mapping) :
    (∀ s tr, (machine (users mode) mapping).Reaches s tr → ∀ i view, s.openers i = .opened view →
      view = ⟨mapping.capacity, mapping.header.ringOffset, mapping.header.controlOffset⟩) ∧
    ∀ s tr, (machine (users mode) mapping).Run (usesAfter (users mode)) s tr →
      (∀ s' e, step (users mode) mapping s .create = some (s', e) → s'.ring = s.ring) ∧
      ((users mode).machine mapping).Run (users mode).ok s.ring (used tr) ∧
      ((users mode).bytes (used tr) < 2^64 →
        Intact mapping.capacity ((users mode).mem s.ring) ((users mode).published (used tr))) := by
  refine ⟨?_, ?_⟩
  · intro s tr hrun i view hview
    rw [(inv_of_run hrun).opened hview, ← createMapping_capacityBytes hcreate]
    rfl
  · intro s tr hrun
    have hapart := uses_ring hcreate hrun
    refine ⟨fun s' e hs => hapart.create_ring hs, hapart.run, ?_⟩
    exact (users mode).intact mapping _ _ (createMapping_shared hcreate) hapart.run

/-- `create_mapping` has returned. -/
def CreatePc.returned : CreatePc → Bool
  | .store [] => true
  | _ => false

/-- It has made all its stores. -/
theorem CreatePc.eq_of_returned {pc : CreatePc} (h : pc.returned = true) : pc = .store [] := by
  unfold CreatePc.returned at h
  split at h
  · rfl
  · cases h

/-- The test that the ring is used only after the creator's last store. -/
def usesAfterTest {σ ι ε : Type} (s : State σ) (_ : List (Event ε)) : Label ι → Bool
  | .use _ _ => s.creator.returned
  | _ => true

/-- The test is the condition. -/
theorem usesAfter_of_test (s : State Mpsc.State) (tr : List (Event Mpsc.Event))
    (l : Label Mpsc.Label) (h : usesAfterTest s tr l = true) : usesAfter mpscUsers s tr l := by
  rintro u l' rfl
  exact ⟨CreatePc.eq_of_returned h, trivial⟩

/-- Process 0 opens the file of a `SharedRingBuffer`. -/
def openFile : List (Label Mpsc.Label) := .call 0 kFlagMPSC :: List.replicate 8 (.run 0)

/-- It pushes an empty message of type 5. -/
def pushEmpty : List (Label Mpsc.Label) :=
  let a : PushArgs := .ofBytes none 5
  .use (.opener 0) (.producer 0 (.call a)) ::
    List.replicate 11 (.use (.opener 0) (.producer 0 .run))

/-- A ring of 64 bytes is created, process 0 opens it while the counters are still to be stored, and
pushes a message when they are. -/
theorem created_before_use_pushEmpty : ∃ mapping s tr, createMapping 64 kFlagMPSC = .ok mapping ∧
    (machine mpscUsers mapping).Run (usesAfter mpscUsers) s tr ∧
    reservedBytes (Mpsc.pushes (used tr)) < 2^64 ∧ (Mpsc.published (used tr)).length = 1 ∧
    Intact mapping.capacity s.ring.mem (publishedChunks (Mpsc.pushes (used tr))) := by
  obtain ⟨mapping, hmap⟩ : ∃ mapping, createMapping 64 kFlagMPSC = .ok mapping := ⟨_, rfl⟩
  obtain ⟨s, tr, hrun, htest⟩ := (machine mpscUsers mapping).exists_run usesAfterTest
    usesAfter_of_test (List.replicate 87 .create ++ openFile ++
      List.replicate 5 .create ++ pushEmpty)
    (fun _ tr => decide (reservedBytes (Mpsc.pushes (used tr)) < 2^64) &&
      decide ((Mpsc.published (used tr)).length = 1))
    (by cases hmap; decide +kernel)
  simp only [Bool.and_eq_true, decide_eq_true_eq] at htest
  exact ⟨mapping, s, tr, hmap, hrun, htest.1, htest.2,
    ((created_before_use .mpsc hmap).2 s tr hrun).2.2 htest.1⟩

/-- The test that a call of `try_pop` has found the ring empty. -/
def popRefused : Mpsc.Event → Bool
  | .consumer .refused => true
  | _ => false

/-- A message is pushed and lost. Process 0 opens a ring of 64 bytes when its header is complete,
and pushes a message. Then the creator stores the counters: with `tail_reserve` back at zero the
counters are out of order, and with `tail_publish` back at zero a call of `try_pop` finds the ring
empty. -/
theorem pushed_over : ∃ mapping, createMapping 64 kFlagMPSC = .ok mapping ∧
    (∃ s tr, (machine mpscUsers mapping).Reaches s tr ∧
      s.ring.mem.control.tailReserve < s.ring.mem.control.tailPublish) ∧
    ∃ s tr, (machine mpscUsers mapping).Reaches s tr ∧ s.creator = .store [] ∧
      (Mpsc.published (used tr)).length = 1 ∧ Mpsc.returned (used tr) = [] ∧
      s.ring.mem.control.tailPublish = 0 ∧ (used tr).getLast? = some (.consumer .refused) := by
  obtain ⟨mapping, hmap⟩ : ∃ mapping, createMapping 64 kFlagMPSC = .ok mapping := ⟨_, rfl⟩
  let early : List (Label Mpsc.Label) := List.replicate 87 .create ++ openFile ++ pushEmpty
  obtain ⟨s, tr, hrun, htest⟩ := (machine mpscUsers mapping).exists_reaches
    (early ++ List.replicate 3 .create)
    (fun s _ => decide (s.ring.mem.control.tailReserve < s.ring.mem.control.tailPublish))
    (by cases hmap; decide +kernel)
  obtain ⟨s', tr', hrun', htest'⟩ := (machine mpscUsers mapping).exists_reaches
    (early ++ List.replicate 5 .create ++ [.use .creator (.consumer (.call ⟨[], true⟩))] ++
      List.replicate 2 (.use .creator (.consumer .run)))
    (fun s tr => s.creator.returned && decide ((Mpsc.published (used tr)).length = 1) &&
      (Mpsc.returned (used tr)).isEmpty && decide (s.ring.mem.control.tailPublish = 0) &&
      (used tr).getLast?.any popRefused)
    (by cases hmap; decide +kernel)
  simp only [decide_eq_true_eq] at htest
  simp only [Bool.and_eq_true, decide_eq_true_eq, List.isEmpty_iff] at htest'
  obtain ⟨⟨⟨⟨hcreator, hpublished⟩, hreturned⟩, htail⟩, hlast⟩ := htest'
  obtain ⟨e, he, hrefused⟩ := (Option.any_eq_true _ _).mp hlast
  refine ⟨mapping, hmap, ⟨s, tr, hrun, htest⟩, s', tr', hrun', CreatePc.eq_of_returned hcreator,
    hpublished, hreturned, htail, ?_⟩
  rw [he]
  unfold popRefused at hrefused
  split at hrefused
  · rfl
  · cases hrefused

end Opening

end LfRing

import LfRing.Library.Ledger
import LfRing.Library.Machine
import LfRing.Bounds

/-!
# Who owns a descriptor and a mapping

`Mapping` of `src/shared_memory_mapping.cpp` owns a file descriptor and a mapped region.
`create_mapping` and `open_mapping` acquire the two one after the other and undo what they have when
a later step fails, moves pass them on, and `reset` and the destructor give them back.

`Mapping.lean` leaves the system calls out. Here they are in: any of them may fail, and whether it
does, and which descriptor or address it returns, is part of a step's label (`CreateAnswers`,
`OpenAnswers`). A `Mapping` object has the fields of the source (`Handle`), and a program is a
sequence of operations on any number of such objects (`machine`). Giving back what the library does
not have is a fault.

`owned_exactly` is the result: no program faults, the descriptors open and the regions mapped are
always exactly those of the live objects, one object each, and a call that throws leaves everything
as it was.
-/

namespace LfRing.Resources

/-! ## The system calls -/

/-- What the library has from the system. -/
structure Os where
  /-- The descriptors that it has opened and not closed. -/
  fds : Finset ℕ
  /-- The regions that it has mapped and not unmapped, each with its address and length. -/
  regions : Finset (ℕ × ℕ)
  /-- It has closed or unmapped something else. -/
  fault : Bool

namespace Os

/-- `open` succeeds with the descriptor `fd`, which is not open. -/
def opened (os : Os) (fd : ℕ) : Option Os :=
  if fd ∈ os.fds then none else some { os with fds := insert fd os.fds }

/-- `close`. -/
def close (os : Os) (fd : ℕ) : Os :=
  if fd ∈ os.fds then { os with fds := os.fds.erase fd } else { os with fault := true }

/-- `mmap` succeeds with the address `address`. It does not for a length of zero, and a new region
does not overlap another. -/
def mapped (os : Os) (address length : ℕ) : Option Os :=
  if address ≠ 0 ∧ 0 < length ∧ ∀ r ∈ os.regions, address + length ≤ r.1 ∨ r.1 + r.2 ≤ address then
    some { os with regions := insert (address, length) os.regions }
  else none

/-- `munmap`. -/
def munmap (os : Os) (address length : ℕ) : Os :=
  if (address, length) ∈ os.regions then { os with regions := os.regions.erase (address, length) }
  else { os with fault := true }

variable {os os' : Os} {fd address length : ℕ}

/-- A descriptor that `open` returns was not in use, and now is. -/
theorem opened_eq_some (h : os.opened fd = some os') :
    fd ∉ os.fds ∧ os' = { os with fds := insert fd os.fds } := by
  unfold opened at h
  split_ifs at h with hin
  cases h
  exact ⟨hin, rfl⟩

/-- A region that `mmap` returns is not empty and was not in use, and now is. -/
theorem mapped_eq_some (h : os.mapped address length = some os') :
    address ≠ 0 ∧ 0 < length ∧ (address, length) ∉ os.regions ∧
      os' = { os with regions := insert (address, length) os.regions } := by
  unfold mapped at h
  split_ifs at h with hfree
  cases h
  refine ⟨hfree.1, hfree.2.1, fun hin => ?_, rfl⟩
  have hapart := hfree.2.2 _ hin
  have hpos := hfree.2.1
  dsimp only at hapart
  omega

/-- A descriptor that was just opened is closed again. -/
theorem close_opened (h : os.opened fd = some os') : os'.close fd = os := by
  obtain ⟨hnew, rfl⟩ := opened_eq_some h
  unfold close
  rw [if_pos (Finset.mem_insert_self _ _), Finset.erase_insert hnew]

/-- A region that was just mapped is unmapped again. -/
theorem munmap_mapped (h : os.mapped address length = some os') :
    os'.munmap address length = os := by
  obtain ⟨-, -, hnew, rfl⟩ := mapped_eq_some h
  unfold munmap
  rw [if_pos (Finset.mem_insert_self _ _), Finset.erase_insert hnew]

end Os

/-! ## `Mapping` objects -/

/-- The fields of a `Mapping`. A null pointer is zero. -/
structure Handle where
  /-- `fd`, or -1. -/
  fd : ℤ
  /-- `mapping`, the address of the region. -/
  mapping : ℕ
  /-- `mapping_size`, its length. -/
  mappingSize : ℕ
  /-- `header`. -/
  header : ℕ
  /-- `control`. -/
  control : ℕ
  /-- `ring`. -/
  ring : ℕ
  /-- `capacity`. -/
  capacity : ℕ
deriving DecidableEq

namespace Handle

/-- The default member initializers, and what `reset` and a move leave behind. -/
def empty : Handle := ⟨-1, 0, 0, 0, 0, 0, 0⟩

/-- The fields that `create_mapping` and `open_mapping` return for a region mapped at `address`. -/
def of (fd address : ℕ) (mapping : Mapping) : Handle where
  fd := fd
  mapping := address
  mappingSize := mapping.mappingSize
  header := address
  control := address + mapping.header.controlOffset
  ring := address + mapping.header.ringOffset
  capacity := mapping.capacity

/-- The descriptor that `reset` closes. -/
def fd? (h : Handle) : Option ℕ := if 0 ≤ h.fd then some h.fd.toNat else none

/-- The region that `reset` unmaps. -/
def region? (h : Handle) : Option (ℕ × ℕ) :=
  if h.mapping ≠ 0 ∧ 0 < h.mappingSize then some (h.mapping, h.mappingSize) else none

/-- `reset`: what it does to the system, and the fields behind it. -/
def reset (os : Os) (h : Handle) : Os × Handle :=
  let os₁ := if h.mapping ≠ 0 ∧ 0 < h.mappingSize then os.munmap h.mapping h.mappingSize else os
  let os₂ := if 0 ≤ h.fd then os₁.close h.fd.toNat else os₁
  (os₂, empty)

/-- The empty object has no descriptor to close. -/
@[simp] theorem fd?_empty : empty.fd? = none := rfl

/-- The empty object has no region to unmap. -/
@[simp] theorem region?_empty : empty.region? = none := rfl

/-- The object that a call returns closes the descriptor that the call has opened. -/
@[simp] theorem fd?_of (fd address : ℕ) (mapping : Mapping) :
    (of fd address mapping).fd? = some fd := by
  unfold fd? of
  rw [if_pos (Int.natCast_nonneg fd), Int.toNat_natCast]

/-- The object that a call returns unmaps the region that the call has mapped. -/
theorem region?_of {fd address : ℕ} {mapping : Mapping} (ha : address ≠ 0)
    (hlen : 0 < mapping.mappingSize) :
    (of fd address mapping).region? = some (address, mapping.mappingSize) :=
  if_pos ⟨ha, hlen⟩

/-- What `reset` does to the system, by what the object has. -/
theorem reset_eq (os : Os) (h : Handle) :
    h.reset os = ((h.region?.elim os fun r => os.munmap r.1 r.2) |> fun os₁ =>
      h.fd?.elim os₁ fun fd => os₁.close fd, empty) := by
  unfold reset region? fd?
  split_ifs <;> rfl

end Handle

/-! ## `create_mapping` and `open_mapping` with their failures -/

/-- What the system answers to `create_mapping`. -/
structure CreateAnswers where
  /-- The descriptor that `open` returns, if it does not fail. -/
  fd : Option ℕ
  /-- `ftruncate` succeeds. -/
  ftruncate : Bool
  /-- The address that `mmap` returns, if it does not fail. -/
  address : Option ℕ

/-- `create_mapping`. There is no result for answers that the system does not give. Of the texts of
exceptions the system's own part is left out. -/
def createMapping (os : Os) (capacityBytes flags : ℕ) (answers : CreateAnswers) :
    Option (Os × Except String Handle) :=
  match LfRing.createMapping capacityBytes flags with
  | .error message => some (os, .error message)
  | .ok mapping =>
    match answers.fd with
    | none => some (os, .error "open (create) failed")
    | some fd =>
      match os.opened fd with
      | none => none
      | some os₁ =>
        if answers.ftruncate = false then some (os₁.close fd, .error "ftruncate failed")
        else
          match answers.address with
          | none => some (os₁.close fd, .error "mmap failed")
          | some address =>
            match os₁.mapped address mapping.mappingSize with
            | none => none
            | some os₂ => some (os₂, .ok (.of fd address mapping))

/-- What the system answers to `open_mapping`. -/
structure OpenAnswers where
  /-- The descriptor that `open` returns, if it does not fail. -/
  fd : Option ℕ
  /-- `fstat` succeeds. -/
  fstat : Bool
  /-- The address that `mmap` returns, if it does not fail. -/
  address : Option ℕ

/-- `open_mapping` of a file with the length and the header of `file`. The checks of the header are
those of `LfRing.openMapping`. -/
def openMapping (os : Os) (file : Mapping) (expectedFlags : ℕ) (answers : OpenAnswers) :
    Option (Os × Except String Handle) :=
  match answers.fd with
  | none => some (os, .error "open failed")
  | some fd =>
    match os.opened fd with
    | none => none
    | some os₁ =>
      if answers.fstat = false then some (os₁.close fd, .error "fstat failed")
      else if file.mappingSize < sizeofHeader then
        some (os₁.close fd, .error "shared memory file too small")
      else
        match answers.address with
        | none => some (os₁.close fd, .error "mmap failed")
        | some address =>
          match os₁.mapped address file.mappingSize with
          | none => none
          | some os₂ =>
            match LfRing.openMapping file expectedFlags with
            | .error message =>
              some ((os₂.munmap address file.mappingSize).close fd, .error message)
            | .ok mapping => some (os₂, .ok (.of fd address mapping))

/-- What a call has done to the system: nothing if it has thrown, and otherwise it has the
descriptor and the region that the object returned has. -/
def Acquires (os os' : Os) : Except String Handle → Prop
  | .error _ => os' = os
  | .ok h => ∃ fd region, h.fd? = some fd ∧ h.region? = some region ∧ fd ∉ os.fds ∧
      region ∉ os.regions ∧
      os' = { os with fds := insert fd os.fds, regions := insert region os.regions }

/-- Both acquisitions have succeeded. -/
theorem acquires_of {os os₁ os₂ : Os} {fd address : ℕ} {mapping : Mapping}
    (hopen : os.opened fd = some os₁) (hmap : os₁.mapped address mapping.mappingSize = some os₂) :
    Acquires os os₂ (.ok (.of fd address mapping)) := by
  obtain ⟨hfd, rfl⟩ := Os.opened_eq_some hopen
  obtain ⟨ha, hlen, hregion, rfl⟩ := Os.mapped_eq_some hmap
  exact ⟨fd, _, Handle.fd?_of _ _ _, Handle.region?_of ha hlen, hfd, hregion, rfl⟩

/-- `create_mapping` releases on every path that throws what it has acquired on the way. -/
theorem createMapping_acquires {os os' : Os} {capacityBytes flags : ℕ} {answers : CreateAnswers}
    {result : Except String Handle}
    (h : createMapping os capacityBytes flags answers = some (os', result)) :
    Acquires os os' result := by
  unfold createMapping at h
  split at h
  · cases h
    rfl
  · split at h
    · cases h
      rfl
    · split at h
      · cases h
      · rename_i hopen
        split_ifs at h
        · cases h
          exact Os.close_opened hopen
        · split at h
          · cases h
            exact Os.close_opened hopen
          · split at h
            · cases h
            · rename_i hmap
              cases h
              exact acquires_of hopen hmap

/-- `open_mapping` releases on every path that throws what it has acquired on the way. -/
theorem openMapping_acquires {os os' : Os} {file : Mapping} {expectedFlags : ℕ}
    {answers : OpenAnswers} {result : Except String Handle}
    (h : openMapping os file expectedFlags answers = some (os', result)) :
    Acquires os os' result := by
  unfold openMapping at h
  split at h
  · cases h
    rfl
  · split at h
    · cases h
    · rename_i hopen
      split_ifs at h
      · cases h
        exact Os.close_opened hopen
      · cases h
        exact Os.close_opened hopen
      · split at h
        · cases h
          exact Os.close_opened hopen
        · split at h
          · cases h
          · rename_i hmap
            split at h
            · cases h
              show Os.close (Os.munmap _ _ _) _ = _
              rw [Os.munmap_mapped hmap]
              exact Os.close_opened hopen
            · rename_i mapping hok
              cases h
              have hsize : mapping.mappingSize = file.mappingSize := by
                obtain ⟨rfl, -, -⟩ := openMapping_checks hok
                rfl
              rw [← hsize] at hmap
              exact acquires_of hopen hmap

/-! ## Programs -/

/-- The system and the live `Mapping` objects. -/
structure State where
  /-- What the library has from the system. -/
  os : Os
  /-- The live objects, each under a name. -/
  objects : ℕ → Option Handle

/-- What a program may do next. -/
inductive Label
  /-- Construct an empty object. -/
  | construct (i : ℕ)
  /-- Construct an object by `create_mapping`. -/
  | create (i capacityBytes flags : ℕ) (answers : CreateAnswers)
  /-- Construct an object by `open_mapping`. -/
  | open (i : ℕ) (file : Mapping) (expectedFlags : ℕ) (answers : OpenAnswers)
  /-- Construct the object `i` by moving from `j`. -/
  | moveConstruct (i j : ℕ)
  /-- Assign to the object `i` by moving from `j`, which may be the same. -/
  | moveAssign (i j : ℕ)
  /-- Call `reset`. -/
  | reset (i : ℕ)
  /-- End the life of an object. -/
  | destroy (i : ℕ)

/-- What a step reports. -/
inductive Event
  /-- The operation is done. -/
  | done
  /-- It has thrown. -/
  | threw (message : String)
deriving DecidableEq

/-- A new object has what the call returns. If the call throws, there is none. -/
def constructed (s : State) (i : ℕ) : Option (Os × Except String Handle) → Option (State × Event)
  | none => none
  | some (os, .error message) => some ({ s with os := os }, .threw message)
  | some (os, .ok h) => some (⟨os, Function.update s.objects i (some h)⟩, .done)

/-- The move assignment, for two objects: `i` gives back what it has, and gets what `j` has. -/
def moved (s : State) (i j : ℕ) (h h' : Handle) : State :=
  ⟨(h.reset s.os).1, Function.update (Function.update s.objects j (some .empty)) i (some h')⟩

/-- One operation. Names of new objects must be free, and other objects must be alive. The move
constructor starts with an empty object and assigns to it. -/
def step (s : State) : Label → Option (State × Event)
  | .construct i =>
    match s.objects i with
    | some _ => none
    | none => some ({ s with objects := Function.update s.objects i (some .empty) }, .done)
  | .create i capacityBytes flags answers =>
    match s.objects i with
    | some _ => none
    | none => constructed s i (createMapping s.os capacityBytes flags answers)
  | .open i file expectedFlags answers =>
    match s.objects i with
    | some _ => none
    | none => constructed s i (openMapping s.os file expectedFlags answers)
  | .moveConstruct i j =>
    match s.objects i, s.objects j with
    | none, some h' => some (moved s i j .empty h', .done)
    | _, _ => none
  | .moveAssign i j =>
    match s.objects i, s.objects j with
    | some h, some h' => some (if i = j then s else moved s i j h h', .done)
    | _, _ => none
  | .reset i =>
    match s.objects i with
    | none => none
    | some h => some (⟨(h.reset s.os).1, Function.update s.objects i (some (h.reset s.os).2)⟩,
        .done)
  | .destroy i =>
    match s.objects i with
    | none => none
    | some h => some (⟨(h.reset s.os).1, Function.update s.objects i none⟩, .done)

/-- A program that starts with nothing. -/
def machine : Machine State Label Event where
  init := ⟨⟨∅, ∅, false⟩, fun _ => none⟩
  step := step

/-! ## What a program keeps -/

/-- The descriptors of the objects. -/
def fdOf (o : Option Handle) : Option ℕ := o.bind Handle.fd?

/-- The regions of the objects. -/
def regionOf (o : Option Handle) : Option (ℕ × ℕ) := o.bind Handle.region?

/-- An object has both a descriptor and a region, or neither. -/
def Whole (o : Option Handle) : Prop := fdOf o = none ↔ regionOf o = none

/-- An object with neither of the two is whole. -/
theorem whole_of_none {o : Option Handle} (h : fdOf o = none) (h' : regionOf o = none) : Whole o :=
  ⟨fun _ => h', fun _ => h⟩

/-- The ledgers of descriptors and regions, and no fault. -/
structure Inv (os : Os) (objects : ℕ → Option Handle) : Prop where
  /-- Every open descriptor is that of one object. -/
  fds : Ledger (fdOf ∘ objects) os.fds
  /-- Every mapped region is that of one object. -/
  regions : Ledger (regionOf ∘ objects) os.regions
  /-- The objects have both or neither. -/
  whole : ∀ i, Whole (objects i)
  /-- Nothing was given back that the library did not have. -/
  ok : os.fault = false

namespace Inv

variable {os os' : Os} {objects : ℕ → Option Handle} {i j : ℕ} {h h' : Handle} {o : Option Handle}

/-- The other objects stay whole. -/
theorem whole_update (hinv : Inv os objects) (ho : Whole o) (k : ℕ) :
    Whole (Function.update objects i o k) := by
  by_cases hk : k = i
  · subst hk
    rw [Function.update_self]
    exact ho
  · rw [Function.update_of_ne hk]
    exact hinv.whole k

/-- An object without descriptor and region is replaced by another such, or by none. -/
theorem idle (hinv : Inv os objects) (hnone : fdOf (objects i) = none) (ho : fdOf o = none)
    (ho' : regionOf o = none) : Inv os (Function.update objects i o) where
  fds := by
    rw [Function.comp_update, ho]
    exact hinv.fds.idle hnone
  regions := by
    rw [Function.comp_update, ho']
    exact hinv.regions.idle ((hinv.whole i).mp hnone)
  whole := hinv.whole_update (whole_of_none ho ho')
  ok := hinv.ok

/-- A new object with what was just acquired. -/
theorem acquire (hinv : Inv os objects) (hnone : objects i = none)
    (hacq : Acquires os os' (.ok h)) :
    Inv os' (Function.update objects i (some h)) := by
  obtain ⟨fd, region, hfd, hregion, hnewfd, hnewregion, rfl⟩ := hacq
  have hfd' : fdOf (some h) = some fd := hfd
  have hregion' : regionOf (some h) = some region := hregion
  refine ⟨?_, ?_, hinv.whole_update (by rw [Whole, hfd', hregion']; simp), hinv.ok⟩
  · rw [Function.comp_update, hfd']
    exact hinv.fds.take (by simp [hnone, fdOf]) hnewfd
  · rw [Function.comp_update, hregion']
    exact hinv.regions.take (by simp [hnone, regionOf]) hnewregion

/-- `reset` gives back exactly what the object has. -/
theorem reset (hinv : Inv os objects) (hi : objects i = some h) (ho : fdOf o = none)
    (ho' : regionOf o = none) :
    Inv (h.reset os).1 (Function.update objects i o) := by
  have hfd : fdOf (objects i) = h.fd? := by rw [hi]; rfl
  have hregion : regionOf (objects i) = h.region? := by rw [hi]; rfl
  have hwhole := hinv.whole i
  rw [Whole, hfd, hregion] at hwhole
  rw [Handle.reset_eq]
  cases hf : h.fd? with
  | none =>
    rw [hwhole.mp hf]
    exact hinv.idle (hfd.trans hf) ho ho'
  | some fd =>
    cases hr : h.region? with
    | none =>
      rw [hwhole.mpr hr] at hf
      cases hf
    | some region =>
      -- Both are in the ledgers, so that neither call faults.
      have hinr : region ∈ os.regions := (hinv.regions.mem_iff _).mpr ⟨i, hregion.trans hr⟩
      have hinf : fd ∈ os.fds := (hinv.fds.mem_iff _).mpr ⟨i, hfd.trans hf⟩
      show Inv ((os.munmap region.1 region.2).close fd) _
      unfold Os.munmap
      rw [if_pos hinr]
      unfold Os.close
      rw [if_pos hinf]
      refine ⟨?_, ?_, hinv.whole_update (whole_of_none ho ho'), hinv.ok⟩
      · rw [Function.comp_update, ho]
        exact hinv.fds.give (hfd.trans hf)
      · rw [Function.comp_update, ho']
        exact hinv.regions.give (hregion.trans hr)

/-- An object gets what another one has, which is empty then. -/
theorem pass (hinv : Inv os objects) (hnone : fdOf (objects i) = none) (hj : objects j = some h') :
    Inv os (Function.update (Function.update objects j (some .empty)) i (some h')) where
  fds := by
    rw [Function.comp_update, Function.comp_update, show fdOf (some h') =
      (fdOf ∘ objects) j by simp [hj]]
    exact hinv.fds.pass hnone
  regions := by
    rw [Function.comp_update, Function.comp_update,
      show regionOf (some h') = (regionOf ∘ objects) j by simp [hj]]
    exact hinv.regions.pass ((hinv.whole i).mp hnone)
  whole := by
    intro k
    by_cases hk : k = i
    · subst hk
      rw [Function.update_self, ← hj]
      exact hinv.whole j
    · rw [Function.update_of_ne hk]
      exact hinv.whole_update (whole_of_none rfl rfl) k
  ok := hinv.ok

/-- The move assignment. -/
theorem move {s : State} (hinv : Inv s.os s.objects) (hi : s.objects i = some h)
    (hj : s.objects j = some h') (hij : i ≠ j) :
    Inv (moved s i j h h').os (moved s i j h h').objects := by
  have hreset := hinv.reset (o := some .empty) hi rfl rfl
  have hmoved : Function.update s.objects i (some .empty) j = some h' := by
    rw [Function.update_of_ne hij.symm]
    exact hj
  have hpass := hreset.pass (i := i) (by rw [Function.update_self]; rfl) hmoved
  -- What the object had in between does not matter.
  rw [Function.update_comm hij, Function.update_idem] at hpass
  exact hpass

end Inv

/-- A call that throws leaves the system as it was, and one that returns adds what its object
has. -/
theorem inv_of_constructed {s s' : State} {i : ℕ} {r : Option (Os × Except String Handle)}
    {e : Event} (hinv : Inv s.os s.objects) (hnone : s.objects i = none)
    (hacq : ∀ os result, r = some (os, result) → Acquires s.os os result)
    (hs : constructed s i r = some (s', e)) :
    Inv s'.os s'.objects ∧ ∀ message, e = .threw message → s' = s := by
  unfold constructed at hs
  split at hs
  · cases hs
  · rename_i os message
    obtain rfl : os = s.os := hacq _ _ rfl
    cases hs
    exact ⟨hinv, fun _ _ => rfl⟩
  · rename_i os h
    cases hs
    exact ⟨hinv.acquire hnone (hacq _ _ rfl), by rintro _ ⟨⟩⟩

/-- Every operation keeps the ledgers, and one that throws changes nothing. -/
theorem Inv.step {s s' : State} {l : Label} {e : Event} (hinv : Inv s.os s.objects)
    (hs : Resources.step s l = some (s', e)) :
    Inv s'.os s'.objects ∧ ∀ message, e = .threw message → s' = s := by
  cases l with
  | construct i =>
    simp only [Resources.step] at hs
    split at hs
    · cases hs
    · rename_i hnone
      cases hs
      exact ⟨hinv.idle (by rw [hnone]; rfl) rfl rfl, by rintro _ ⟨⟩⟩
  | create i capacityBytes flags answers =>
    simp only [Resources.step] at hs
    split at hs
    · cases hs
    · rename_i hnone
      exact inv_of_constructed hinv hnone (fun _ _ => createMapping_acquires) hs
  | «open» i file expectedFlags answers =>
    simp only [Resources.step] at hs
    split at hs
    · cases hs
    · rename_i hnone
      exact inv_of_constructed hinv hnone (fun _ _ => openMapping_acquires) hs
  | moveConstruct i j =>
    simp only [Resources.step] at hs
    split at hs
    · rename_i h' hi hj
      cases hs
      exact ⟨hinv.pass (by rw [hi]; rfl) hj, by rintro _ ⟨⟩⟩
    · cases hs
  | moveAssign i j =>
    simp only [Resources.step] at hs
    split at hs
    · rename_i h h' hi hj
      cases hs
      refine ⟨?_, by rintro _ ⟨⟩⟩
      split_ifs with hij
      · exact hinv
      · exact hinv.move hi hj hij
    · cases hs
  | reset i =>
    simp only [Resources.step] at hs
    split at hs
    · cases hs
    · rename_i h hi
      cases hs
      exact ⟨hinv.reset hi rfl rfl, by rintro _ ⟨⟩⟩
  | destroy i =>
    simp only [Resources.step] at hs
    split at hs
    · cases hs
    · rename_i h hi
      cases hs
      exact ⟨hinv.reset hi rfl rfl, by rintro _ ⟨⟩⟩

/-- The ledgers hold at every moment of a run. -/
theorem inv_of_reaches {s : State} {tr : List Event} (h : machine.Reaches s tr) :
    Inv s.os s.objects := by
  refine h.invariant (fun s _ => Inv s.os s.objects)
    ⟨.empty, .empty, fun _ => whole_of_none rfl rfl, rfl⟩ ?_
  intro s tr l s' e _ hinv hs
  exact (hinv.step hs).1

/-- Descriptors and mappings are owned. In every state that a program on `Mapping` objects reaches,
whatever the system calls answer:

* nothing was closed or unmapped that the library did not have;
* the open descriptors are those of the live objects, and the mapped regions are theirs as well;
* no two objects have the same descriptor or the same region, and each has both or neither;
* when no object is left, nothing is open or mapped.

A `create_mapping` or `open_mapping` that throws has changed nothing. -/
theorem owned_exactly {s : State} {tr : List Event} (hrun : machine.Reaches s tr) :
    s.os.fault = false ∧
    (∀ fd, fd ∈ s.os.fds ↔ ∃ i h, s.objects i = some h ∧ h.fd? = some fd) ∧
    (∀ r, r ∈ s.os.regions ↔ ∃ i h, s.objects i = some h ∧ h.region? = some r) ∧
    (∀ i j h h', s.objects i = some h → s.objects j = some h' → i ≠ j →
      (∀ fd, h.fd? = some fd → h'.fd? ≠ some fd) ∧ ∀ r, h.region? = some r → h'.region? ≠ some r) ∧
    (∀ i h, s.objects i = some h → (h.fd? = none ↔ h.region? = none)) ∧
    ((∀ i, s.objects i = none) → s.os.fds = ∅ ∧ s.os.regions = ∅) ∧
    ∀ l s' message, machine.step s l = some (s', .threw message) → s' = s := by
  have hinv := inv_of_reaches hrun
  refine ⟨hinv.ok, ?_, ?_, ?_, ?_, ?_, ?_⟩
  · intro fd
    rw [hinv.fds.mem_iff]
    simp only [Function.comp_apply, fdOf, Option.bind_eq_some_iff]
  · intro r
    rw [hinv.regions.mem_iff]
    simp only [Function.comp_apply, regionOf, Option.bind_eq_some_iff]
  · intro i j h h' hi hj hij
    constructor
    · intro fd hfd hfd'
      exact hij (hinv.fds.unique i j fd (by simp [fdOf, hi, hfd]) (by simp [fdOf, hj, hfd']))
    · intro r hr hr'
      exact hij (hinv.regions.unique i j r (by simp [regionOf, hi, hr])
        (by simp [regionOf, hj, hr']))
  · intro i h hi
    have hwhole := hinv.whole i
    rw [Whole, hi] at hwhole
    exact hwhole
  · intro hnone
    exact ⟨hinv.fds.out_eq_empty fun i => by simp [fdOf, hnone i],
      hinv.regions.out_eq_empty fun i => by simp [regionOf, hnone i]⟩
  · intro l s' message hs
    exact (hinv.step hs).2 message rfl

/-- Two calls that throw, two that return, and a move of one object to the other. -/
def program : List Label :=
  [.create 0 64 kFlagMPSC ⟨some 3, true, none⟩, .create 0 64 kFlagMPSC ⟨some 3, true, some 4096⟩,
    .open 1 (smallFile 384) kFlagMPMC ⟨some 4, true, some 8192⟩,
    .open 1 (smallFile 384) kFlagMPSC ⟨some 4, true, some 8192⟩, .moveAssign 0 1, .reset 1]

/-- Afterwards the second descriptor is open, the first one is not, and the first object has it. -/
theorem owned_exactly_program : ∃ s tr, machine.Reaches s tr ∧
    tr = [.threw "mmap failed", .done, .threw "ring buffer mode mismatch", .done, .done, .done] ∧
    3 ∉ s.os.fds ∧ s.os.fault = false ∧ ∃ i h, s.objects i = some h ∧ h.fd? = some 4 := by
  obtain ⟨s, tr, hrun, htest⟩ := machine.exists_reaches program
    (fun s tr =>
      decide (tr = [.threw "mmap failed", .done, .threw "ring buffer mode mismatch", .done, .done,
      .done]) && decide (3 ∉ s.os.fds) && decide (4 ∈ s.os.fds)) (by decide +kernel)
  simp only [Bool.and_eq_true, decide_eq_true_eq] at htest
  obtain ⟨⟨htr, hclosed⟩, hopen⟩ := htest
  obtain ⟨hok, hfds, -⟩ := owned_exactly hrun
  exact ⟨s, tr, hrun, htr, hclosed, hok, (hfds 4).mp hopen⟩

end LfRing.Resources

import LfRing.Library.Progress
import LfRing.Ring.Opening

/-!
# Who gets the file

The processes that use a topic may start in any order, and `claim` of `SharedRingBufferSPSC`,
`SPSCQueue` and `SharedLatest` is made for that: it asks whether there is a file, and creates or
opens it. `Ring/Opening.lean` has one process that creates and others that open. Here any number of
processes call `create`, `open` and `claim` for one path, and who creates the file is decided by the
system: `open` with `O_CREAT | O_EXCL` fails if there is one. The steps of `create_mapping` and
`open_mapping` are those of that module, with the calls that may fail in the middle.

* However the calls race, one of them makes the file, and every `open_mapping` that returns has the
  geometry and the mode of that one (`one_maker`).
* The file is not removed if its maker dies or throws before the header is complete. From then on
  every call for the path throws (`abandoned_forever`).
-/

namespace LfRing.Arrival

open Opening (FileStore OpenPc OpenEvent CreatePc View zeroHeader stores)

/-- A call for the path. The mode is one of the `kFlag` constants. -/
inductive Request
  /-- `create`. -/
  | create (capacityBytes flags : ℕ)
  /-- `open`. -/
  | open (flags : ℕ)
  /-- `claim`. -/
  | claim (capacityBytes flags : ℕ)

/-- The mode that a call creates or expects. -/
def Request.flags : Request → ℕ
  | create _ flags => flags
  | .open flags => flags
  | claim _ flags => flags

/-- Where a process is. -/
inductive Pc
  /-- Before its call, or the call has thrown. -/
  | idle
  /-- In `claim`, about to ask whether there is a file. -/
  | ask (capacityBytes flags : ℕ)
  /-- In `create_mapping`, about to create the file. -/
  | createFile (mapping : Mapping)
  /-- About to give it its length. -/
  | truncate (mapping : Mapping)
  /-- About to map it. -/
  | map (mapping : Mapping)
  /-- About to make the stores `todo`. With none left, `create_mapping` has returned. -/
  | store (mapping : Mapping) (todo : List FileStore)
  /-- In `open_mapping`, with the mode expected. -/
  | opening (flags : ℕ) (pc : OpenPc)

/-- What a process may do next. -/
inductive Act
  /-- Call. -/
  | call (r : Request)
  /-- Take the next step. -/
  | run
  /-- Let the next system call fail. -/
  | fail

/-- What a step does to the file. -/
inductive FileEffect
  /-- Nothing. -/
  | none
  /-- It gives the file a length, or makes an empty one. -/
  | resize (size : ℕ)
  /-- A store to the file. -/
  | store (st : FileStore)

/-- What a step of a process reports. -/
inductive PcEvent
  /-- A step inside the call. -/
  | internal
  /-- The call has thrown. Where the system's own text follows, it is left out. -/
  | threw (message : String)
  /-- The process has made the file. -/
  | made (mapping : Mapping)
  /-- `create_mapping` has returned. -/
  | created (mapping : Mapping)
  /-- `open_mapping` has returned, and had been called for this mode. -/
  | opened (flags : ℕ) (view : View)

namespace Pc

/-- The entry of `create_mapping`. -/
def enter (capacityBytes flags : ℕ) : Pc × PcEvent :=
  match createMapping capacityBytes flags with
  | .error message => (idle, .threw message)
  | .ok mapping => (createFile mapping, .internal)

/-- The entry of a call. -/
def called : Request → Pc × PcEvent
  | .create capacityBytes flags => enter capacityBytes flags
  | .open flags => (opening flags (.open flags), .internal)
  | .claim capacityBytes flags => (ask capacityBytes flags, .internal)

/-- What the store before `todo` reports. With the last one `create_mapping` returns. -/
def stored (mapping : Mapping) : List FileStore → PcEvent
  | [] => .created mapping
  | _ :: _ => .internal

/-- After a step of `open_mapping`. -/
def openStepped (flags : ℕ) : OpenPc × OpenEvent → Pc × PcEvent
  | (.opened view, .returned) => (opening flags (.opened view), .opened flags view)
  | (_, .threw message) => (idle, .threw message)
  | (pc, _) => (opening flags pc, .internal)

/-- The system call that is next in `open_mapping` fails. The file is mapped with the first load. -/
def openFailed : OpenPc → Option String
  | .open _ => some "open failed"
  | .stat _ => some "fstat failed"
  | .loadMagic _ _ => some "mmap failed"
  | _ => none

/-- One step of a process, on a file of the given length, if there is one, and with the given
header. -/
def step (size? : Option ℕ) (h : Header) : Pc → Act → Option (FileEffect × Pc × PcEvent)
  | idle, .call r => if r.flags ≠ 0 then some (.none, called r) else none
  | ask capacityBytes flags, .run =>
    match size? with
    | none => some (.none, enter capacityBytes flags)
    | some _ => some (.none, opening flags (.open flags), .internal)
  | createFile mapping, .run =>
    match size? with
    | none => some (.resize 0, truncate mapping, .made mapping)
    | some _ => some (.none, idle, .threw "open (create) failed")
  | createFile _, .fail => some (.none, idle, .threw "open (create) failed")
  | truncate mapping, .run => some (.resize mapping.mappingSize, map mapping, .internal)
  | truncate _, .fail => some (.none, idle, .threw "ftruncate failed")
  | map mapping, .run => some (.none, store mapping (stores mapping), .internal)
  | map _, .fail => some (.none, idle, .threw "mmap failed")
  | store mapping (st :: todo), .run => some (.store st, store mapping todo, stored mapping todo)
  | opening flags pc, .run => (pc.step size? h).map fun x => (.none, openStepped flags x)
  | opening _ pc, .fail => (openFailed pc).map fun message => (.none, idle, .threw message)
  | _, _ => none

/-- The process is in `create_mapping` with a file that it has made. -/
def creating : Pc → Bool
  | truncate _ => true
  | map _ => true
  | store _ _ => true
  | _ => false

end Pc

/-- The file, and the place of every process. -/
structure State where
  /-- The length of the file, if there is one. -/
  size? : Option ℕ
  /-- The header of the file. -/
  header : Header
  /-- Where each process is. -/
  procs : ℕ → Pc

/-- The file after a step. -/
def FileEffect.apply (s : State) : FileEffect → State
  | none => s
  | resize size => { s with size? := some size }
  | store st => { s with header := st.onHeader s.header }

/-- A step of a process. -/
structure Label where
  /-- Whose step it is. -/
  proc : ℕ
  /-- What it does. -/
  act : Act

/-- What a step reports. -/
structure Event where
  /-- Whose step it was. -/
  proc : ℕ
  /-- What it reports. -/
  what : PcEvent

/-- One step. -/
def step (s : State) (l : Label) : Option (State × Event) :=
  match (s.procs l.proc).step s.size? s.header l.act with
  | none => none
  | some (eff, pc, e) =>
    some ({ eff.apply s with procs := Function.update s.procs l.proc pc }, ⟨l.proc, e⟩)

/-- Any number of processes, and no file. -/
def machine : Machine State Label Event where
  init := ⟨none, zeroHeader, fun _ => .idle⟩
  step := step

/-- A step, taken apart. -/
theorem step_eq_some {s s' : State} {l : Label} {e : Event} (h : step s l = some (s', e)) :
    ∃ eff pc pe, (s.procs l.proc).step s.size? s.header l.act = some (eff, pc, pe) ∧
      s' = { FileEffect.apply s eff with procs := Function.update s.procs l.proc pc } ∧
      e = ⟨l.proc, pe⟩ := by
  unfold step at h
  split at h
  · cases h
  · rename_i eff pc pe hs
    cases h
    exact ⟨eff, pc, pe, hs, rfl, rfl⟩

/-- The transitions, one constructor each. The steps that throw are not told apart: none of them
touches the file. -/
inductive Step (size? : Option ℕ) (h : Header) : Pc → FileEffect → Pc → PcEvent → Prop
  /-- A call throws. -/
  | throw (pc : Pc) (message : String) : Step size? h pc .none .idle (.threw message)
  /-- A call of `create`. -/
  | create (mapping : Mapping) (hf : mapping.header.flags ≠ 0) :
    Step size? h .idle .none (.createFile mapping) .internal
  /-- A call of `open`. -/
  | open (flags : ℕ) (hf : flags ≠ 0) :
    Step size? h .idle .none (.opening flags (.open flags)) .internal
  /-- A call of `claim`. -/
  | claim (capacityBytes flags : ℕ) (hf : flags ≠ 0) :
    Step size? h .idle .none (.ask capacityBytes flags) .internal
  /-- `claim` finds no file. -/
  | absent (capacityBytes flags : ℕ) (mapping : Mapping) (hf : mapping.header.flags = flags)
    (hn : size? = none) :
    Step size? h (.ask capacityBytes flags) .none (.createFile mapping) .internal
  /-- `claim` finds a file. -/
  | present (capacityBytes flags : ℕ) (hn : size? ≠ none) :
    Step size? h (.ask capacityBytes flags) .none (.opening flags (.open flags)) .internal
  /-- The file is made. -/
  | make (mapping : Mapping) (hn : size? = none) :
    Step size? h (.createFile mapping) (.resize 0) (.truncate mapping) (.made mapping)
  /-- It gets its length. -/
  | truncate (mapping : Mapping) :
    Step size? h (.truncate mapping) (.resize mapping.mappingSize) (.map mapping) .internal
  /-- It is mapped. -/
  | map (mapping : Mapping) :
    Step size? h (.map mapping) .none (.store mapping (stores mapping)) .internal
  /-- A store of the maker. -/
  | store (mapping : Mapping) (st : FileStore) (todo : List FileStore) (e : PcEvent)
    (he : e = .internal ∨ e = .created mapping) :
    Step size? h (.store mapping (st :: todo)) (.store st) (.store mapping todo) e
  /-- A step in `open_mapping` that does not throw. -/
  | opening (flags : ℕ) (pc pc' : OpenPc) (oe : OpenEvent) (e : PcEvent)
    (hs : pc.step size? h = some (pc', oe)) (ht : ∀ message, oe ≠ .threw message)
    (he : e = .internal ∨ ∃ view, e = .opened flags view ∧ pc' = .opened view) :
    Step size? h (.opening flags pc) .none (.opening flags pc') e

/-- The mode that `create_mapping` puts into the header is the one asked for. -/
theorem flags_of_createMapping {capacityBytes flags : ℕ} {mapping : Mapping}
    (h : createMapping capacityBytes flags = .ok mapping) : mapping.header.flags = flags := by
  rw [(createMapping_fields h).2.1]

/-- Every step of a process is one of the transitions. -/
theorem Pc.step_cases {size? : Option ℕ} {h : Header} {pc pc' : Pc} {a : Act} {eff : FileEffect}
    {e : PcEvent} (hs : pc.step size? h a = some (eff, pc', e)) : Step size? h pc eff pc' e := by
  cases pc with
  | idle =>
    cases a with
    | call r =>
      simp only [Pc.step] at hs
      split_ifs at hs with hf
      cases r with
      | create capacityBytes flags =>
        simp only [called, enter] at hs
        split at hs
        · cases hs
          exact .throw _ _
        · rename_i mapping hmap
          cases hs
          exact .create mapping (by rw [flags_of_createMapping hmap]; exact hf)
      | «open» flags =>
        cases hs
        exact .open flags hf
      | claim capacityBytes flags =>
        cases hs
        exact .claim capacityBytes flags hf
    | run => cases hs
    | fail => cases hs
  | ask capacityBytes flags =>
    cases a with
    | run =>
      simp only [Pc.step, enter] at hs
      split at hs
      · split at hs
        · cases hs
          exact .throw _ _
        · rename_i mapping hmap
          cases hs
          exact .absent capacityBytes flags mapping (flags_of_createMapping hmap) rfl
      · cases hs
        exact .present capacityBytes flags (Option.some_ne_none _)
    | call r => cases hs
    | fail => cases hs
  | createFile mapping =>
    cases a with
    | run =>
      simp only [Pc.step] at hs
      split at hs
      · cases hs
        exact .make mapping rfl
      · cases hs
        exact .throw _ _
    | fail =>
      cases hs
      exact .throw _ _
    | call r => cases hs
  | truncate mapping =>
    cases a with
    | run =>
      cases hs
      exact .truncate mapping
    | fail =>
      cases hs
      exact .throw _ _
    | call r => cases hs
  | map mapping =>
    cases a with
    | run =>
      cases hs
      exact .map mapping
    | fail =>
      cases hs
      exact .throw _ _
    | call r => cases hs
  | store mapping todo =>
    cases a with
    | run =>
      cases todo with
      | nil => cases hs
      | cons st todo =>
        cases hs
        refine .store mapping st todo _ ?_
        cases todo with
        | nil => exact Or.inr rfl
        | cons st' todo => exact Or.inl rfl
    | call r => cases todo <;> cases hs
    | fail => cases todo <;> cases hs
  | opening flags pc =>
    cases a with
    | run =>
      obtain ⟨⟨pc₁, oe⟩, hopen, heq⟩ := Option.map_eq_some_iff.mp hs
      obtain ⟨rfl, heq⟩ := Prod.mk.inj heq
      unfold openStepped at heq
      split at heq
      · rename_i view heq'
        cases heq'
        cases heq
        exact .opening flags pc _ _ _ hopen (fun _ ht => OpenEvent.noConfusion ht)
          (Or.inr ⟨view, rfl, rfl⟩)
      · cases heq
        exact .throw _ _
      · rename_i hthrew heq'
        cases heq'
        cases heq
        exact .opening flags pc _ _ _ hopen (fun message ht => hthrew message (by rw [ht]))
          (Or.inl rfl)
    | fail =>
      obtain ⟨message, -, heq⟩ := Option.map_eq_some_iff.mp hs
      cases heq
      exact .throw _ message
    | call r => cases hs

/-! ## What the processes keep -/

/-- The process that an event says has made the file, with the mapping it is making. -/
def Event.made? (e : Event) : List (ℕ × Mapping) :=
  match e.what with
  | .made mapping => [(e.proc, mapping)]
  | _ => []

/-- The processes that have made the file. -/
def makers (tr : List Event) : List (ℕ × Mapping) := tr.flatMap Event.made?

/-- A call has returned. -/
def PcEvent.returned : PcEvent → Bool
  | created _ => true
  | opened _ _ => true
  | _ => false

/-- A call that returns in process `i` has the file that `w` has made for `mapping`. -/
def PcEvent.Has (w : ℕ) (mapping : Mapping) (i : ℕ) : PcEvent → Prop
  | created other => i = w ∧ other = mapping
  | opened flags view => flags = mapping.header.flags ∧ view = Opening.Header.view mapping.header
  | _ => True

/-- An opener expects the mode `flags`, and has compared it with `mode` once it is past its load. -/
def Expects (flags mode : ℕ) : OpenPc → Prop
  | .idle => True
  | .open expectedFlags => expectedFlags = flags
  | .stat expectedFlags => expectedFlags = flags
  | .loadMagic expectedFlags _ => expectedFlags = flags
  | .loadVersion expectedFlags _ => expectedFlags = flags
  | .loadFlags expectedFlags _ => expectedFlags = flags
  | _ => flags = mode

/-- What is known of a process before there is a file. -/
def Pc.Before : Pc → Prop
  | idle => True
  | ask _ flags => flags ≠ 0
  | createFile mapping => mapping.header.flags ≠ 0
  | opening flags pc => flags ≠ 0 ∧ pc = .open flags
  | _ => False

/-- What is known of process `i` when process `w` has made the file for `mapping`, and has come to
`c`. -/
def Pc.Behind (w : ℕ) (mapping : Mapping) (c : CreatePc) (i : ℕ) : Pc → Prop
  | idle => True
  | ask _ flags => flags ≠ 0
  | createFile other => other.header.flags ≠ 0
  | truncate other => i = w ∧ other = mapping ∧ c = .truncate
  | map other => i = w ∧ other = mapping ∧ c = .truncate
  | store other todo => i = w ∧ other = mapping ∧ c = .store todo
  | opening flags pc => pc.Ok mapping c.Described ∧ Expects flags mapping.header.flags pc

/-- There is no file. -/
structure Absent (s : State) (tr : List Event) : Prop where
  /-- Nobody has made it. -/
  makers : makers tr = []
  /-- No call has returned. -/
  events : ∀ e ∈ tr, e.what.returned = false
  /-- It has no length. -/
  size : s.size? = none
  /-- Its header will be zero. -/
  header : s.header = zeroHeader
  /-- What is known of every process. -/
  procs : ∀ i, (s.procs i).Before

/-- Process `w` has made the file for `mapping`, and has come to `c`. -/
structure Present (s : State) (tr : List Event) (w : ℕ) (mapping : Mapping) (c : CreatePc) :
    Prop where
  /-- It is the only one. -/
  makers : makers tr = [(w, mapping)]
  /-- Every call that has returned has this file. -/
  events : ∀ e ∈ tr, e.what.Has w mapping e.proc
  /-- The file has a length. -/
  size : s.size? ≠ none
  /-- The mode is not zero. -/
  flags : mapping.header.flags ≠ 0
  /-- The header. -/
  creator : c.Ok mapping s.header
  /-- What is known of every process. -/
  procs : ∀ i, (s.procs i).Behind w mapping c i

/-- One or the other. -/
def Inv (s : State) (tr : List Event) : Prop :=
  Absent s tr ∨ ∃ w mapping c, Present s tr w mapping c

/-- One more step adds the file that it makes, if it makes one. -/
theorem makers_append (tr : List Event) (e : Event) :
    makers (tr ++ [e]) = makers tr ++ e.made? := by
  simp [makers]

/-- What holds of the events so far and of one more. -/
theorem forall_mem_concat {P : Event → Prop} {tr : List Event} {e : Event} (htr : ∀ x ∈ tr, P x)
    (he : P e) :
    ∀ x ∈ tr ++ [e], P x := by
  intro x hx
  rcases List.mem_append.mp hx with hx | hx
  · exact htr x hx
  · rw [List.mem_singleton.mp hx]
    exact he

/-- A call that has not returned has nothing to agree with. -/
theorem PcEvent.has_of_returned {e : PcEvent} (h : e.returned = false) (w : ℕ) (mapping : Mapping)
    (i : ℕ) :
    e.Has w mapping i := by
  cases e with
  | created other => cases h
  | opened flags view => cases h
  | _ => trivial

/-- The load of `flags` finds the mode expected. -/
theorem Expects.step {mapping : Mapping} {d : Prop} {flags : ℕ} {pc pc' : OpenPc}
    {size? : Option ℕ} {h : Header} {e : OpenEvent} (hexp : Expects flags mapping.header.flags pc)
    (hok : pc.Ok mapping d) (hflags : h.flags ≠ 0 → d) (hheader : d → h = mapping.header)
    (hs : pc.step size? h = some (pc', e)) :
    Expects flags mapping.header.flags pc' := by
  cases pc with
  | idle => cases hs
  | opened view => cases hs
  | loadFlags expectedFlags size =>
    simp only [OpenPc.step] at hs
    split at hs <;> cases hs
    · trivial
    · rename_i heq
      rw [not_not] at heq
      -- The mode found is not zero, so the header is complete.
      have hmode : h.flags ≠ 0 := heq ▸ hok
      show flags = mapping.header.flags
      rw [← hheader (hflags hmode), heq]
      exact hexp.symm
  | loadControlOffset size cap ringOffset =>
    simp only [OpenPc.step, OpenPc.checked, Option.some.injEq] at hs
    split_ifs at hs <;> cases hs
    · trivial
    · trivial
    · exact hexp
  | loadCapacity size => cases hs; exact hexp
  | loadRingOffset size cap => cases hs; exact hexp
  | _ =>
    simp only [OpenPc.step] at hs
    split at hs <;> cases hs
    · trivial
    · exact hexp

section Steps

variable {s : State} {tr : List Event} {i w : ℕ} {mapping : Mapping} {c c' : CreatePc} {pc' : Pc}
  {e : PcEvent}

/-- The file and its maker, seen as the creator of `Ring/Opening.lean`. Nobody uses the ring. -/
def State.asOpening (s : State) (c : CreatePc) : Opening.State Opening.spscUsers.σ :=
  ⟨s.size?, s.header, Opening.spscUsers.start Shared.fresh, c, fun _ => .idle⟩

/-- What is known of the file and its maker is what `Ring/Opening.lean` knows of its creator. -/
theorem Present.asOpening (h : Present s tr w mapping c) : Opening.Inv mapping (s.asOpening c) :=
  ⟨h.creator, fun _ => trivial⟩

/-- A process moves on before there is a file. -/
theorem Absent.update (h : Absent s tr) (hm : (Event.mk i e).made? = []) (he : e.returned = false)
    (hpc : pc'.Before) :
    Absent { s with procs := Function.update s.procs i pc' } (tr ++ [⟨i, e⟩]) where
  makers := by rw [makers_append, hm, h.makers]; rfl
  events := forall_mem_concat h.events he
  size := h.size
  header := h.header
  procs := (Function.forall_update_iff s.procs fun _ pc => pc.Before).mpr
    ⟨hpc, fun j _ => h.procs j⟩

/-- A process moves on when there is one, and does not touch it. -/
theorem Present.update (h : Present s tr w mapping c) (hm : (Event.mk i e).made? = [])
    (he : e.Has w mapping i) (hpc : pc'.Behind w mapping c i) :
    Present { s with procs := Function.update s.procs i pc' } (tr ++ [⟨i, e⟩]) w mapping c where
  makers := by rw [makers_append, hm, h.makers]; rfl
  events := forall_mem_concat h.events he
  size := h.size
  flags := h.flags
  creator := h.creator
  procs := (Function.forall_update_iff s.procs fun j pc => pc.Behind w mapping c j).mpr
    ⟨hpc, fun j _ => h.procs j⟩

/-- The places of all processes when the maker comes to `c'`. -/
theorem Present.others (h : Present s tr w mapping c) (hc : c.Described → c'.Described)
    (hpc : pc'.Behind w mapping c' w) (j : ℕ) :
    (Function.update s.procs w pc' j).Behind w mapping c' j := by
  refine (Function.forall_update_iff s.procs fun j pc => pc.Behind w mapping c' j).mpr ⟨hpc, ?_⟩ j
  intro j hj
  have hold := h.procs j
  cases hpcj : s.procs j with
  | opening flags pc =>
    rw [hpcj] at hold
    exact ⟨hold.1.mono hc, hold.2⟩
  -- Only the maker is at one of the next three places.
  | truncate other => rw [hpcj] at hold; exact absurd hold.1 hj
  | map other => rw [hpcj] at hold; exact absurd hold.1 hj
  | store other todo => rw [hpcj] at hold; exact absurd hold.1 hj
  | idle => trivial
  | ask capacityBytes flags => rw [hpcj] at hold; exact hold
  | createFile other => rw [hpcj] at hold; exact hold

end Steps

section Invariant

variable {s s' : State} {tr : List Event} {i w : ℕ} {mapping : Mapping} {c : CreatePc}
  {eff : FileEffect} {pc' : Pc} {e : PcEvent}

/-- A step before there is a file. -/
theorem Absent.step (h : Absent s tr) (hs : Step s.size? s.header (s.procs i) eff pc' e) :
    Inv { FileEffect.apply s eff with procs := Function.update s.procs i pc' }
      (tr ++ [⟨i, e⟩]) := by
  have hold := h.procs i
  generalize hpc : s.procs i = pc at hs hold
  cases hs with
  | throw pc message => exact Or.inl (h.update rfl rfl trivial)
  | create mapping hf => exact Or.inl (h.update rfl rfl hf)
  | «open» flags hf => exact Or.inl (h.update rfl rfl ⟨hf, rfl⟩)
  | claim capacityBytes flags hf => exact Or.inl (h.update rfl rfl hf)
  | absent capacityBytes flags mapping hf hn =>
    refine Or.inl (h.update rfl rfl ?_)
    show mapping.header.flags ≠ 0
    rw [hf]
    exact hold
  | present capacityBytes flags hn => exact absurd h.size hn
  | make mapping hn =>
    -- From here on the process is the maker.
    refine Or.inr ⟨i, mapping, .truncate, ?_⟩
    constructor
    · rw [makers_append, h.makers]
      rfl
    · exact forall_mem_concat (fun x hx => PcEvent.has_of_returned (h.events x hx) _ _ _) trivial
    · exact Option.some_ne_none 0
    · exact hold
    · exact h.header
    · refine (Function.forall_update_iff s.procs fun j pc => pc.Behind i mapping .truncate j).mpr
        ⟨⟨rfl, rfl, rfl⟩, fun j _ => ?_⟩
      have hj := h.procs j
      cases hpcj : s.procs j with
      | opening flags pc =>
        rw [hpcj] at hj
        obtain ⟨hf, rfl⟩ := hj
        exact ⟨hf, rfl⟩
      | idle => trivial
      | _ => rw [hpcj] at hj; first | exact hj | exact hj.elim
  | truncate mapping => exact hold.elim
  | map mapping => exact hold.elim
  | store mapping st todo e he => exact hold.elim
  | opening flags pc pc' oe e hs ht he =>
    -- There is nothing to open, so this step throws.
    obtain ⟨hf, rfl⟩ := hold
    rw [h.size] at hs
    cases hs
    exact absurd rfl (ht _)

/-- A step when there is one. -/
theorem Present.step (h : Present s tr w mapping c)
    (hs : Step s.size? s.header (s.procs i) eff pc' e) :
    ∃ c', Present { FileEffect.apply s eff with procs := Function.update s.procs i pc' }
      (tr ++ [⟨i, e⟩]) w mapping c' := by
  have hold := h.procs i
  generalize hpc : s.procs i = pc at hs hold
  cases hs with
  | throw pc message => exact ⟨c, h.update rfl trivial trivial⟩
  | create other hf => exact ⟨c, h.update rfl trivial hf⟩
  | «open» flags hf => exact ⟨c, h.update rfl trivial ⟨hf, rfl⟩⟩
  | claim capacityBytes flags hf => exact ⟨c, h.update rfl trivial hf⟩
  | absent capacityBytes flags other hf hn => exact absurd hn h.size
  | present capacityBytes flags hn => exact ⟨c, h.update rfl trivial ⟨hold, rfl⟩⟩
  | make other hn => exact absurd hn h.size
  | truncate other =>
    obtain ⟨rfl, rfl, rfl⟩ := hold
    refine ⟨.truncate, ?_, forall_mem_concat h.events trivial, Option.some_ne_none _,
      h.flags, h.creator, h.others id ⟨rfl, rfl, rfl⟩⟩
    rw [makers_append, h.makers]
    rfl
  | map other =>
    obtain ⟨rfl, rfl, rfl⟩ := hold
    refine ⟨.store (stores other), ?_, forall_mem_concat h.events trivial, h.size, h.flags,
      ⟨[], rfl, h.creator⟩, h.others False.elim ⟨rfl, rfl, rfl⟩⟩
    rw [makers_append, h.makers]
    rfl
  | store other st todo e he =>
    obtain ⟨rfl, rfl, rfl⟩ := hold
    obtain ⟨done, hall, hheader⟩ := h.creator
    have hhas : e.Has i other i := by
      rcases he with rfl | rfl
      · trivial
      · exact ⟨rfl, rfl⟩
    have hmade : (Event.mk i e).made? = [] := by rcases he with rfl | rfl <;> rfl
    refine ⟨.store todo, ?_, forall_mem_concat h.events hhas, h.size, h.flags,
      ⟨done ++ [st], by simpa using hall, ?_⟩, h.others (List.suffix_cons st todo).trans
      ⟨rfl, rfl, rfl⟩⟩
    · rw [makers_append, h.makers, hmade]
      rfl
    · rw [List.foldl_append, ← hheader]
      rfl
  | opening flags pc pc' oe e hs ht he =>
    obtain ⟨hok, hexp⟩ := hold
    have hok' := hok.step h.asOpening.described h.asOpening.header_eq hs
    have hexp' := hexp.step hok h.asOpening.described h.asOpening.header_eq hs
    refine ⟨c, h.update ?_ ?_ ⟨hok', hexp'⟩⟩
    · rcases he with rfl | ⟨view, rfl, rfl⟩ <;> rfl
    · rcases he with rfl | ⟨view, rfl, rfl⟩
      · trivial
      · exact ⟨hexp', hok'.2⟩

/-- Every step keeps what is known. -/
theorem Inv.step {l : Label} {e : Event} (h : Inv s tr) (hs : step s l = some (s', e)) :
    Inv s' (tr ++ [e]) := by
  obtain ⟨eff, pc', pe, hpc, rfl, rfl⟩ := step_eq_some hs
  rcases h with habsent | ⟨w, mapping, c, hpresent⟩
  · exact habsent.step (Pc.step_cases hpc)
  · obtain ⟨c', hpresent'⟩ := hpresent.step (Pc.step_cases hpc)
    exact Or.inr ⟨w, mapping, c', hpresent'⟩

/-- At the start there is no file, and every process is idle. -/
theorem Absent.init : Absent machine.init [] where
  makers := rfl
  events := by simp
  size := rfl
  header := rfl
  procs := fun _ => trivial

/-- It holds in every run. -/
theorem inv_of_reaches (h : machine.Reaches s tr) : Inv s tr := by
  refine h.invariant Inv (Or.inl .init) ?_
  intro s tr l s' e _ hinv hs
  exact hinv.step hs

end Invariant

/-! ## One maker -/

/-- However calls of `create`, `open` and `claim` race for a path, and whichever of them fail, at
most one process makes the file. A `create_mapping` that returns is that process's, and an
`open_mapping` that returns was called for the mode, and has the capacity and the offsets, with
which that process made it. -/
theorem one_maker {s : State} {tr : List Event} (h : machine.Reaches s tr) :
    (makers tr).length ≤ 1 ∧ ∀ e ∈ tr, e.what.returned = true →
      ∃ w mapping, makers tr = [(w, mapping)] ∧ e.what.Has w mapping e.proc := by
  rcases inv_of_reaches h with habsent | ⟨w, mapping, c, hpresent⟩
  · constructor
    · rw [habsent.makers]
      exact Nat.zero_le 1
    · intro e he hret
      rw [habsent.events e he] at hret
      cases hret
  · constructor
    · rw [hpresent.makers]
      exact le_rfl
    · intro e he _
      exact ⟨w, mapping, hpresent.makers, hpresent.events e he⟩

/-- Two processes call `claim` and find no file. The first makes it, the second one's
`create_mapping` throws, and a third process opens it when it is complete. -/
def race : List Label :=
  [⟨0, .call (.claim 8 kFlagSPSC)⟩, ⟨1, .call (.claim 8 kFlagSPSC)⟩, ⟨0, .run⟩, ⟨1, .run⟩,
    ⟨0, .run⟩, ⟨1, .run⟩] ++ List.replicate 36 ⟨0, .run⟩ ++ ⟨2, .call (.open kFlagSPSC)⟩ ::
    List.replicate 8 ⟨2, .run⟩

/-- A call of process `i` has thrown. -/
def Event.threw (i : ℕ) (message : String) (e : Event) : Bool :=
  match e.what with
  | .threw text => e.proc == i && text == message
  | _ => false

/-- A call of process `i` has returned. -/
def Event.returnedTo (i : ℕ) (e : Event) : Bool := e.proc == i && e.what.returned

/-- The third process then has the file that was made. -/
theorem one_maker_race :
    ∃ s tr, machine.Reaches s tr ∧ tr.any (Event.threw 1 "open (create) failed") = true ∧
    (makers tr).length ≤ 1 ∧ ∃ e ∈ tr, e.proc = 2 ∧ e.what.returned = true ∧
      ∃ w mapping, makers tr = [(w, mapping)] ∧ e.what.Has w mapping e.proc := by
  obtain ⟨s, tr, hrun, htest⟩ := machine.exists_reaches race
    (fun _ tr => tr.any (Event.threw 1 "open (create) failed") && tr.any (Event.returnedTo 2))
    (by decide +kernel)
  obtain ⟨hthrew, hret⟩ := Bool.and_eq_true_iff.mp htest
  obtain ⟨e, he, hret⟩ := List.any_eq_true.mp hret
  obtain ⟨hproc, hret⟩ := Bool.and_eq_true_iff.mp hret
  obtain ⟨hone, hall⟩ := one_maker hrun
  exact ⟨s, tr, hrun, hthrew, hone, e, he, beq_iff_eq.mp hproc, hret, hall e he hret⟩

/-! ## A file that nobody completes -/

/-- The steps of a call for a file whose header has no mode, from each place on. -/
def Pc.stepsLeft : Pc → ℕ
  | idle => 7
  | ask _ _ => 6
  | opening _ (.open _) => 5
  | opening _ (.stat _) => 4
  | opening _ (.loadMagic _ _) => 3
  | opening _ (.loadVersion _ _) => 2
  | _ => 1

/-- Every place has a step left. -/
theorem Pc.stepsLeft_pos (pc : Pc) : 0 < pc.stepsLeft := by
  unfold Pc.stepsLeft
  split <;> decide

/-- No place has more than the seven steps of a whole call. -/
theorem Pc.stepsLeft_le (pc : Pc) : pc.stepsLeft ≤ 7 := by
  unfold Pc.stepsLeft
  split <;> decide

/-- A step in `open_mapping` that does not throw, with no mode in the header. -/
theorem stepsLeft_open {size? : Option ℕ} {h : Header} (flags : ℕ) {mapping : Mapping} {d : Prop}
    {pc pc' : OpenPc} {oe : OpenEvent} (hflags : h.flags = 0) (hd : ¬ d) (hok : pc.Ok mapping d)
    (hs : pc.step size? h = some (pc', oe)) (ht : ∀ message, oe ≠ .threw message) :
    (Pc.opening flags pc').stepsLeft < (Pc.opening flags pc).stepsLeft ∧
      ∀ view, pc' ≠ .opened view := by
  cases pc with
  | idle => cases hs
  | opened view => cases hs
  -- Nobody is past the load of `flags`.
  | loadCapacity size => exact absurd hok hd
  | loadRingOffset size cap => exact absurd hok.1 hd
  | loadControlOffset size cap ringOffset => exact absurd hok.1 hd
  | loadFlags expectedFlags size =>
    simp only [OpenPc.step, hflags] at hs
    split at hs <;> cases hs
    · exact absurd rfl (ht _)
    · rename_i heq
      rw [not_not] at heq
      exact absurd heq.symm hok
  | _ =>
    simp only [OpenPc.step] at hs
    split at hs <;> cases hs
    · exact absurd rfl (ht _)
    · exact ⟨by simp [Pc.stepsLeft], fun _ hv => by cases hv⟩

section Abandoned

variable {s s' : State} {tr : List Event} {l : Label} {e : Event}

/-- A header without a mode is not complete. -/
theorem Present.not_described {w : ℕ} {mapping : Mapping} {c : CreatePc}
    (h : Present s tr w mapping c) (hflags : s.header.flags = 0) : ¬ c.Described := by
  intro hd
  have hheader : s.header = mapping.header := h.asOpening.header_eq hd
  rw [hheader] at hflags
  exact h.flags hflags

/-- What a process does that has not made the file, when the file has no mode: it leaves the file
alone, and throws or comes closer to it. -/
theorem Present.idles {w i : ℕ} {mapping : Mapping} {c : CreatePc} {eff : FileEffect}
    {pc pc' : Pc} {pe : PcEvent} (h : Present s tr w mapping c) (hflags : s.header.flags = 0)
    (hold : pc.Behind w mapping c i) (hl : pc.creating = false)
    (hs : Step s.size? s.header pc eff pc' pe) :
    eff = .none ∧ pe.returned = false ∧
      ((∃ message, pe = .threw message) ∨ pc'.stepsLeft < pc.stepsLeft) := by
  cases hs with
  | throw pc message => exact ⟨rfl, rfl, Or.inl ⟨message, rfl⟩⟩
  | create other hf => exact ⟨rfl, rfl, Or.inr (by simp [Pc.stepsLeft])⟩
  | «open» flags hf => exact ⟨rfl, rfl, Or.inr (by simp [Pc.stepsLeft])⟩
  | claim capacityBytes flags hf => exact ⟨rfl, rfl, Or.inr (by simp [Pc.stepsLeft])⟩
  | absent capacityBytes flags other hf hn => exact absurd hn h.size
  | present capacityBytes flags hn => exact ⟨rfl, rfl, Or.inr (by simp [Pc.stepsLeft])⟩
  | make other hn => exact absurd hn h.size
  | truncate other => cases hl
  | map other => cases hl
  | store other st todo e he => cases hl
  | opening flags pc pc' oe e hopen ht he =>
    obtain ⟨hless, hview⟩ := stepsLeft_open flags hflags (h.not_described hflags) hold.1 hopen ht
    rcases he with rfl | ⟨view, rfl, rfl⟩
    · exact ⟨rfl, rfl, Or.inr hless⟩
    · exact absurd rfl (hview view)

/-- The same of a step of the whole. -/
theorem abandoned_step (h : Inv s tr) (hsize : s.size? ≠ none) (hflags : s.header.flags = 0)
    (hl : (s.procs l.proc).creating = false) (hs : step s l = some (s', e)) :
    s'.size? = s.size? ∧ s'.header = s.header ∧ e.proc = l.proc ∧ e.what.returned = false ∧
      (∀ i, i ≠ l.proc → s'.procs i = s.procs i) ∧
      ((∃ message, e.what = .threw message) ∨
        (s'.procs l.proc).stepsLeft < (s.procs l.proc).stepsLeft) := by
  obtain ⟨eff, pc', pe, hpc, rfl, rfl⟩ := step_eq_some hs
  rcases h with habsent | ⟨w, mapping, c, hpresent⟩
  · exact absurd habsent.size hsize
  · obtain ⟨rfl, hret, hown⟩ :=
      hpresent.idles hflags (hpresent.procs l.proc) hl (Pc.step_cases hpc)
    refine ⟨rfl, rfl, rfl, hret, fun i hi => Function.update_of_ne hi _ _, ?_⟩
    show (∃ message, pe = .threw message) ∨
      (Function.update s.procs l.proc pc' l.proc).stepsLeft < (s.procs l.proc).stepsLeft
    rwa [Function.update_self]

/-- What holds behind the end `s` of a run with the events `tr`, when the file has no mode and
whoever has made it takes no further step. -/
structure Abandoned (s : State) (tr : List Event) (s' : State) (es : List Event) : Prop where
  /-- All of it is a run. -/
  reaches : machine.Reaches s' (tr ++ es)
  /-- The file keeps its length. -/
  size : s'.size? = s.size?
  /-- It keeps its header. -/
  header : s'.header = s.header
  /-- No call has returned since. -/
  events : ∀ e ∈ es, e.what.returned = false

variable {es : List Event}

/-- What `abandoned_step` says of the steps from there on. -/
theorem Abandoned.next (h : Abandoned s tr s' es) (hsize : s.size? ≠ none)
    (hflags : s.header.flags = 0) {s'' : State} (hl : (s'.procs l.proc).creating = false)
    (hs : Arrival.step s' l = some (s'', e)) :
    s''.size? = s'.size? ∧ s''.header = s'.header ∧ e.proc = l.proc ∧ e.what.returned = false ∧
      (∀ i, i ≠ l.proc → s''.procs i = s'.procs i) ∧
      ((∃ message, e.what = .threw message) ∨
        (s''.procs l.proc).stepsLeft < (s'.procs l.proc).stepsLeft) := by
  refine abandoned_step (inv_of_reaches h.reaches) ?_ ?_ hl hs
  · rw [h.size]
    exact hsize
  · rw [h.header]
    exact hflags

/-- A step of a process that is not the maker leaves the file abandoned. -/
theorem Abandoned.step (h : Abandoned s tr s' es) (hsize : s.size? ≠ none)
    (hflags : s.header.flags = 0) {s'' : State} (hl : (s'.procs l.proc).creating = false)
    (hs : Arrival.step s' l = some (s'', e)) :
    Abandoned s tr s'' (es ++ [e]) := by
  obtain ⟨hsz, hhd, -, hret, -⟩ := h.next hsize hflags hl hs
  constructor
  · rw [← List.append_assoc]
    exact .step l h.reaches trivial hs
  · exact hsz.trans h.size
  · exact hhd.trans h.header
  · exact forall_mem_concat h.events hret

/-- No process that has made the file takes a further step. -/
def makerStopped (s : State) (_ : List Event) (l : Label) : Prop :=
  (s.procs l.proc).creating = false

/-- A process that takes seven steps has a call that throws among them. -/
theorem threw_within (h : machine.Reaches s tr) (hsize : s.size? ≠ none)
    (hflags : s.header.flags = 0) (hrest : (machine.startingAt s).Run makerStopped s' es) (i : ℕ)
    (hmany : 7 ≤ es.countP fun e => e.proc == i) : ∃ message, Event.mk i (.threw message) ∈ es := by
  have hwithin := hrest.within (fun _ => True) (fun _ _ _ => trivial) (fun e => e.proc == i)
    (fun s => (s.procs i).stepsLeft) (Abandoned s tr)
    (fun _ es => ∃ message, Event.mk i (.threw message) ∈ es)
    ⟨by rw [List.append_nil]; exact h, rfl, rfl, by simp⟩ ?_ ?_ trivial
  · rcases hwithin with hthrew | ⟨-, hle⟩
    · exact hthrew
    · have hpos := Pc.stepsLeft_pos (s'.procs i)
      have hmost : (s.procs i).stepsLeft ≤ 7 := Pc.stepsLeft_le _
      have hle' : (s'.procs i).stepsLeft + (es.countP fun e => e.proc == i) ≤
          (s.procs i).stepsLeft := hle
      omega
  · rintro s₁ es l s₂ e _ _ ⟨message, hmem⟩ _
    exact ⟨message, List.mem_append_left _ hmem⟩
  · intro s₁ es l s₂ e hl _ hab hs
    obtain ⟨-, -, hproc, -, hothers, hown⟩ := hab.next hsize hflags hl hs
    have hab' := hab.step hsize hflags hl hs
    by_cases hi : l.proc = i
    · -- A step of its own throws, or leaves it fewer.
      subst hi
      rcases hown with ⟨message, hthrew⟩ | hless
      · refine Or.inl ⟨message, List.mem_append_right _ (List.mem_singleton.mpr ?_)⟩
        rw [← hproc, ← hthrew]
      · refine Or.inr ⟨hab', ?_⟩
        rw [if_pos (by simp [hproc])]
        exact hless
    · refine Or.inr ⟨hab', ?_⟩
      have hne : (e.proc == i) = false := by rw [hproc]; exact beq_false_of_ne hi
      rw [hne, hothers i (Ne.symm hi)]
      exact le_rfl

end Abandoned

/-- If the maker of a file dies, or throws, before it has stored the mode, the file stays as it is.
From then on no call for the path returns, whoever calls, and every process that takes seven steps
has had a call that threw. -/
theorem abandoned_forever {s s' : State} {tr es : List Event} (h : machine.Reaches s tr)
    (hsize : s.size? ≠ none) (hflags : s.header.flags = 0)
    (hrest : (machine.startingAt s).Run makerStopped s' es) :
    s'.size? = s.size? ∧ s'.header = s.header ∧ (∀ e ∈ es, e.what.returned = false) ∧
      ∀ i, (7 ≤ es.countP fun e => e.proc == i) → ∃ message, Event.mk i (.threw message) ∈ es := by
  have hab : Abandoned s tr s' es := by
    refine hrest.invariant (Abandoned s tr) ⟨by rw [List.append_nil]; exact h, rfl, rfl, by simp⟩ ?_
    intro s₁ es l s₂ e hl hab hs
    exact hab.step hsize hflags hl hs
  exact ⟨hab.size, hab.header, hab.events, threw_within h hsize hflags hrest⟩

/-- A process creates the file and stops when the mode is the next to be stored. -/
def halfMade : List Label := ⟨0, .call (.create 8 kFlagSPSC)⟩ :: List.replicate 31 ⟨0, .run⟩

/-- Another one calls `claim`. -/
def lateClaim : List Label := ⟨1, .call (.claim 8 kFlagSPSC)⟩ :: List.replicate 6 ⟨1, .run⟩

/-- The test of `makerStopped`. -/
def makerStoppedTest (s : State) (_ : List Event) (l : Label) : Bool := !(s.procs l.proc).creating

/-- A run that passes the test has no step of the maker. -/
theorem makerStopped_of_test (s : State) (es : List Event) (l : Label)
    (h : makerStoppedTest s es l = true) :
    makerStopped s es l := by
  unfold makerStopped
  simpa [makerStoppedTest] using h

/-- The file has all its fields but the mode, and the late `claim` takes seven steps. -/
def lateClaimed (s : State) (_ : List Event) : Bool :=
  (machine.exec makerStoppedTest s [] lateClaim).any fun x =>
    s.size?.isSome && s.header.magic == kMagic && s.header.flags == 0 &&
      decide (7 ≤ x.2.countP fun e => e.proc == 1)

/-- The late `claim` throws. -/
theorem abandoned_forever_lateClaim : ∃ s tr s' es, machine.Reaches s tr ∧ s.header.magic = kMagic ∧
    (machine.startingAt s).Run makerStopped s' es ∧ s'.header = s.header ∧
    (∀ e ∈ es, e.what.returned = false) ∧ ∃ message, Event.mk 1 (.threw message) ∈ es := by
  obtain ⟨s, tr, hrun, htest⟩ := machine.exists_reaches halfMade lateClaimed (by decide +kernel)
  obtain ⟨⟨s', es⟩, hex, htest⟩ := (Option.any_eq_true _ _).mp htest
  simp only [Bool.and_eq_true, beq_iff_eq, decide_eq_true_eq] at htest
  obtain ⟨⟨⟨hsize, hmagic⟩, hflags⟩, hmany⟩ := htest
  have hrest : (machine.startingAt s).Run makerStopped s' es :=
    Machine.Run.exec makerStopped_of_test lateClaim .init hex
  obtain ⟨-, hheader, hnone, hthrew⟩ :=
    abandoned_forever hrun (Option.isSome_iff_ne_none.mp hsize) hflags hrest
  exact ⟨s, tr, s', es, hrun, hmagic, hrest, hheader, hnone, hthrew 1 hmany⟩

end LfRing.Arrival

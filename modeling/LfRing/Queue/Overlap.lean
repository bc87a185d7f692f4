import LfRing.Queue.Fifo

/-!
# An `SPSCQueue` whose slots overlap

The offset of a slot is a product in 64-bit arithmetic, and `create` asks for `Capacity * sizeof(T)`
bytes in the same arithmetic. Where that product is more than `2^64`, the mapping is smaller than
the slots, and slots may share bytes.

Calls that are not disturbed do what they should (`exists_push`, `exists_pop`). If the first byte of
one slot lies in the slot behind it, then the second value pushed overwrites the first
(`exists_overwritten`). `overlapping_slots` is a queue in which this happens inside the ring that
`create` has made.
-/

namespace LfRing.Queue

variable {g : Geometry}

variable {file : Mapping} {s : State g} {t i n : ℕ}

variable (file) in
/-- A producer that is not disturbed copies the rest of the value. -/
theorem exists_copies {v : Element g.sizeofT} (hn : i + n = g.sizeofT)
    (hpc : s.producer = .copying v t i) :
    ∃ es m, (machine g file).Path (fun _ => True) s es
      { s with mem := m, producer := .storeTail v t } ∧
      pushed es = [] ∧ popped es = [] ∧ m.control = s.mem.control ∧
      ∀ x, m.ring x = if g.slot t + i ≤ x ∧ x < g.slot t + g.sizeofT then v.1.getD (x - g.slot t) 0
        else s.mem.ring x := by
  induction n generalizing i s with
  | zero =>
    refine ⟨[], s.mem, ?_, rfl, rfl, rfl, fun x => ?_⟩
    · have hs : s = { s with producer := .storeTail v t } := by
        rw [PushPc.copying, if_neg (by omega)] at hpc
        rw [← hpc]
      exact hs ▸ .refl
    · rw [if_neg (by omega)]
  | succ n ih =>
    rw [PushPc.copying, if_pos (by omega)] at hpc
    obtain ⟨m₁, hm₁⟩ : ∃ m₁, m₁ = (Effect.ring ⟨g.slot t + i, [v.1.getD i 0]⟩).apply s.mem :=
      ⟨_, rfl⟩
    obtain ⟨es, m, hpath, hpush, hpop, hcontrol, hring⟩ :=
      ih (s := { s with mem := m₁, producer := .copying v t (i + 1) }) (by omega) rfl
    have hstep : (machine g file).step s (.producer .run) =
        some ({ s with mem := m₁, producer := .copying v t (i + 1) }, .producer .internal) := by
      simp only [machine, step, hpc, PushPc.step, hm₁]
    refine ⟨_, m, (Machine.Path.single _ trivial hstep).trans hpath, ?_, ?_, ?_, fun x => ?_⟩
    · rw [pushed, List.flatMap_append, ← pushed, ← pushed, hpush]
      rfl
    · rw [popped, List.flatMap_append, ← popped, ← popped, hpop]
      rfl
    · rw [hcontrol, hm₁]
      rfl
    · rw [hring x]
      change (if _ then _ else m₁.ring x) = _
      rw [hm₁, ring_apply_byte]
      by_cases hx : x = g.slot t + i
      · rw [if_neg (by omega), if_pos hx, if_pos (by omega), hx, Nat.add_sub_cancel_left]
      · rw [if_neg hx]
        refine if_congr ?_ rfl rfl
        omega

variable (file) in
/-- A push that is not disturbed puts the value into its slot, if there is room. -/
theorem exists_push (v : Element g.sizeofT) (hpc : s.producer = .idle)
    (hroom : sub64 s.mem.control.tailPublish s.mem.control.headPublish < g.capacity) :
    ∃ es m, (machine g file).Path (fun _ => True) s es { s with mem := m, producer := .idle } ∧
      pushed es = [v.1] ∧ popped es = [] ∧
      m.control.tailPublish = u64 (s.mem.control.tailPublish + 1) ∧
      m.control.headPublish = s.mem.control.headPublish ∧
      ∀ x, m.ring x = if g.slot s.mem.control.tailPublish ≤ x ∧
          x < g.slot s.mem.control.tailPublish + g.sizeofT
        then v.1.getD (x - g.slot s.mem.control.tailPublish) 0 else s.mem.ring x := by
  obtain ⟨t, ht⟩ : ∃ t, t = s.mem.control.tailPublish := ⟨_, rfl⟩
  rw [← ht] at hroom ⊢
  have h₁ : (machine g file).step s (.producer (.call v)) =
      some ({ s with producer := .loadTail v }, .producer .internal) := by
    simp only [machine, step, hpc, PushPc.step, Effect.apply]
  have h₂ : (machine g file).step { s with producer := .loadTail v } (.producer .run) =
      some ({ s with producer := .loadHead v t }, .producer .internal) := by
    simp only [machine, step, PushPc.step, Effect.apply, ht]
  have h₃ : (machine g file).step { s with producer := .loadHead v t } (.producer .run) =
      some ({ s with producer := .copying v t 0 }, .producer .internal) := by
    simp only [machine, step, PushPc.step, PushPc.decideFull, Effect.apply,
      if_neg (Nat.not_le.mpr hroom)]
  obtain ⟨es, m, hpath, hpush, hpop, hcontrol, hring⟩ :=
    exists_copies file (s := { s with producer := .copying v t 0 }) (Nat.zero_add _) rfl
  have h₄ : (machine g file).step { s with mem := m, producer := .storeTail v t } (.producer .run) =
      some ({ s with mem := (Effect.tailPublish (u64 (t + 1))).apply m, producer := .idle },
        .producer (.pushed v)) := by
    simp only [machine, step, PushPc.step]
  refine ⟨[.producer .internal] ++ [.producer .internal] ++ [.producer .internal] ++ es ++
    [.producer (.pushed v)], (Effect.tailPublish (u64 (t + 1))).apply m, ?_, ?_, ?_, rfl, ?_, ?_⟩
  · exact ((((Machine.Path.single _ trivial h₁).trans (.single _ trivial h₂)).trans
      (.single _ trivial h₃)).trans hpath).trans (.single _ trivial h₄)
  · simp only [pushed, List.flatMap_append] at hpush ⊢
    rw [hpush]
    rfl
  · simp only [popped, List.flatMap_append] at hpop ⊢
    rw [hpop]
    rfl
  · change m.control.headPublish = _
    rw [hcontrol]
  · intro x
    change m.ring x = _
    rw [hring x, Nat.add_zero]

variable (file) in
/-- A consumer that is not disturbed copies the rest of the value. -/
theorem exists_reads {h : ℕ} {out : List UInt8} (hn : i + n = g.sizeofT)
    (hlen : out.length = g.sizeofT) (hhas : SlotHas g s.mem h i out)
    (hpc : s.consumer = .copying g h i out) :
    ∃ es out', (machine g file).Path (fun _ => True) s es { s with consumer := .storeHead h out' } ∧
      pushed es = [] ∧ popped es = [] ∧ SlotHas g s.mem h g.sizeofT out' := by
  induction n generalizing i s out with
  | zero =>
    obtain rfl : i = g.sizeofT := by omega
    refine ⟨[], out, ?_, rfl, rfl, hhas⟩
    have hs : s = { s with consumer := .storeHead h out } := by
      rw [PopPc.copying, if_neg (lt_irrefl _)] at hpc
      rw [← hpc]
    exact hs ▸ .refl
  | succ n ih =>
    rw [PopPc.copying, if_pos (by omega)] at hpc
    obtain ⟨out₁, hout₁⟩ : ∃ out₁, out₁ = out.set i (s.mem.ring (g.slot h + i)) := ⟨_, rfl⟩
    have hhas₁ : SlotHas g s.mem h (i + 1) out₁ := by
      rw [hout₁]
      exact hhas.copied (by omega)
    obtain ⟨es, out', hpath, hpush, hpop, hall⟩ :=
      ih (s := { s with consumer := .copying g h (i + 1) out₁ }) (by omega)
        (by rw [hout₁, List.length_set, hlen]) hhas₁ rfl
    have hstep : (machine g file).step s (.consumer .run) =
        some ({ s with consumer := .copying g h (i + 1) out₁ }, .consumer .internal) := by
      simp only [machine, step, hpc, PopPc.step, Effect.apply, hout₁]
    refine ⟨_, out', (Machine.Path.single _ trivial hstep).trans hpath, ?_, ?_, hall⟩
    · rw [pushed, List.flatMap_append, ← pushed, ← pushed, hpush]
      rfl
    · rw [popped, List.flatMap_append, ← popped, ← popped, hpop]
      rfl

variable (file) in
/-- A pop that is not disturbed returns what the slot of the head has, if the queue is not empty. -/
theorem exists_pop (hpc : s.consumer = .idle)
    (hne : s.mem.control.headPublish ≠ s.mem.control.tailPublish) :
    ∃ es s' out, (machine g file).Path (fun _ => True) s es s' ∧ pushed es = [] ∧
      popped es = [out] ∧ SlotHas g s.mem s.mem.control.headPublish g.sizeofT out := by
  obtain ⟨h, hh⟩ : ∃ h, h = s.mem.control.headPublish := ⟨_, rfl⟩
  obtain ⟨out₀, hlen⟩ : ∃ out₀ : List UInt8, out₀.length = g.sizeofT :=
    ⟨List.replicate g.sizeofT 0, List.length_replicate⟩
  rw [← hh] at hne ⊢
  have h₁ : (machine g file).step s (.consumer (.call ⟨out₀, hlen⟩)) =
      some ({ s with consumer := .loadHead out₀ }, .consumer .internal) := by
    simp only [machine, step, hpc, PopPc.step, Effect.apply]
  have h₂ : (machine g file).step { s with consumer := .loadHead out₀ } (.consumer .run) =
      some ({ s with consumer := .loadTail h out₀ }, .consumer .internal) := by
    simp only [machine, step, PopPc.step, Effect.apply, hh]
  have h₃ : (machine g file).step { s with consumer := .loadTail h out₀ } (.consumer .run) =
      some ({ s with consumer := .copying g h 0 out₀ }, .consumer .internal) := by
    simp only [machine, step, PopPc.step, PopPc.decideEmpty, Effect.apply, if_neg hne]
  obtain ⟨es, out, hpath, hpush, hpop, hall⟩ :=
    exists_reads file (s := { s with consumer := .copying g h 0 out₀ }) (Nat.zero_add _) hlen
      (fun _ hb => absurd hb (Nat.not_lt_zero _)) rfl
  have h₄ : (machine g file).step { s with consumer := .storeHead h out } (.consumer .run) =
      some ({ s with mem := (Effect.headPublish (u64 (h + 1))).apply s.mem, consumer := .idle },
        .consumer (.popped out)) := by
    simp only [machine, step, PopPc.step]
  have hfirst : (machine g file).Path (fun _ => True) s [.consumer .internal]
    { s with consumer := .loadHead out₀ } := .single _ trivial h₁
  have hcall := (((hfirst.trans (.single _ trivial h₂)).trans (.single _ trivial h₃)).trans
    hpath).trans (.single _ trivial h₄)
  refine ⟨_, _, out, hcall, ?_, ?_, hall⟩
  · simp only [pushed, List.flatMap_append] at hpush ⊢
    rw [hpush]
    rfl
  · simp only [popped, List.flatMap_append] at hpop ⊢
    rw [hpop]
    rfl

/-- If the slot behind the first one used has the first byte of that one, the second value pushed
overwrites it, and the first pop returns another value than was pushed. -/
theorem exists_overwritten (file : Mapping) (start : ℕ) (hlt : start < 2^64)
    (htail : file.shared.control.tailPublish = start)
    (hhead : file.shared.control.headPublish = start) (hcap : 1 < g.capacity)
    (hle : g.slot (u64 (start + 1)) ≤ g.slot start)
    (hin : g.slot start < g.slot (u64 (start + 1)) + g.sizeofT) :
    ∃ s tr, (machine g file).Reaches s tr ∧ ¬ popped tr <+: pushed tr := by
  obtain ⟨v, hv⟩ : ∃ v : Element g.sizeofT, v.1 = List.replicate g.sizeofT 1 :=
    ⟨⟨_, List.length_replicate⟩, rfl⟩
  obtain ⟨w, hw⟩ : ∃ w : Element g.sizeofT, w.1 = List.replicate g.sizeofT 2 :=
    ⟨⟨_, List.length_replicate⟩, rfl⟩
  have hsize : 0 < g.sizeofT := by omega
  -- Both are pushed.
  have hroom : sub64 (machine g file).init.mem.control.tailPublish
      (machine g file).init.mem.control.headPublish < g.capacity := by
    change sub64 file.shared.control.tailPublish file.shared.control.headPublish < g.capacity
    rw [htail, hhead, sub64_of_le le_rfl hlt]
    omega
  obtain ⟨es₁, m₁, hpath₁, hpush₁, hpop₁, htail₁, hhead₁, -⟩ := exists_push file v rfl hroom
  replace htail₁ : m₁.control.tailPublish = u64 (start + 1) := by
    rw [htail₁]
    exact congrArg (fun t => u64 (t + 1)) htail
  replace hhead₁ : m₁.control.headPublish = start := hhead₁.trans hhead
  have hroom₁ : sub64 m₁.control.tailPublish m₁.control.headPublish < g.capacity := by
    rw [htail₁, hhead₁, ← u64_of_lt hlt, u64_succ, sub64_u64 (by omega) (by omega)]
    omega
  obtain ⟨es₂, m₂, hpath₂, hpush₂, hpop₂, htail₂, hhead₂, hring₂⟩ := exists_push file w
    (s := { (machine g file).init with mem := m₁, producer := .idle }) rfl hroom₁
  replace htail₂ : m₂.control.tailPublish = u64 (u64 (start + 1) + 1) := by rw [htail₂, htail₁]
  replace hhead₂ : m₂.control.headPublish = start := hhead₂.trans hhead₁
  -- The first byte of the first slot is now the second value's.
  have hbyte : m₂.ring (g.slot start) = 2 := by
    have hx := hring₂ (g.slot start)
    simp only [htail₁] at hx
    rw [hx, if_pos ⟨hle, hin⟩, hw, List.getD_eq_getElem _ _ (by rw [List.length_replicate]; omega),
      List.getElem_replicate]
  have hne₂ : m₂.control.headPublish ≠ m₂.control.tailPublish := by
    rw [hhead₂, htail₂]
    unfold u64
    omega
  obtain ⟨es₃, s₃, out, hpath₃, hpush₃, hpop₃, hhas⟩ := exists_pop file
    (s := { (machine g file).init with mem := m₂, producer := .idle }) rfl hne₂
  have hout : out.getD 0 0 = 2 := by
    rw [← hhas 0 hsize]
    simp only [hhead₂]
    exact hbyte
  refine ⟨s₃, [] ++ (es₁ ++ es₂ ++ es₃),
    Machine.Run.path .init ((hpath₁.trans hpath₂).trans hpath₃), ?_⟩
  simp only [pushed, popped, List.flatMap_append, List.nil_append] at *
  rw [hpush₁, hpush₂, hpush₃, hpop₁, hpop₂, hpop₃]
  intro hprefix
  obtain ⟨heq, -⟩ := List.cons_prefix_cons.mp hprefix
  rw [heq, hv, List.getD_eq_getElem _ _ (by rw [List.length_replicate]; omega),
    List.getElem_replicate] at hout
  exact absurd hout (by decide)

/-- A queue of `2^33` values of `2^32 + 1` bytes. `Capacity * sizeof(T)` is `2^33` in 64-bit
arithmetic. -/
def hugeValues : Geometry := ⟨2^33, 2^32 + 1, by decide, by decide⟩

/-- In a queue of huge values the last slot and the first one overlap. With the counters at the last
slot, both lie in the ring that was created, and what is popped is not what was pushed. -/
theorem overlapping_slots : ∃ mapping file s tr,
    createMapping hugeValues.bytes kFlagFixedSPSC = .ok mapping ∧
    file = { mapping with shared := countersAt (2^33 - 1) mapping.shared } ∧
    hugeValues.slot (2^33 - 1) + hugeValues.sizeofT ≤ mapping.capacity ∧
    hugeValues.slot (2^33) + hugeValues.sizeofT ≤ mapping.capacity ∧
    (machine hugeValues file).Reaches s tr ∧ ¬ popped tr <+: pushed tr := by
  obtain ⟨mapping, hmap⟩ : ∃ mapping,
    createMapping hugeValues.bytes kFlagFixedSPSC = .ok mapping := ⟨_, rfl⟩
  obtain ⟨s, tr, hrun, hnot⟩ := exists_overwritten (g := hugeValues)
    { mapping with shared := countersAt (2^33 - 1) mapping.shared } (2^33 - 1) (by decide) rfl rfl
    (by decide) (by decide) (by decide)
  refine ⟨mapping, _, s, tr, hmap, rfl, ?_, ?_, hrun, hnot⟩
  · cases hmap
    decide
  · cases hmap
    decide

end LfRing.Queue

import LfRing.Latest.Reads

/-!
# Reads behind a committed write

With one writer at a time, what a read returns that is called behind a committed write is the value
of that write or of a later one, as long as no claim recovers the slot in between
(`mem_of_read_behind`).

Nothing is asked of what happened before: the slot may have been recovered any number of times, and
the sequence may have wrapped. The sequence is known modulo `2^64` only. Behind the write it is the
one that the write has left plus two for every later write, plus one while a write is under way. So
the two loads of a read can agree although writes have come in between, if these are a multiple of
`2^63`. The bound is that fewer begin while the read is under way.
-/

namespace LfRing.Latest

variable {size : ℕ}

/-! ## The writer -/

/-- A process that is not the writer recovers nothing. -/
theorem WriterPc.calm_of_not_owns {pc : WriterPc size} (h : pc.owns = false) :
    pc.recovering = false := by
  cases pc <;> first | rfl | cases h

/-- The step that commits a write. -/
theorem WriterPc.committed_step {cap now : ℕ} {m : Shared} {pc pc' : WriterPc size}
    {l : WriterLabel size} {eff : Effect} {w : Payload size}
    (hs : pc.step cap m now l = some (eff, pc', .committed w)) :
    ∃ s notify, pc = .commit w s notify ∧ eff = .sequence (u64 (s + 2)) ∧ pc' = .stamp notify := by
  generalize he : WriterEvent.committed w = e at hs
  cases step_cases hs with
  | commit w' s notify =>
    cases he
    exact ⟨s, notify, rfl, rfl, rfl⟩
  | heartbeat t notify => cases notify <;> cases he
  | _ => cases he

/-! ## What a reader does from some moment on -/

/-- The reads of a reader whose calls began from some moment on. -/
structure ReadsSince where
  /-- How many writes have begun since the call under way began, if it is one of these. -/
  writes : Option ℕ
  /-- The reads that have succeeded, each with the number of writes begun while it was under way. -/
  done : List (ℕ × List UInt8)

/-- A call returns. -/
def ReadsSince.finish (r : ReadsSince) (res : ReadResult) (out : List UInt8) : ReadsSince :=
  match r.writes, res with
  | some n, .success => ⟨none, r.done ++ [(n, out)]⟩
  | _, _ => { r with writes := none }

/-- One more event, as it concerns reader `j`. -/
def ReadsSince.next (j : ℕ) (r : ReadsSince) : Event size → ReadsSince
  | .writer _ (.begun _) => { r with writes := r.writes.map (· + 1) }
  | .reader k .called => if k = j then { r with writes := some 0 } else r
  | .reader k (.returned res out) => if k = j then r.finish res out else r
  | _ => r

/-- What reader `j` has read in these events. -/
def readsSince (j : ℕ) (es : List (Event size)) : ReadsSince :=
  es.foldl (ReadsSince.next j) ⟨none, []⟩

/-- The reads with one more event are those before it, carried on by the event. -/
@[simp] theorem readsSince_append (j : ℕ) (es : List (Event size)) (e : Event size) :
    readsSince j (es ++ [e]) = (readsSince j es).next j e := by
  simp [readsSince]

/-- A writer's event counts if it begins a write. -/
theorem readsSince_writer (i j : ℕ) (es : List (Event size)) (e : WriterEvent size) :
    readsSince j (es ++ [.writer i e]) = { readsSince j es with
      writes := (readsSince j es).writes.map (· + (Event.writer i e).begins) } := by
  rw [readsSince_append]
  cases e with
  | begun v => rfl
  | _ => simp [ReadsSince.next, Event.begins]

/-- Another reader's event does not matter. -/
theorem readsSince_other {j k : ℕ} (hk : k ≠ j) (es : List (Event size)) (e : ReadEvent) :
    readsSince j (es ++ [.reader k e]) = readsSince j es := by
  rw [readsSince_append]
  cases e with
  | called => exact if_neg hk
  | returned res out => exact if_neg hk
  | _ => rfl

/-- What a reader's copy of the first `t` bytes is worth, with `C` writes committed since the
sequence was `q`. When `s1` was loaded, `c` of them were, and none was under way. If none has begun
since, the bytes are those of the ring. Of the writes begun since the call, `n`, all that have begun
since the load are some. -/
def CopiedBehind (m : Shared) (q C n s1 t : ℕ) (out : List UInt8) : Prop :=
  ∃ c ≤ C, s1 = u64 (q + 2 * c) ∧ C + m.control.sequence % 2 ≤ c + n ∧
    (C = c → m.control.sequence % 2 = 0 → ∀ b < t, out.getD b 0 = m.ring b)

/-- What a reader knows. -/
def ReadPc.Trails (m : Shared) (q C n : ℕ) : ReadPc size → Prop
  | idle => True
  | initial _ => True
  | loop _ _ out => out.length = size
  | loadS1 _ _ out => out.length = size
  | loadHeartbeat _ _ _ out => out.length = size
  | readClock _ _ _ _ out => out.length = size
  | copy _ _ s1 t out => out.length = size ∧ t < size ∧ CopiedBehind m q C n s1 t out
  | loadS2 _ _ s1 out => out.length = size ∧ CopiedBehind m q C n s1 size out

/-- What a step of a writer that begins `k` writes leaves of this: the ring has stayed as it was
unless a write is under way or one has been committed. -/
structure Onward (size : ℕ) (m m' : Shared) (C C' k : ℕ) : Prop where
  /-- No commit is taken back. -/
  commits : C ≤ C'
  /-- A write is committed that has begun. -/
  begun : C' + m'.control.sequence % 2 ≤ C + m.control.sequence % 2 + k
  /-- The ring changes only while a write is under way. -/
  ring : C' = C → m'.control.sequence % 2 = 0 → m.control.sequence % 2 = 0 ∧
    ∀ b < size, m'.ring b = m.ring b

section Readers

variable {m m' : Shared} {q C C' k n s1 t : ℕ} {out : List UInt8} {pc pc' : ReadPc size}

/-- A reader's copy keeps its worth through steps of a writer. -/
theorem CopiedBehind.onward (h : CopiedBehind m q C n s1 t out) (ht : t ≤ size)
    (hm : Onward size m m' C C' k) : CopiedBehind m' q C' (n + k) s1 t out := by
  obtain ⟨c, hc, hs1, hbegun, hbytes⟩ := h
  have hcommits := hm.commits
  have hmore := hm.begun
  refine ⟨c, by omega, hs1, by omega, fun heq heven b hb => ?_⟩
  have hsame : C' = C := by omega
  obtain ⟨heven', hring⟩ := hm.ring hsame heven
  rw [hring b (by omega)]
  exact hbytes (by omega) heven' b hb

/-- What a reader knows survives the steps of a writer. -/
theorem ReadPc.Trails.onward (h : pc.Trails m q C n) (hm : Onward size m m' C C' k) :
    pc.Trails m' q C' (n + k) := by
  cases pc with
  | copy c i s1 t out =>
    obtain ⟨hlen, ht, hcopied⟩ := h
    exact ⟨hlen, ht, hcopied.onward ht.le hm⟩
  | loadS2 c i s1 out =>
    obtain ⟨hlen, hcopied⟩ := h
    exact ⟨hlen, hcopied.onward le_rfl hm⟩
  | _ => exact h

/-- A reader with `t` bytes copied. -/
theorem ReadPc.trails_copying {c : ReadCall size} {i : ℕ} (hlen : out.length = size) (ht : t ≤ size)
    (hcopied : CopiedBehind m q C n s1 t out) : (copying c i s1 t out).Trails m q C n := by
  unfold copying
  split_ifs with hlt
  · exact ⟨hlen, hlt, hcopied⟩
  · obtain rfl : t = size := by omega
    exact ⟨hlen, hcopied⟩

/-- One more byte in a reader's copy. -/
theorem CopiedBehind.succ (h : CopiedBehind m q C n s1 t out) (ht : t < out.length) :
    CopiedBehind m q C n s1 (t + 1) (out.set t (m.ring t)) := by
  obtain ⟨c, hc, hs1, hbegun, hbytes⟩ := h
  exact ⟨c, hc, hs1, hbegun, fun heq heven => getD_set_upTo ht (hbytes heq heven)⟩

/-- A call begins. -/
theorem ReadPc.trails_enter (c : ReadCall size) : (enter c).Trails m q C n := by
  unfold enter
  split
  · trivial
  · exact c.out.2

/-- What a reader knows after its own step. -/
theorem ReadPc.Trails.step {now : ℕ} {l : ReadLabel size} {e : ReadEvent} (h : pc.Trails m q C n)
    (heven : m.control.sequence % 2 = 0 → m.control.sequence = u64 (q + 2 * C))
    (hs : pc.step m now l = some (pc', e)) : pc'.Trails m q C n := by
  cases step_cases hs with
  | call c => exact trails_enter c
  | nonempty c hne => exact c.out.2
  | attempt c i out hi => exact h
  | loadS1 c i out =>
    unfold examine
    split_ifs with hseq
    · -- Nothing is copied yet, and no write is under way.
      refine trails_copying h (Nat.zero_le _) ⟨C, le_rfl, heven hseq, by omega, ?_⟩
      exact fun _ _ b hb => absurd hb (Nat.not_lt_zero b)
    · exact spin_ind (P := fun pc => pc.Trails m q C n) (fun _ => h) h
  | loadHeartbeat c t i out => exact h
  | alive c t i hb out hlive => exact h
  | copy c i s1 t out =>
    obtain ⟨hlen, ht, hcopied⟩ := h
    refine trails_copying ?_ ht (hcopied.succ (by omega))
    rw [List.length_set]
    exact hlen
  | changed c i s1 out hne => exact h.1
  | _ => trivial

end Readers

/-! ## Behind a write -/

/-- The value of the newest write, if `v` was that of the newest one before. -/
def newest (v : List UInt8) (es : List (Event size)) : List UInt8 := (committed es).getLastD v

/-- What holds behind a write of `v` that has left the sequence at `q`, as long as no claim recovers
the slot. -/
structure Behind (q : ℕ) (v : List UInt8) (s : State size) (es : List (Event size)) : Prop where
  /-- Nobody recovers. -/
  calm : ∀ i, (s.writers i).recovering = false
  /-- The write was committed. -/
  even : q % 2 = 0
  /-- Every write adds two, and a write that is under way one. -/
  sequence : s.mem.control.sequence = u64 (q + 2 * (committed es).length) ∨
    s.mem.control.sequence = u64 (q + 2 * (committed es).length + 1)
  /-- While no write is under way, the ring has the newest value. -/
  content : s.mem.control.sequence % 2 = 0 → ∀ b < size, s.mem.ring b = (newest v es).getD b 0
  /-- That is a value. -/
  length : (newest v es).length = size
  /-- What the readers know whose calls have begun since. -/
  reader : ∀ j n, (readsSince j es).writes = some n →
    (s.readers j).Trails s.mem q (committed es).length n
  /-- What they have read. -/
  reads : ∀ j n out, (n, out) ∈ (readsSince j es).done → n < 2^63 → out ∈ v :: committed es

/-- The newest value is one of them. -/
theorem newest_mem (v : List UInt8) (es : List (Event size)) : newest v es ∈ v :: committed es :=
  List.getLastD_mem_cons

namespace Behind

variable {cap q i : ℕ} {v : List UInt8} {s s' : State size} {es : List (Event size)}

/-- Values committed stay so. -/
theorem reads_append (h : Behind q v s es) (e : Event size) {j n : ℕ} {out : List UInt8}
    (hdone : (n, out) ∈ (readsSince j es).done) (hn : n < 2^63) :
    out ∈ v :: committed (es ++ [e]) := by
  rw [committed_append, ← List.cons_append]
  exact List.mem_append_left _ (h.reads j n out hdone hn)

/-- An even sequence counts the writes. -/
theorem sequence_of_even (h : Behind q v s es) (hs : s.mem.control.sequence % 2 = 0) :
    s.mem.control.sequence = u64 (q + 2 * (committed es).length) := by
  have heven := h.even
  rcases h.sequence with hseq | hseq
  · exact hseq
  · rw [hseq] at hs
    unfold u64 at hs
    omega

/-- An odd sequence counts them too, with one more under way. -/
theorem sequence_of_odd (h : Behind q v s es) (hs : s.mem.control.sequence % 2 = 1) :
    s.mem.control.sequence = u64 (q + 2 * (committed es).length + 1) := by
  have heven := h.even
  rcases h.sequence with hseq | hseq
  · rw [hseq] at hs
    unfold u64 at hs
    omega
  · exact hseq

/-- The common part of all steps of a process. -/
theorem of_writer (h : Behind q v s es) {m' : Shared} {pc' : WriterPc size} {e : WriterEvent size}
    (hcalm : pc'.recovering = false)
    (hseq : m'.control.sequence = u64 (q + 2 * (committed (es ++ [.writer i e])).length) ∨
      m'.control.sequence = u64 (q + 2 * (committed (es ++ [.writer i e])).length + 1))
    (hcontent : m'.control.sequence % 2 = 0 →
      ∀ b < size, m'.ring b = (newest v (es ++ [.writer i e])).getD b 0)
    (hlength : (newest v (es ++ [.writer i e])).length = size)
    (hreaders : Onward size s.mem m' (committed es).length (committed (es ++ [.writer i e])).length
      (Event.writer i e).begins) :
    Behind q v { s with mem := m', writers := Function.update s.writers i pc' }
      (es ++ [.writer i e]) where
  calm := (Function.forall_update_iff s.writers fun _ pc => pc.recovering = false).mpr
    ⟨hcalm, fun j _ => h.calm j⟩
  even := h.even
  sequence := hseq
  content := hcontent
  length := hlength
  reader := by
    intro j n hn
    rw [readsSince_writer] at hn
    obtain ⟨n₀, hn₀, rfl⟩ := Option.map_eq_some_iff.mp hn
    exact (h.reader j n₀ hn₀).onward hreaders
  reads := by
    intro j n out hdone hn
    rw [readsSince_writer] at hdone
    exact h.reads_append _ hdone hn

/-- A step of a process that neither begins nor commits a write, and leaves the sequence as it is.
The ring may change while a write is under way. -/
theorem of_quiet (h : Behind q v s es) {m' : Shared} {pc' : WriterPc size} {e : WriterEvent size}
    (hcalm : pc'.recovering = false) (hseq : m'.control.sequence = s.mem.control.sequence)
    (hring : s.mem.control.sequence % 2 = 0 → m'.ring = s.mem.ring)
    (he : (Event.writer i e).committed? = []) :
    Behind q v { s with mem := m', writers := Function.update s.writers i pc' }
      (es ++ [.writer i e]) := by
  have hsame : committed (es ++ [.writer i e]) = committed es := by
    rw [committed_append, he, List.append_nil]
  have hnewest : newest v (es ++ [.writer i e]) = newest v es := by rw [newest, hsame, newest]
  refine h.of_writer hcalm ?_ ?_ ?_ ⟨?_, ?_, ?_⟩
  · rw [hseq, hsame]
    exact h.sequence
  · rw [hseq, hnewest]
    intro heven
    rw [hring heven]
    exact h.content heven
  · rw [hnewest]
    exact h.length
  · rw [hsame]
  · rw [hsame, hseq]
    exact Nat.le_add_right _ _
  · rw [hseq]
    intro _ heven
    exact ⟨heven, fun b _ => by rw [hring heven]⟩

/-- A write begins. -/
theorem of_begin (h : Behind q v s es) {w : Payload size} {pc' : WriterPc size}
    (heven : s.mem.control.sequence % 2 = 0) (hcalm : pc'.recovering = false) :
    Behind q v { s with
      mem := (Effect.sequence (u64 (s.mem.control.sequence + 1))).apply s.mem
      writers := Function.update s.writers i pc' } (es ++ [.writer i (.begun w)]) := by
  have hsame : committed (es ++ [.writer i (.begun w)]) = committed es := by
    rw [committed_append]
    exact List.append_nil _
  have hnewest : newest v (es ++ [.writer i (.begun w)]) = newest v es := by
    rw [newest, hsame, newest]
  have hodd : u64 (s.mem.control.sequence + 1) % 2 = 1 := by
    unfold u64
    omega
  have hnot : ¬ u64 (s.mem.control.sequence + 1) % 2 = 0 := by omega
  refine h.of_writer hcalm (Or.inr ?_) (fun hzero => absurd hzero hnot) ?_ ⟨?_, ?_, ?_⟩
  · rw [hsame, h.sequence_of_even heven]
    exact u64_succ _
  · rw [hnewest]
    exact h.length
  · rw [hsame]
  · rw [hsame, heven]
    exact Nat.add_le_add_left hodd.le _
  · exact fun _ hzero => absurd hzero hnot

/-- A write is committed. -/
theorem of_commit (h : Behind q v s es) {w : Payload size} {sq : ℕ} {pc' : WriterPc size}
    (hseq : s.mem.control.sequence = u64 (sq + 1)) (heven : sq % 2 = 0)
    (hbytes : ∀ b < size, s.mem.ring b = w.1.getD b 0) (hcalm : pc'.recovering = false) :
    Behind q v { s with
      mem := (Effect.sequence (u64 (sq + 2))).apply s.mem
      writers := Function.update s.writers i pc' } (es ++ [.writer i (.committed w)]) := by
  have hmore : committed (es ++ [.writer i (.committed w)]) = committed es ++ [w.1] :=
    committed_append _ _
  have hlen : (committed (es ++ [.writer i (.committed w)])).length =
      (committed es).length + 1 := by
    rw [hmore, List.length_append, List.length_singleton]
  have hnewest : newest v (es ++ [.writer i (.committed w)]) = w.1 := by
    rw [newest, hmore, List.getLastD_concat]
  have hodd : s.mem.control.sequence % 2 = 1 := by
    rw [hseq]
    unfold u64
    omega
  have hnext : u64 (sq + 2) = u64 (q + 2 * (committed es).length + 2) := by
    calc u64 (sq + 2) = u64 (u64 (sq + 1) + 1) := (u64_succ _).symm
      _ = u64 (u64 (q + 2 * (committed es).length + 1) + 1) := by
        rw [← hseq, h.sequence_of_odd hodd]
      _ = u64 (q + 2 * (committed es).length + 2) := u64_succ _
  have hzero : u64 (sq + 2) % 2 = 0 := by
    unfold u64
    omega
  refine h.of_writer hcalm (Or.inl ?_) (fun _ => ?_) ?_ ⟨?_, ?_, ?_⟩
  · rw [hlen, Nat.mul_add, ← Nat.add_assoc]
    exact hnext
  · rw [hnewest]
    exact hbytes
  · rw [hnewest]
    exact w.2
  · rw [hlen]
    exact Nat.le_succ _
  · change _ + u64 (sq + 2) % 2 ≤ _
    rw [hlen, hodd, hzero]
    exact le_rfl
  · rw [hlen]
    exact fun hC => absurd hC (Nat.succ_ne_self _)

/-- Every step of a process keeps this, unless it wins a recovery. -/
theorem writer_step (h : Behind q v s es) (hturns : Turns cap s) {l : WriterLabel size}
    {eff : Effect} {pc' : WriterPc size} {e : WriterEvent size}
    (hs : (s.writers i).step cap s.mem (u64 s.clock) l = some (eff, pc', e)) (hwon : e ≠ .won) :
    Behind q v { s with mem := eff.apply s.mem, writers := Function.update s.writers i pc' }
      (es ++ [.writer i e]) := by
  have hturn := hturns.writer i
  have hcalm := h.calm i
  have hcopying : ∀ (w : Payload size) sq k b, (WriterPc.copying w sq k b).recovering = false :=
    fun _ _ k _ => WriterPc.copying_ind (P := fun pc => pc.recovering = false) (fun _ => rfl) rfl k
  generalize s.writers i = pc at hs hturn hcalm
  cases WriterPc.step_cases hs with
  | won old t heq => exact absurd rfl hwon
  | clear addr => cases hcalm
  | reset => cases hcalm
  | recoverNotify => cases hcalm
  | recovered => cases hcalm
  | begin w sq b =>
    obtain ⟨rfl, heven⟩ := hturn
    exact h.of_begin heven (hcopying _ _ _ _)
  | copy w sq k b =>
    refine h.of_quiet (hcopying _ _ _ _) rfl (fun heven => ?_) rfl
    -- The sequence is odd, so that no content is promised.
    obtain ⟨hseq, hsq, -, -⟩ := hturn
    rw [hseq] at heven
    unfold u64 at heven
    omega
  | commit w sq b =>
    obtain ⟨hseq, heven, hbytes⟩ := hturn
    exact h.of_commit hseq heven hbytes rfl
  | heartbeat t b => cases b <;> exact h.of_quiet rfl rfl (fun _ => rfl) rfl
  | _ => exact h.of_quiet rfl rfl (fun _ => rfl) rfl

/-- A read that validates has copied the newest value, unless `2^63` writes have begun since its
call. -/
theorem validated (h : Behind q v s es) {c : ReadCall size} {j k n s1 : ℕ} {out : List UInt8}
    (hn : (readsSince j es).writes = some n) (hpc : s.readers j = .loadS2 c k s1 out)
    (hs1 : s1 = s.mem.control.sequence) (hlt : n < 2^63) : out = newest v es := by
  have htrails := h.reader j n hn
  rw [hpc] at htrails
  obtain ⟨hlen, c₀, hc₀, hload, hbegun, hbytes⟩ := htrails
  have hq := h.even
  have heven : s.mem.control.sequence % 2 = 0 := by
    rw [← hs1, hload]
    unfold u64
    omega
  -- The writes in between are too few for the sequence to have come round.
  have hloads : u64 (q + 2 * c₀) = u64 (q + 2 * (committed es).length) := by
    rw [← hload, hs1]
    exact h.sequence_of_even heven
  rw [u64_eq_iff (by omega) (by omega)] at hloads
  have hnone : (committed es).length = c₀ := by omega
  apply List.ext_getElem (hlen.trans h.length.symm)
  intro b hb hb'
  have hbyte := hbytes hnone heven b (by omega)
  rw [h.content heven b (by omega)] at hbyte
  rwa [List.getD_eq_getElem _ _ hb, List.getD_eq_getElem _ _ hb'] at hbyte

/-- What reader `j` knows and has read, after a step of its own. -/
theorem own_step (h : Behind q v s es) {j : ℕ} {l : ReadLabel size} {pc' : ReadPc size}
    {e : ReadEvent} (hs : (s.readers j).step s.mem (u64 s.clock) l = some (pc', e)) :
    (∀ n, (readsSince j (es ++ [.reader j e])).writes = some n →
      pc'.Trails s.mem q (committed es).length n) ∧
    ∀ n out, (n, out) ∈ (readsSince j (es ++ [.reader j e])).done → n < 2^63 →
      out ∈ v :: committed es := by
  have hkeep : ∀ n, (readsSince j es).writes = some n →
      pc'.Trails s.mem q (committed es).length n :=
    fun n hn => (h.reader j n hn).step h.sequence_of_even hs
  rw [readsSince_append]
  cases e with
  | internal => exact ⟨hkeep, h.reads j⟩
  | loadedS1 => exact ⟨hkeep, h.reads j⟩
  | called =>
    rw [ReadsSince.next, if_pos rfl]
    refine ⟨fun n _ => ?_, h.reads j⟩
    generalize s.readers j = pc at hs
    cases ReadPc.step_cases hs with
    | call c => exact ReadPc.trails_enter c
  | returned res out =>
    rw [ReadsSince.next, if_pos rfl]
    unfold ReadsSince.finish
    split
    · rename_i n hn
      refine ⟨nofun, fun n' out' hdone hlt => ?_⟩
      rcases List.mem_append.mp hdone with hold | hnew
      · exact h.reads j n' out' hold hlt
      · cases List.mem_singleton.mp hnew
        generalize hpc : s.readers j = pc at hs
        cases ReadPc.step_cases hs with
        | success c k s1 out hs1 =>
          rw [h.validated hn hpc hs1 hlt]
          exact newest_mem v es
    · exact ⟨nofun, h.reads j⟩

/-- Every step of a reader keeps this. -/
theorem reader_step (h : Behind q v s es) {l : ReadLabel size} {pc' : ReadPc size} {e : ReadEvent}
    (hs : (s.readers i).step s.mem (u64 s.clock) l = some (pc', e)) :
    Behind q v { s with readers := Function.update s.readers i pc' } (es ++ [.reader i e]) := by
  have hsame : committed (es ++ [.reader i e]) = committed es := by
    rw [committed_append]
    exact List.append_nil _
  have hnewest : newest v (es ++ [.reader i e]) = newest v es := by rw [newest, hsame, newest]
  obtain ⟨hknows, hreads⟩ := h.own_step hs
  refine ⟨h.calm, h.even, by rw [hsame]; exact h.sequence, by rw [hnewest]; exact h.content,
    by rw [hnewest]; exact h.length, ?_, ?_⟩
  · rw [hsame]
    refine (Function.forall_update_iff s.readers fun j pc => ∀ n,
      (readsSince j (es ++ [.reader i e])).writes = some n →
        pc.Trails s.mem q (committed es).length n).mpr ⟨hknows, fun j hj n hn => ?_⟩
    rw [readsSince_other hj.symm] at hn
    exact h.reader j n hn
  · rw [hsame]
    intro j n out hdone hlt
    by_cases hj : j = i
    · subst hj
      exact hreads n out hdone hlt
    · rw [readsSince_other (Ne.symm hj)] at hdone
      exact h.reads j n out hdone hlt

/-- Every step keeps this, unless it wins a recovery. -/
theorem step (h : Behind q v s es) (hturns : Turns cap s) {l : Label size} {e : Event size}
    (hs : Latest.step cap s l = some (s', e)) (hwon : ∀ i, e ≠ .writer i .won) :
    Behind q v s' (es ++ [e]) := by
  cases l with
  | writer i l =>
    obtain ⟨eff, pc, we, hstep, rfl, rfl⟩ := step_writer hs
    exact h.writer_step hturns hstep fun heq => hwon i (by rw [heq])
  | reader i l =>
    obtain ⟨pc, re, hstep, rfl, rfl⟩ := step_reader hs
    exact h.reader_step hstep
  | tick d =>
    cases hs
    have hsame : committed (es ++ [.tick]) = committed es := by
      rw [committed_append]
      exact List.append_nil _
    have hnewest : newest v (es ++ [.tick]) = newest v es := by rw [newest, hsame, newest]
    have hreading : ∀ j, readsSince j (es ++ [.tick]) = readsSince j es := fun j =>
      readsSince_append j es .tick
    refine ⟨h.calm, h.even, by rw [hsame]; exact h.sequence, by rw [hnewest]; exact h.content,
      by rw [hnewest]; exact h.length, fun j => ?_, fun j => ?_⟩
    · rw [hreading, hsame]
      exact h.reader j
    · rw [hreading, hsame]
      exact h.reads j

/-- It holds where a write has just been committed. -/
theorem fresh {l : Label size} {w : Payload size} (hturns : Turns cap s)
    (hs : Latest.step cap s l = some (s', .writer i (.committed w))) :
    Behind s'.mem.control.sequence w.1 s' ([] : List (Event size)) := by
  cases l with
  | tick d => cases hs
  | reader k l =>
    obtain ⟨pc, re, -, -, heq⟩ := step_reader hs
    cases heq
  | writer k l =>
    obtain ⟨eff, pc, we, hstep, rfl, heq⟩ := step_writer hs
    obtain ⟨rfl, rfl⟩ := Event.writer.inj heq
    obtain ⟨sq, b, hpc, rfl, rfl⟩ := WriterPc.committed_step hstep
    have hturn := hturns.writer i
    rw [hpc] at hturn
    obtain ⟨hseq, heven, hbytes⟩ := hturn
    refine ⟨?_, ?_, Or.inl ?_, fun _ => hbytes, w.2, nofun, nofun⟩
    · refine (Function.forall_update_iff s.writers fun _ pc => pc.recovering = false).mpr ⟨rfl, ?_⟩
      exact fun j hj => WriterPc.calm_of_not_owns (hturns.not_owns (by rw [hpc]; rfl) j hj)
    · change u64 (sq + 2) % 2 = 0
      unfold u64
      omega
    · exact (u64_of_lt (u64_lt _)).symm

end Behind

/-- With one writer at a time, in every run: a read that is called behind a committed write, with no
recovery won since that write and fewer than `2^63` writes begun while the read is under way,
returns the value of that write or of a later one, if it succeeds. -/
theorem mem_of_read_behind {mapping : Mapping} {start i j n : ℕ} {s : State size}
    {pre es : List (Event size)} {w : Payload size} {out : List UInt8}
    (hfresh : mapping.shared = Shared.fresh)
    (hrun : (machine size mapping start).Run soleWriter s (pre ++ .writer i (.committed w) :: es))
    (hwon : ∀ k, .writer k .won ∉ es) (hdone : (n, out) ∈ (readsSince j es).done) (hn : n < 2^63) :
    out ∈ w.1 :: committed es := by
  obtain ⟨s₀, l, s₁, hbefore, hsole, hs, hbehind⟩ := hrun.cut_at
  have hstart := turns_of_run hfresh (.step l hbefore hsole hs)
  have hall : Turns mapping.capacity s ∧ Behind s₁.mem.control.sequence w.1 s es := by
    refine hbehind.invariant_of (fun es => ∀ k, .writer k .won ∉ es) ?_
      (fun s es => Turns mapping.capacity s ∧ Behind s₁.mem.control.sequence w.1 s es)
      ⟨hstart, Behind.fresh (turns_of_run hfresh hbefore) hs⟩ ?_ hwon
    · exact fun es e h k hk => h k (List.mem_append_left _ hk)
    · rintro s es l s' e hsole hno ⟨hturns, hbehind⟩ hs
      refine ⟨hturns.step hs hsole, hbehind.step hturns hs fun k heq => hno k ?_⟩
      rw [heq]
      exact List.mem_append_right _ (List.mem_singleton_self _)
  exact hall.2.reads j n out hdone hn

end LfRing.Latest

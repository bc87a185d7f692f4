import LfRing.Library.Machine
import LfRing.Mapping
import LfRing.Latest.Reader

/-!
# A `SharedLatest` slot

The machine of a `SharedLatest`: any number of processes that may claim the slot, write and die, and
any number of readers, interleaved at single accesses to the shared memory, with a clock that moves
on as it likes. The process that created the slot is its first writer.

The seqlock rests on one fact: the ring changes only while the sequence is odd. `Inv` says so. With
`n` writes committed since the sequence last started from zero, the sequence is `2 n` or `2 n + 1`,
and when it is even the ring has the last stable content. A reader whose two loads of the sequence
agree has copied that content, unless the sequence was reset between them.

The invariant needs two things of the processes, which `claim` does not enforce. A process that
takes the slot over finds no other alive that is the writer (`soleWriter`). And the sequence is
still odd when a recovering claim wins its exchange of the heartbeat (`recoversOdd`): a writer may
commit between the claim's load of the sequence and the exchange.
-/

namespace LfRing.Latest

variable {size : ℕ}

/-- The shared memory, the clock, and the place of every party. -/
structure State (size : ℕ) where
  /-- The shared memory. -/
  mem : Shared
  /-- The steady clock, in nanoseconds. -/
  clock : ℕ
  /-- Where each process is as a writer. -/
  writers : ℕ → WriterPc size
  /-- Where each reader is in `try_read`. -/
  readers : ℕ → ReadPc size

/-- Who moves next. -/
inductive Label (size : ℕ)
  /-- A process as a writer. -/
  | writer (i : ℕ) (l : WriterLabel size)
  /-- A reader. -/
  | reader (i : ℕ) (l : ReadLabel size)
  /-- The clock, by `d` nanoseconds. -/
  | tick (d : ℕ)

/-- What a step reports. -/
inductive Event (size : ℕ)
  /-- A writer's step. -/
  | writer (i : ℕ) (e : WriterEvent size)
  /-- A reader's step. -/
  | reader (i : ℕ) (e : ReadEvent)
  /-- The clock has moved. -/
  | tick

/-- One step of a writer, of a reader or of the clock. -/
def step (cap : ℕ) (s : State size) : Label size → Option (State size × Event size)
  | .writer i l =>
    match (s.writers i).step cap s.mem (u64 s.clock) l with
    | none => none
    | some (eff, pc, e) =>
      some ({ s with mem := eff.apply s.mem, writers := Function.update s.writers i pc },
        .writer i e)
  | .reader i l =>
    match (s.readers i).step s.mem (u64 s.clock) l with
    | none => none
    | some (pc, e) => some ({ s with readers := Function.update s.readers i pc }, .reader i e)
  | .tick d => some ({ s with clock := s.clock + d }, .tick)

/-- Process 0 has created the slot and is its writer. -/
def creator : ℕ → WriterPc size := Function.update (fun _ => .gone) 0 .idle

/-- What holds of process 0 between two calls, and of every process that has not claimed the slot,
holds of all processes at the start. -/
theorem forall_creator {P : ℕ → WriterPc size → Prop} (hidle : P 0 .idle)
    (hgone : ∀ i, P i .gone) : ∀ i, P i (creator i) :=
  (Function.forall_update_iff _ P).mpr ⟨hidle, fun i _ => hgone i⟩

/-- Processes and readers on a mapping, from the time `start` on. -/
def machine (size : ℕ) (mapping : Mapping) (start : ℕ) :
    Machine (State size) (Label size) (Event size)
    where
  init := ⟨mapping.shared, start, creator, fun _ => .idle⟩
  step := step mapping.capacity

/-! ## What has happened so far -/

/-- The bytes of a slot that is cleared. -/
def zeroFill (size : ℕ) : List UInt8 := List.replicate size 0

/-- What the events so far leave: the last stable content of the ring, and the number of writes
committed since the sequence last started from zero. -/
structure Past where
  /-- The last stable content. -/
  content : List UInt8
  /-- The writes committed since. -/
  commits : ℕ

/-- One more event. -/
def Past.next (size : ℕ) (p : Past) : Event size → Past
  | .writer _ (.committed v) => ⟨v.1, p.commits + 1⟩
  | .writer _ .reset => ⟨zeroFill size, 0⟩
  | _ => p

/-- The past of a run. -/
def past (tr : List (Event size)) : Past := tr.foldl (Past.next size) ⟨zeroFill size, 0⟩

/-- The value that a step commits. -/
def Event.committed? : Event size → List (List UInt8)
  | .writer _ (.committed v) => [v.1]
  | _ => []

/-- The values committed, in order. -/
def committed (tr : List (Event size)) : List (List UInt8) := tr.flatMap Event.committed?

/-- Whether a step begins a write. -/
def Event.begins : Event size → ℕ
  | .writer _ (.begun _) => 1
  | _ => 0

/-- The number of writes begun. -/
def begun (tr : List (Event size)) : ℕ := (tr.map Event.begins).sum

/-- Whether the sequence has been reset since reader `i` last loaded `s1`. -/
def resetSince (i : ℕ) (tr : List (Event size)) : Bool :=
  tr.foldl (fun since e => match e with
    | .writer _ .reset => true
    | .reader j .loadedS1 => if j = i then false else since
    | _ => since) false

/-- A process that takes the slot over finds no other process alive that is the writer. It takes it
over when its `claim` loads an even sequence, or wins the exchange of the heartbeat. -/
def soleWriter (s : State size) (_ : List (Event size)) (l : Label size) : Prop :=
  ∀ i, l = .writer i .run →
    ((∃ t, s.writers i = .claimSequence t) ∧ s.mem.control.sequence % 2 = 0 ∨
      ∃ hb now, s.writers i = .claimExchange hb now ∧ s.mem.control.headReserve = hb) →
    ∀ j, (s.writers j).owns = false

/-- A recovering claim that wins the exchange of the heartbeat finds the sequence odd. -/
def recoversOdd (s : State size) (_ : List (Event size)) (l : Label size) : Prop :=
  ∀ i hb now, l = .writer i .run → s.writers i = .claimExchange hb now →
    s.mem.control.headReserve = hb → s.mem.control.sequence % 2 = 1

/-- No recovering claim wins the exchange of the heartbeat. -/
def noRecovery (s : State size) (_ : List (Event size)) (l : Label size) : Prop :=
  ∀ i hb now, l = .writer i .run → s.writers i = .claimExchange hb now →
    s.mem.control.headReserve ≠ hb

section Histories

variable (tr : List (Event size)) (e : Event size)

/-- The past with one more event is the one before it, carried on by the event. -/
@[simp] theorem past_append : past (tr ++ [e]) = (past tr).next size e := by
  simp [past]

/-- One more step adds the value that it commits, if it commits one. -/
@[simp] theorem committed_append : committed (tr ++ [e]) = committed tr ++ e.committed? := by
  simp [committed]

/-- One more step is counted if it begins a write. -/
@[simp] theorem begun_append : begun (tr ++ [e]) = begun tr + e.begins := by
  simp [begun]

/-- A reset sets the flag, a load of `s1` by reader `i` clears it, and every other event leaves it
as it was. -/
theorem resetSince_append (i : ℕ) : resetSince i (tr ++ [e]) = match e with
    | .writer _ .reset => true
    | .reader j .loadedS1 => if j = i then false else resetSince i tr
    | _ => resetSince i tr := by
  simp only [resetSince, List.foldl_append, List.foldl_cons, List.foldl_nil]

end Histories

/-- The steps of a writer, taken apart. -/
theorem step_writer {cap i : ℕ} {s s' : State size} {l : WriterLabel size} {e : Event size}
    (h : step cap s (.writer i l) = some (s', e)) :
    ∃ eff pc we, (s.writers i).step cap s.mem (u64 s.clock) l = some (eff, pc, we) ∧
      s' = { s with mem := eff.apply s.mem, writers := Function.update s.writers i pc } ∧
      e = .writer i we := by
  simp only [step] at h
  split at h
  · cases h
  · rename_i eff pc we hs
    cases h
    exact ⟨eff, pc, we, hs, rfl, rfl⟩

/-- The steps of a reader, taken apart. -/
theorem step_reader {cap i : ℕ} {s s' : State size} {l : ReadLabel size} {e : Event size}
    (h : step cap s (.reader i l) = some (s', e)) :
    ∃ pc re, (s.readers i).step s.mem (u64 s.clock) l = some (pc, re) ∧
      s' = { s with readers := Function.update s.readers i pc } ∧ e = .reader i re := by
  simp only [step] at h
  split at h
  · cases h
  · rename_i pc re hs
    cases h
    exact ⟨pc, re, hs, rfl, rfl⟩

/-! ## One writer at a time -/

/-- What the writer knows of the sequence and the ring, whatever the sequence has been before.
Adding one to it changes its parity also where it wraps. Processes that are not the writer know
nothing. -/
def WriterPc.Turn (cap : ℕ) (m : Shared) : WriterPc size → Prop
  | gone => True
  | claimSequence _ => True
  | claimHeartbeat _ => True
  | claimClock _ _ => True
  | claimExchange _ _ => True
  | clear addr => addr < cap ∧ ∀ b < addr, m.ring b = 0
  | reset => ∀ b < cap, m.ring b = 0
  | begin _ s _ => s = m.control.sequence ∧ s % 2 = 0
  | copy v s i _ => m.control.sequence = u64 (s + 1) ∧ s % 2 = 0 ∧ i < size ∧
      ∀ b < i, m.ring b = v.1.getD b 0
  | commit v s _ => m.control.sequence = u64 (s + 1) ∧ s % 2 = 0 ∧
      ∀ b < size, m.ring b = v.1.getD b 0
  | _ => m.control.sequence % 2 = 0

section Turn

variable {cap : ℕ} {m : Shared}

/-- A process that is not the writer has nothing to know. -/
theorem WriterPc.turn_of_not_owns {pc : WriterPc size} (h : pc.owns = false) : pc.Turn cap m := by
  cases pc <;> trivial

/-- A writer with `i` bytes copied. -/
theorem WriterPc.turn_copying {v : Payload size} {s i : ℕ} {notify : Bool}
    (hseq : m.control.sequence = u64 (s + 1)) (heven : s % 2 = 0) (hi : i ≤ size)
    (hbytes : ∀ b < i, m.ring b = v.1.getD b 0) : (copying v s i notify).Turn cap m := by
  unfold copying
  split_ifs with hlt
  · exact ⟨hseq, heven, hlt, hbytes⟩
  · obtain rfl : i = size := by omega
    exact ⟨hseq, heven, hbytes⟩

/-- A claimant with the ring cleared up to `addr`. -/
theorem WriterPc.turn_clearing {addr : ℕ} (haddr : addr ≤ cap) (hbytes : ∀ b < addr, m.ring b = 0) :
    (clearing cap addr : WriterPc size).Turn cap m := by
  unfold clearing
  split_ifs with hlt
  · exact ⟨hlt, hbytes⟩
  · obtain rfl : addr = cap := by omega
    exact hbytes

/-- A store of the byte `x` behind the first `n` bytes, which are those of `f`. -/
theorem ring_apply_upTo {n : ℕ} {x : UInt8} {f : ℕ → UInt8} (hx : x = f n)
    (hbytes : ∀ b < n, m.ring b = f b) :
    ∀ b < n + 1, ((Effect.ring ⟨n, [x]⟩).apply m).ring b = f b := by
  intro b hb
  rw [ring_apply_byte]
  split_ifs with heq
  · rw [heq, hx]
  · exact hbytes b (by omega)

/-- What a process knows after its own step. -/
theorem WriterPc.Turn.step {now : ℕ} {pc pc' : WriterPc size} {l : WriterLabel size} {eff : Effect}
    {e : WriterEvent size} (h : pc.Turn cap m) (hs : pc.step cap m now l = some (eff, pc', e)) :
    pc'.Turn cap (eff.apply m) := by
  cases step_cases hs with
  | even t heven => exact heven
  | won old t heq => exact turn_clearing (Nat.zero_le _) fun _ hb => absurd hb (Nat.not_lt_zero _)
  | clear addr =>
    obtain ⟨haddr, hbytes⟩ := h
    exact turn_clearing haddr (ring_apply_upTo (f := fun _ => 0) rfl hbytes)
  | reset => exact Nat.zero_mod 2
  | load v notify => exact ⟨rfl, h⟩
  | begin v s notify =>
    exact turn_copying rfl h.2 (Nat.zero_le _) fun _ hb => absurd hb (Nat.not_lt_zero _)
  | copy v s i notify =>
    obtain ⟨hseq, heven, hi, hbytes⟩ := h
    exact turn_copying hseq heven hi (ring_apply_upTo (f := fun b => v.1.getD b 0) rfl hbytes)
  | commit v s notify =>
    obtain ⟨-, heven, -⟩ := h
    change u64 (s + 2) % 2 = 0
    unfold u64
    omega
  | heartbeat t notify => cases notify <;> exact h
  | _ => first | exact h | trivial

end Turn

/-- There is one writer at most, and it knows what it has to. -/
structure Turns (cap : ℕ) (s : State size) : Prop where
  /-- What the writer knows. -/
  writer : ∀ i, (s.writers i).Turn cap s.mem
  /-- There is one writer at most. -/
  sole : ∀ i j, (s.writers i).owns = true → (s.writers j).owns = true → i = j

/-- Only process 0 is the writer at the start. -/
theorem eq_zero_of_creator {i : ℕ} (h : (creator i : WriterPc size).owns = true) : i = 0 := by
  by_contra hne
  rw [creator, Function.update_of_ne hne] at h
  cases h

namespace Turns

variable {cap i : ℕ} {s s' : State size} {tr : List (Event size)} {eff : Effect}
  {pc' : WriterPc size} {e : WriterEvent size}

/-- At the start process 0 is the writer, and nothing has been written. -/
theorem fresh (cap start : ℕ) :
    Turns cap (⟨Shared.fresh, start, creator, fun _ => .idle⟩ : State size) where
  writer := forall_creator (P := fun _ pc => pc.Turn cap Shared.fresh) rfl fun _ => trivial
  sole := by
    intro i j hi hj
    rw [eq_zero_of_creator hi, eq_zero_of_creator hj]

/-- No other process is the writer beside the one that is. -/
theorem not_owns (h : Turns cap s) (hi : (s.writers i).owns = true) :
    ∀ j, j ≠ i → (s.writers j).owns = false := by
  intro j hj
  cases hown : (s.writers j).owns with
  | false => rfl
  | true => exact absurd (h.sole j i hown hi) hj

/-- No other process is the writer beside one that is, or becomes it. -/
theorem others (h : Turns cap s) {l : WriterLabel size} (hsole : soleWriter s tr (.writer i l))
    (hs : (s.writers i).step cap s.mem (u64 s.clock) l = some (eff, pc', e))
    (howns : (s.writers i).owns = true ∨ pc'.owns = true) :
    ∀ j, j ≠ i → (s.writers j).owns = false := by
  cases hi : (s.writers i).owns with
  | true => exact h.not_owns hi
  | false =>
    obtain ⟨rfl, htake⟩ :=
      WriterPc.takes_over hs hi (howns.resolve_left (by rw [hi]; rintro ⟨⟩))
    exact fun j _ => hsole i rfl htake j

/-- A process that stores something is the writer, or becomes it. -/
theorem others_of_effect (h : Turns cap s) {l : WriterLabel size}
    (hsole : soleWriter s tr (.writer i l))
    (hs : (s.writers i).step cap s.mem (u64 s.clock) l = some (eff, pc', e)) (heff : eff ≠ .none) :
    ∀ j, j ≠ i → (s.writers j).owns = false := by
  refine h.others hsole hs ?_
  by_contra hneither
  rw [not_or, Bool.not_eq_true, Bool.not_eq_true] at hneither
  exact heff (WriterPc.effect_of_not_owns hs hneither.1 hneither.2)

/-- Process `i` at the place `pc'` where no other process is the writer. -/
theorem of_alone {m' : Shared} (hothers : ∀ j, j ≠ i → (s.writers j).owns = false)
    (hpc : pc'.Turn cap m') :
    Turns cap { s with mem := m', writers := Function.update s.writers i pc' } := by
  have honly : ∀ j, (Function.update s.writers i pc' j).owns = true → j = i := by
    intro j hj
    by_contra hne
    rw [Function.update_of_ne hne, hothers j hne] at hj
    cases hj
  constructor
  · refine (Function.forall_update_iff s.writers fun _ pc => pc.Turn cap _).mpr
      ⟨hpc, fun j hj => ?_⟩
    exact WriterPc.turn_of_not_owns (hothers j hj)
  · intro j k hj hk
    rw [honly j hj, honly k hk]

/-- Process `i` at a place where it is not the writer. -/
theorem of_idle (h : Turns cap s) (hpc : pc'.owns = false) :
    Turns cap { s with writers := Function.update s.writers i pc' } := by
  have hsame : ∀ j, (Function.update s.writers i pc' j).owns = true →
      (s.writers j).owns = true := by
    refine (Function.forall_update_iff s.writers fun j pc => pc.owns = true →
      (s.writers j).owns = true).mpr ⟨fun hown => ?_, fun j _ hown => hown⟩
    rw [hpc] at hown
    cases hown
  constructor
  · refine (Function.forall_update_iff s.writers fun _ pc => pc.Turn cap _).mpr
      ⟨?_, fun j _ => h.writer j⟩
    exact WriterPc.turn_of_not_owns hpc
  · intro j k hj hk
    exact h.sole j k (hsame j hj) (hsame k hk)

/-- Every step of a process keeps this, as long as processes take the slot over as they should. -/
theorem writer_step (h : Turns cap s) {l : WriterLabel size}
    (hs : (s.writers i).step cap s.mem (u64 s.clock) l = some (eff, pc', e))
    (hsole : soleWriter s tr (.writer i l)) :
    Turns cap { s with mem := eff.apply s.mem, writers := Function.update s.writers i pc' } := by
  by_cases howns : (s.writers i).owns = true ∨ pc'.owns = true
  · exact of_alone (h.others hsole hs howns) ((h.writer i).step hs)
  · rw [not_or, Bool.not_eq_true, Bool.not_eq_true] at howns
    rw [WriterPc.effect_of_not_owns hs howns.1 howns.2]
    exact h.of_idle howns.2

/-- Every step keeps this. -/
theorem step {l : Label size} {e : Event size} (h : Turns cap s)
    (hs : Latest.step cap s l = some (s', e)) (hsole : soleWriter s tr l) : Turns cap s' := by
  cases l with
  | writer i l =>
    obtain ⟨eff, pc, we, hstep, rfl, rfl⟩ := step_writer hs
    exact h.writer_step hstep hsole
  | reader i l =>
    obtain ⟨pc, re, -, rfl, rfl⟩ := step_reader hs
    exact ⟨h.writer, h.sole⟩
  | tick d =>
    cases hs
    exact ⟨h.writer, h.sole⟩

end Turns

/-- In every run in which processes take the slot over as they should, there is one writer at most,
and it knows what it has to. -/
theorem turns_of_run {mapping : Mapping} {start : ℕ} {s : State size} {tr : List (Event size)}
    (hfresh : mapping.shared = Shared.fresh)
    (h : (machine size mapping start).Run soleWriter s tr) : Turns mapping.capacity s := by
  refine h.invariant (fun s _ => Turns mapping.capacity s) ?_
    fun s tr l s' e hsole hturns hs => hturns.step hs hsole
  simp only [machine, hfresh]
  exact Turns.fresh _ start

/-! ## What the readers know -/

/-- What a reader's copy of the first `j` bytes is worth: unless the sequence has been reset since
`s1` was loaded, it has not gone back, and if it is still `s1` the bytes are those of the ring. -/
def Copied (m : Shared) (since : Bool) (s1 j : ℕ) (out : List UInt8) : Prop :=
  since = false → s1 ≤ m.control.sequence ∧
    (m.control.sequence = s1 → ∀ b < j, out.getD b 0 = m.ring b)

/-- What a reader knows. -/
def ReadPc.Ok (m : Shared) (since : Bool) : ReadPc size → Prop
  | idle => True
  | initial _ => True
  | loop _ _ out => out.length = size
  | loadS1 _ _ out => out.length = size
  | loadHeartbeat _ _ _ out => out.length = size
  | readClock _ _ _ _ out => out.length = size
  | copy _ _ s1 j out => out.length = size ∧ j < size ∧ s1 % 2 = 0 ∧ Copied m since s1 j out
  | loadS2 _ _ s1 out => out.length = size ∧ s1 % 2 = 0 ∧ Copied m since s1 size out

/-- What a step of others leaves of a reader's knowledge: the sequence was reset, or it has not gone
back and the ring has stayed as it was where the sequence is even and the same. -/
def Undisturbed (size : ℕ) (m m' : Shared) : Prop :=
  m.control.sequence ≤ m'.control.sequence ∧
    (m'.control.sequence = m.control.sequence → m.control.sequence % 2 = 0 →
      ∀ b < size, m'.ring b = m.ring b)

/-- A reader's copy keeps its worth through steps of others. -/
theorem Copied.transfer {m m' : Shared} {since since' : Bool} {s1 j : ℕ} {out : List UInt8}
    (h : Copied m since s1 j out) (hs1 : s1 % 2 = 0) (hj : j ≤ size)
    (hm : since' = true ∨ since' = since ∧ Undisturbed size m m') : Copied m' since' s1 j out := by
  rcases hm with rfl | ⟨rfl, hle, hring⟩
  · rintro ⟨⟩
  · intro hsince
    obtain ⟨hs, hbytes⟩ := h hsince
    refine ⟨le_trans hs hle, fun heq b hb => ?_⟩
    -- The sequence is `s1` now and was not more before, so it has not moved.
    have hsame : m.control.sequence = s1 := by omega
    rw [hring (by omega) (by omega) b (by omega)]
    exact hbytes hsame b hb

/-- What a reader knows survives the steps of others. -/
theorem ReadPc.Ok.transfer {m m' : Shared} {since since' : Bool} {pc : ReadPc size}
    (h : pc.Ok m since) (hm : since' = true ∨ since' = since ∧ Undisturbed size m m') :
    pc.Ok m' since' := by
  cases pc with
  | copy c i s1 j out =>
    obtain ⟨hlen, hj, hs1, hcopied⟩ := h
    exact ⟨hlen, hj, hs1, hcopied.transfer hs1 (le_of_lt hj) hm⟩
  | loadS2 c i s1 out =>
    obtain ⟨hlen, hs1, hcopied⟩ := h
    exact ⟨hlen, hs1, hcopied.transfer hs1 le_rfl hm⟩
  | _ => exact h

/-- A reader with `j` bytes copied. -/
theorem ReadPc.ok_copying {m : Shared} {since : Bool} {c : ReadCall size} {i s1 j : ℕ}
    {out : List UInt8} (hlen : out.length = size) (hs1 : s1 % 2 = 0) (hj : j ≤ size)
    (hcopied : Copied m since s1 j out) : (copying c i s1 j out).Ok m since := by
  unfold copying
  split_ifs with hlt
  · exact ⟨hlen, hlt, hs1, hcopied⟩
  · obtain rfl : j = size := by omega
    exact ⟨hlen, hs1, hcopied⟩

/-! ## The invariant -/

/-- The process has won the exchange of the heartbeat, and has not yet reset the sequence. -/
def WriterPc.clears : WriterPc size → Bool
  | clear _ => true
  | reset => true
  | _ => false

/-- A process that clears the ring is the writer. -/
theorem WriterPc.owns_of_clears {pc : WriterPc size} (h : pc.clears = true) : pc.owns = true := by
  cases pc <;> first | rfl | cases h

/-- A process clears the ring behind the exchange, and leaves the sequence alone then. -/
theorem WriterPc.clears_step {cap : ℕ} {m : Shared} {now : ℕ} {pc pc' : WriterPc size}
    {l : WriterLabel size} {eff : Effect} {e : WriterEvent size}
    (hs : pc.step cap m now l = some (eff, pc', e)) (h : pc'.clears = true) :
    (eff.apply m).control.sequence = m.control.sequence ∧ (pc.clears = true ∨
      l = .run ∧ ∃ hb t, pc = .claimExchange hb t ∧ m.control.headReserve = hb) := by
  have hcopying : ∀ (v : Payload size) s i notify, (copying v s i notify).clears = false :=
    fun _ _ i _ => copying_ind (P := fun pc => pc.clears = false) (fun _ => rfl) rfl i
  cases step_cases hs with
  | won old t heq =>
    refine ⟨rfl, Or.inr ⟨?_, old, t, rfl, heq⟩⟩
    cases l <;> first | rfl | cases hs
  | clear addr => exact ⟨rfl, Or.inl rfl⟩
  | begin v s notify =>
    rw [hcopying] at h
    cases h
  | copy v s i notify =>
    rw [hcopying] at h
    cases h
  | heartbeat t notify => cases notify <;> cases h
  | _ => cases h

/-- The invariant of a slot. -/
structure Inv (cap : ℕ) (s : State size) (tr : List (Event size)) : Prop where
  /-- There is one writer at most, and what it knows. -/
  turns : Turns cap s
  /-- The ring is cleared under an odd sequence, and as far as a value goes. -/
  clears : ∀ i, (s.writers i).clears = true → size ≤ cap ∧ s.mem.control.sequence % 2 = 1
  /-- The sequence counts the writes since it started from zero. -/
  sequence : s.mem.control.sequence = 2 * (past tr).commits ∨
    s.mem.control.sequence = 2 * (past tr).commits + 1
  /-- No more writes are counted than have begun. -/
  bound : (past tr).commits + s.mem.control.sequence % 2 ≤ begun tr
  /-- An even sequence means that the ring has the last stable content. -/
  content : s.mem.control.sequence = 2 * (past tr).commits →
    ∀ b < size, s.mem.ring b = (past tr).content.getD b 0
  /-- The content is a value's. -/
  length : (past tr).content.length = size
  /-- What the readers know. -/
  reader : ∀ i, (s.readers i).Ok s.mem (resetSince i tr)

/-- The initial state. -/
theorem Inv.fresh (cap start : ℕ) :
    Inv cap (⟨Shared.fresh, start, creator, fun _ => .idle⟩ : State size) [] where
  turns := Turns.fresh cap start
  clears := by
    intro i hi
    obtain rfl := eq_zero_of_creator (WriterPc.owns_of_clears hi)
    cases hi
  sequence := Or.inl rfl
  bound := le_rfl
  content := by
    intro _ b hb
    simp [Shared.fresh, past, zeroFill]
  length := by simp [past, zeroFill]
  reader := fun _ => trivial

section Steps

variable {cap : ℕ} {s : State size} {tr : List (Event size)} {i : ℕ}

/-- A writer's event leaves a reader's `resetSince` alone, unless it is a reset. -/
theorem resetSince_writer (tr : List (Event size)) (i j : ℕ) (e : WriterEvent size) :
    resetSince j (tr ++ [.writer i e]) = true ∨
      e ≠ .reset ∧ resetSince j (tr ++ [.writer i e]) = resetSince j tr := by
  rw [resetSince_append]
  cases e with
  | reset => exact Or.inl rfl
  | _ => exact Or.inr ⟨by rintro ⟨⟩, rfl⟩

/-- Who clears the ring after a step of process `i` does so under an odd sequence. -/
theorem Inv.clears_step (h : Inv cap s tr) {l : WriterLabel size} {eff : Effect}
    {pc' : WriterPc size} {e : WriterEvent size}
    (hs : (s.writers i).step cap s.mem (u64 s.clock) l = some (eff, pc', e))
    (hsole : soleWriter s tr (.writer i l)) (hrec : recoversOdd s tr (.writer i l))
    (hcap : size ≤ cap ∨ noRecovery s tr (.writer i l)) :
    ∀ j, (Function.update s.writers i pc' j).clears = true →
      size ≤ cap ∧ (eff.apply s.mem).control.sequence % 2 = 1 := by
  refine (Function.forall_update_iff s.writers fun _ pc => pc.clears = true →
    size ≤ cap ∧ (eff.apply s.mem).control.sequence % 2 = 1).mpr ⟨fun hpc => ?_, fun j hj hpc => ?_⟩
  · obtain ⟨hseq, hclears | ⟨rfl, hb, t, hpc, heq⟩⟩ := WriterPc.clears_step hs hpc
    · rw [hseq]
      exact h.clears i hclears
    · rw [hseq]
      exact ⟨hcap.resolve_right fun hno => hno i hb t rfl hpc heq, hrec i hb t rfl hpc heq⟩
  · -- Another process is the writer, so process `i` has stored nothing.
    have heff : eff = .none := by
      by_contra hne
      have hnot := h.turns.others_of_effect hsole hs hne j hj
      rw [WriterPc.owns_of_clears hpc] at hnot
      cases hnot
    rw [heff]
    exact h.clears j hpc

/-- The common part of all steps of process `i`. What is left is the ring under the sequence, and
that no reader is disturbed. -/
theorem Inv.of_writer (h : Inv cap s tr) {m' : Shared} {pc' : WriterPc size} {e : WriterEvent size}
    (hturns : Turns cap { s with mem := m', writers := Function.update s.writers i pc' })
    (hclears : ∀ j, (Function.update s.writers i pc' j).clears = true →
      size ≤ cap ∧ m'.control.sequence % 2 = 1)
    (hseq : m'.control.sequence = 2 * (past (tr ++ [.writer i e])).commits ∨
      m'.control.sequence = 2 * (past (tr ++ [.writer i e])).commits + 1)
    (hbound : (past (tr ++ [.writer i e])).commits + m'.control.sequence % 2 ≤
      begun (tr ++ [.writer i e]))
    (hcontent : m'.control.sequence = 2 * (past (tr ++ [.writer i e])).commits →
      ∀ b < size, m'.ring b = (past (tr ++ [.writer i e])).content.getD b 0)
    (hreaders : e = .reset ∨ Undisturbed size s.mem m') :
    Inv cap { s with mem := m', writers := Function.update s.writers i pc' }
      (tr ++ [.writer i e]) where
  turns := hturns
  clears := hclears
  sequence := hseq
  bound := hbound
  content := hcontent
  length := by
    rw [past_append]
    cases e with
    | committed v => exact v.2
    | reset => simp [Past.next, zeroFill]
    | _ => exact h.length
  reader := by
    intro j
    refine (h.reader j).transfer ?_
    rcases resetSince_writer tr i j e with htrue | ⟨hne, hsame⟩
    · exact Or.inl htrue
    · rcases hreaders with heq | hund
      · exact absurd heq hne
      · exact Or.inr ⟨hsame, hund⟩

section Effects

variable {m' : Shared} {pc' : WriterPc size}
  (hturns : Turns cap { s with mem := m', writers := Function.update s.writers i pc' })
  (hclears : ∀ j, (Function.update s.writers i pc' j).clears = true →
    size ≤ cap ∧ m'.control.sequence % 2 = 1)
include hturns hclears

/-- A step of process `i` that leaves the sequence and the past as they are. The ring changes only
under an odd sequence. -/
theorem Inv.of_quiet (h : Inv cap s tr) {e : WriterEvent size}
    (hseq : m'.control.sequence = s.mem.control.sequence)
    (hring : s.mem.control.sequence % 2 = 0 → m'.ring = s.mem.ring)
    (hpast : (past tr).next size (.writer i e) = past tr)
    (hbegun : (Event.writer i e).begins = 0) :
    Inv cap { s with mem := m', writers := Function.update s.writers i pc' }
      (tr ++ [.writer i e]) := by
  have hp : past (tr ++ [.writer i e]) = past tr := by rw [past_append, hpast]
  refine h.of_writer hturns hclears ?_ ?_ ?_ (Or.inr ⟨le_of_eq hseq.symm, ?_⟩)
  · rw [hp, hseq]
    exact h.sequence
  · rw [hp, hseq, begun_append, hbegun]
    exact h.bound
  · rw [hp, hseq]
    intro heven
    rw [hring (by omega)]
    exact h.content heven
  · intro _ heven b _
    rw [hring heven]

/-- A write makes the sequence odd. -/
theorem Inv.of_begin (h : Inv cap s tr) {v : Payload size}
    (heven : s.mem.control.sequence % 2 = 0)
    (hm' : m'.control.sequence = u64 (s.mem.control.sequence + 1))
    (hlt : begun (tr ++ [.writer i (.begun v)]) < 2^63) :
    Inv cap { s with mem := m', writers := Function.update s.writers i pc' }
      (tr ++ [.writer i (.begun v)]) := by
  have hp : past (tr ++ [.writer i (.begun v)]) = past tr := by rw [past_append]; rfl
  have hbegun : begun (tr ++ [.writer i (.begun v)]) = begun tr + 1 := by rw [begun_append]; rfl
  have hbound := h.bound
  have hseq : s.mem.control.sequence = 2 * (past tr).commits := by
    have := h.sequence
    omega
  have hnew : m'.control.sequence = 2 * (past tr).commits + 1 := by
    rw [hm', hseq, u64_of_lt (by omega)]
  refine h.of_writer hturns hclears ?_ ?_ ?_ (Or.inr ⟨?_, ?_⟩)
  · rw [hp, hnew]
    exact Or.inr rfl
  · rw [hp, hnew, hbegun]
    omega
  · rw [hp, hnew]
    intro heq
    omega
  · rw [hnew]
    omega
  · rw [hnew]
    intro heq
    omega

/-- A write makes the sequence even, with its value in the ring. -/
theorem Inv.of_commit (h : Inv cap s tr) {v : Payload size}
    (hodd : s.mem.control.sequence % 2 = 1)
    (hm' : m'.control.sequence = u64 (s.mem.control.sequence + 1))
    (hbytes : ∀ b < size, m'.ring b = v.1.getD b 0) (hlt : begun tr < 2^63) :
    Inv cap { s with mem := m', writers := Function.update s.writers i pc' }
      (tr ++ [.writer i (.committed v)]) := by
  have hp : past (tr ++ [.writer i (.committed v)]) = ⟨v.1, (past tr).commits + 1⟩ := by
    rw [past_append]
    rfl
  have hbegun : begun (tr ++ [.writer i (.committed v)]) = begun tr := by rw [begun_append]; rfl
  have hbound := h.bound
  have hseq : s.mem.control.sequence = 2 * (past tr).commits + 1 := by
    have := h.sequence
    omega
  have hnew : m'.control.sequence = 2 * ((past tr).commits + 1) := by
    rw [hm', hseq, u64_of_lt (by omega)]
    omega
  refine h.of_writer hturns hclears ?_ ?_ ?_ (Or.inr ⟨?_, ?_⟩)
  · rw [hp, hnew]
    exact Or.inl rfl
  · rw [hp, hnew, hbegun]
    change (past tr).commits + 1 + _ ≤ _
    omega
  · rw [hp]
    exact fun _ => hbytes
  · rw [hnew]
    omega
  · rw [hnew]
    intro heq
    omega

/-- A recovering claim resets the sequence, with the ring cleared. -/
theorem Inv.of_reset (h : Inv cap s tr) (hm' : m'.control.sequence = 0) (hcap : size ≤ cap)
    (hbytes : ∀ b < cap, m'.ring b = 0) :
    Inv cap { s with mem := m', writers := Function.update s.writers i pc' }
      (tr ++ [.writer i .reset]) := by
  have hp : past (tr ++ [.writer i .reset]) = ⟨zeroFill size, 0⟩ := by
    rw [past_append]
    rfl
  refine h.of_writer hturns hclears ?_ ?_ ?_ (Or.inl rfl)
  · rw [hp, hm']
    exact Or.inl rfl
  · rw [hp, hm']
    exact Nat.zero_le _
  · rw [hp]
    intro _ b hb
    rw [hbytes b (by omega)]
    simp [zeroFill]

end Effects

/-- Every step of a process keeps the invariant, as long as processes take the slot over as they
should and the sequence does not wrap. -/
theorem Inv.writer_step (h : Inv cap s tr) {l : WriterLabel size} {eff : Effect}
    {pc' : WriterPc size} {e : WriterEvent size}
    (hs : (s.writers i).step cap s.mem (u64 s.clock) l = some (eff, pc', e))
    (hsole : soleWriter s tr (.writer i l)) (hrec : recoversOdd s tr (.writer i l))
    (hcap : size ≤ cap ∨ noRecovery s tr (.writer i l))
    (hlt : begun (tr ++ [.writer i e]) < 2^63) :
    Inv cap { s with mem := eff.apply s.mem, writers := Function.update s.writers i pc' }
      (tr ++ [.writer i e]) := by
  have hturns := h.turns.writer_step hs hsole
  have hclears := h.clears_step hs hsole hrec hcap
  have hturn := h.turns.writer i
  have hodd := h.clears i
  generalize s.writers i = pc at hs hturn hodd
  cases WriterPc.step_cases hs with
  | clear addr =>
    -- No content is promised under an odd sequence.
    refine h.of_quiet hturns hclears rfl (fun heven => ?_) rfl rfl
    have := (hodd rfl).2
    omega
  | reset => exact h.of_reset hturns hclears rfl (hodd rfl).1 hturn
  | begin v q notify =>
    obtain ⟨rfl, heven⟩ := hturn
    exact h.of_begin hturns hclears heven rfl hlt
  | copy v q k notify =>
    obtain ⟨hseq, hq, -⟩ := hturn
    refine h.of_quiet hturns hclears rfl (fun heven => ?_) rfl rfl
    rw [hseq] at heven
    unfold u64 at heven
    omega
  | commit v q notify =>
    obtain ⟨hseq, hq, hbytes⟩ := hturn
    rw [begun_append] at hlt
    refine h.of_commit hturns hclears ?_ ?_ hbytes (by omega)
    · rw [hseq]
      unfold u64
      omega
    · rw [hseq, u64_succ]
      rfl
  | heartbeat t notify =>
    cases notify <;> exact h.of_quiet hturns hclears rfl (fun _ => rfl) rfl rfl
  | _ => exact h.of_quiet hturns hclears rfl (fun _ => rfl) rfl rfl

/-- One more byte in a reader's copy. -/
theorem Copied.succ {m : Shared} {since : Bool} {s1 j : ℕ} {out : List UInt8}
    (h : Copied m since s1 j out) (hj : j < out.length) :
    Copied m since s1 (j + 1) (out.set j (m.ring j)) := by
  intro hsince
  obtain ⟨hle, hbytes⟩ := h hsince
  exact ⟨hle, fun heq => getD_set_upTo hj (hbytes heq)⟩

/-- What a reader knows after its own step. Its load of `s1` starts a copy afresh. -/
theorem ReadPc.Ok.step {m : Shared} {since : Bool} {now : ℕ} {pc pc' : ReadPc size}
    {l : ReadLabel size} {e : ReadEvent} (h : pc.Ok m since)
    (hs : pc.step m now l = some (pc', e)) :
    (e = .loadedS1 → pc'.Ok m false) ∧ (e ≠ .loadedS1 → pc'.Ok m since) := by
  cases step_cases hs with
  | call c =>
    refine ⟨by rintro ⟨⟩, fun _ => ?_⟩
    unfold enter
    split
    · trivial
    · exact c.out.2
  | nonempty c hne => exact ⟨by rintro ⟨⟩, fun _ => c.out.2⟩
  | attempt c i out hi => exact ⟨by rintro ⟨⟩, fun _ => h⟩
  | loadS1 c i out =>
    refine ⟨fun _ => ?_, fun hne => absurd rfl hne⟩
    unfold examine
    split_ifs with heven
    · -- Nothing is copied yet, and the sequence is what has just been loaded.
      exact ok_copying h heven (Nat.zero_le _) fun _ => ⟨le_rfl, fun _ _ hb => by omega⟩
    · exact spin_ind (P := fun pc => pc.Ok m false) (fun _ => h) h
  | loadHeartbeat c t i out => exact ⟨by rintro ⟨⟩, fun _ => h⟩
  | alive c t i hb out hlive => exact ⟨by rintro ⟨⟩, fun _ => h⟩
  | copy c i s1 j out =>
    obtain ⟨hlen, hj, hs1, hcopied⟩ := h
    refine ⟨by rintro ⟨⟩, fun _ => ok_copying ?_ hs1 hj (hcopied.succ (by omega))⟩
    rw [List.length_set]
    exact hlen
  | changed c i s1 out hne => exact ⟨by rintro ⟨⟩, fun _ => h.1⟩
  | _ => exact ⟨by rintro ⟨⟩, fun _ => trivial⟩

/-- Every step of a reader keeps the invariant. -/
theorem Inv.reader_step (h : Inv cap s tr) {l : ReadLabel size} {pc' : ReadPc size} {e : ReadEvent}
    (hs : (s.readers i).step s.mem (u64 s.clock) l = some (pc', e)) :
    Inv cap { s with readers := Function.update s.readers i pc' } (tr ++ [.reader i e]) := by
  have hp : past (tr ++ [.reader i e]) = past tr := by rw [past_append]; rfl
  have hbegun : begun (tr ++ [.reader i e]) = begun tr := by rw [begun_append]; rfl
  refine ⟨⟨h.turns.writer, h.turns.sole⟩, h.clears, by rw [hp]; exact h.sequence,
    by rw [hp, hbegun]; exact h.bound, by rw [hp]; exact h.content, by rw [hp]; exact h.length, ?_⟩
  intro j
  rw [resetSince_append]
  obtain ⟨hfresh, hkeep⟩ := (h.reader i).step hs
  by_cases hj : j = i
  · subst hj
    simp only [Function.update_self]
    cases e with
    | loadedS1 =>
      simp only [if_true]
      exact hfresh rfl
    | _ => exact hkeep (by rintro ⟨⟩)
  · simp only [Function.update_of_ne hj]
    cases e with
    | loadedS1 =>
      simp only [if_neg (Ne.symm hj)]
      exact h.reader j
    | _ => exact h.reader j

/-- The clock matters to nobody's knowledge. -/
theorem Inv.tick (h : Inv cap s tr) (d : ℕ) :
    Inv cap { s with clock := s.clock + d } (tr ++ [.tick]) := by
  have hp : past (tr ++ [.tick]) = past tr := by rw [past_append]; rfl
  have hbegun : begun (tr ++ [.tick]) = begun tr := by rw [begun_append]; rfl
  refine ⟨⟨h.turns.writer, h.turns.sole⟩, h.clears, by rw [hp]; exact h.sequence,
    by rw [hp, hbegun]; exact h.bound, by rw [hp]; exact h.content, by rw [hp]; exact h.length, ?_⟩
  intro j
  rw [resetSince_append]
  exact h.reader j

/-- A read that validates, with no reset since its load of `s1`, has copied the last stable content,
and `s1` counts the writes since the sequence started from zero. -/
theorem Inv.validated (h : Inv cap s tr) {c : ReadCall size} {k s1 : ℕ} {out : List UInt8}
    (hpc : s.readers i = .loadS2 c k s1 out) (hs1 : s.mem.control.sequence = s1)
    (hreset : resetSince i tr = false) :
    out = (past tr).content ∧ s1 = 2 * (past tr).commits := by
  have hok := h.reader i
  rw [hpc] at hok
  obtain ⟨hlen, heven, hcopied⟩ := hok
  obtain ⟨-, hbytes⟩ := hcopied hreset
  have hseq := h.sequence
  have hquiet : s.mem.control.sequence = 2 * (past tr).commits := by omega
  refine ⟨?_, by omega⟩
  apply List.ext_getElem (hlen.trans h.length.symm)
  intro b hb hb'
  have h1 := hbytes hs1 b (by omega)
  rw [h.content hquiet b (by omega)] at h1
  rwa [List.getD_eq_getElem _ _ hb, List.getD_eq_getElem _ _ hb'] at h1

/-- Every step keeps the invariant, as long as processes take the slot over as they should and the
sequence does not wrap. -/
theorem Inv.step (h : Inv cap s tr) {l : Label size} {s' : State size} {e : Event size}
    (hs : Latest.step cap s l = some (s', e)) (hsole : soleWriter s tr l)
    (hrec : recoversOdd s tr l) (hcap : size ≤ cap ∨ noRecovery s tr l)
    (hlt : begun (tr ++ [e]) < 2^63) : Inv cap s' (tr ++ [e]) := by
  cases l with
  | writer i l =>
    obtain ⟨eff, pc, we, hstep, rfl, rfl⟩ := step_writer hs
    exact h.writer_step hstep hsole hrec hcap hlt
  | reader i l =>
    obtain ⟨pc, re, hstep, rfl, rfl⟩ := step_reader hs
    exact h.reader_step hstep
  | tick d =>
    cases hs
    exact h.tick d

/-- The sequence does not go back unless it is reset, and behind the start of a write it is not
zero. -/
theorem Inv.sequence_le (h : Inv cap s tr) {l : WriterLabel size} {eff : Effect}
    {pc' : WriterPc size} {e : WriterEvent size}
    (hs : (s.writers i).step cap s.mem (u64 s.clock) l = some (eff, pc', e)) (he : e ≠ .reset)
    (hlt : begun (tr ++ [.writer i e]) < 2^63) :
    s.mem.control.sequence ≤ (eff.apply s.mem).control.sequence ∧
      ∀ v, e = .begun v → 0 < (eff.apply s.mem).control.sequence := by
  have hturn := h.turns.writer i
  have hsequence := h.sequence
  have hbound := h.bound
  rw [begun_append] at hlt
  generalize s.writers i = pc at hs hturn
  cases WriterPc.step_cases hs with
  | reset => exact absurd rfl he
  | begin v q notify =>
    obtain ⟨rfl, -⟩ := hturn
    have hb : (Event.writer i (.begun v)).begins = 1 := rfl
    change _ ≤ u64 (s.mem.control.sequence + 1) ∧ ∀ w, _ → 0 < u64 (s.mem.control.sequence + 1)
    rw [u64_of_lt (by omega)]
    exact ⟨Nat.le_succ _, fun _ _ => Nat.succ_pos _⟩
  | commit v q notify =>
    obtain ⟨hseq, -, -⟩ := hturn
    refine ⟨?_, by rintro w ⟨⟩⟩
    change _ ≤ u64 (q + 2)
    rw [← u64_succ, ← hseq, u64_of_lt (by omega)]
    exact Nat.le_succ _
  | heartbeat t notify => cases notify <;> exact ⟨le_rfl, by rintro w ⟨⟩⟩
  | _ => exact ⟨le_rfl, by rintro w ⟨⟩⟩

end Steps

/-- The invariant holds in every run in which processes take the slot over as they should and the
sequence does not wrap. -/
theorem inv_of_run {mapping : Mapping} {start : ℕ}
    {ok : State size → List (Event size) → Label size → Prop} {s : State size}
    {tr : List (Event size)} (hfresh : mapping.shared = Shared.fresh)
    (hok : ∀ s tr l, ok s tr l → soleWriter s tr l ∧ recoversOdd s tr l ∧
      (size ≤ mapping.capacity ∨ noRecovery s tr l))
    (h : (machine size mapping start).Run ok s tr) (hlt : begun tr < 2^63) :
    Inv mapping.capacity s tr := by
  refine h.invariant_of (fun tr => begun tr < 2^63) ?_ (Inv mapping.capacity) ?_ ?_ hlt
  · intro tr e hb
    rw [begun_append] at hb
    omega
  · simp only [machine, hfresh]
    exact Inv.fresh _ _
  · intro s tr l s' e hg hb hinv hs
    obtain ⟨h1, h2, h3⟩ := hok s tr l hg
    exact hinv.step hs h1 h2 h3 hb

/-! ## Schedules -/

/-- `soleWriter` and `noRecovery`, as a test for runs in which nobody takes the slot over. -/
def unclaimedTest (s : State size) (_ : List (Event size)) : Label size → Bool
  | .writer i .run =>
    match s.writers i with
    | .claimSequence _ => false
    | .claimExchange _ _ => false
    | _ => true
  | _ => true

/-- The test is sound. -/
theorem unclaimed_of_test (s : State size) (tr : List (Event size)) (l : Label size)
    (h : unclaimedTest s tr l = true) : soleWriter s tr l ∧ noRecovery s tr l := by
  constructor
  · rintro i rfl (⟨⟨t, hpc⟩, -⟩ | ⟨hb, now, hpc, -⟩) <;> simp [unclaimedTest, hpc] at h
  · rintro i hb now rfl hpc
    simp [unclaimedTest, hpc] at h

/-- The first steps of a write, up to the copy. -/
def beginWrite (v : Payload size) : List (WriterLabel size) := [.write v false, .run, .run]

/-- A write that dies there. -/
def dieWriting (v : Payload size) : List (WriterLabel size) := beginWrite v ++ [.crash]

/-- A complete write. -/
def completeWrite (v : Payload size) : List (WriterLabel size) :=
  .write v false :: List.replicate (size + 5) .run

/-- A claim that recovers a slot of at most eight bytes. -/
def recover (threshold : ℕ) : List (WriterLabel size) :=
  .claim threshold :: List.replicate 15 .run

end LfRing.Latest

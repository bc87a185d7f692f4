import LfRing.Library.Progress
import LfRing.Latest.Slot

/-!
# Every call on a `SharedLatest` returns

A writer and the readers of `include/lf_ring/shared_latest.hpp` never wait for each other: `write`
has no loop but its copy, `claim` none but the clearing of the ring, and `try_read` gives up after
`max_retries` attempts. So every call is over after a number of steps of its own that depends on
nothing but its arguments, the size of the value and the capacity, whatever all the others do in
between, and in whatever state it finds the slot (`calls_return`).

The measure is the number of steps that a call has left at most. For a reader it is what is left of
the attempt, and `size + 4` for each attempt behind it: a test, two loads, a load of the heartbeat
or a reading of the clock, and the bytes.
-/

namespace LfRing.Latest

variable {size : ℕ}

/-! ## What is left of a call -/

/-- The steps that `try_read` has left at most when it comes to attempt `i`. -/
def attemptsLeft (c : ReadCall size) (i : ℕ) : ℕ := (c.maxRetries - i) * (size + 4) + 1

/-- The steps that a reader has left at most. -/
def ReadPc.stepsLeft : ReadPc size → ℕ
  | idle => 0
  | initial c => attemptsLeft c 0 + 1
  | loop c i _ => attemptsLeft c i
  | loadS1 c i _ => attemptsLeft c (i + 1) + (size + 3)
  | loadHeartbeat c _ i _ => attemptsLeft c (i + 1) + 2
  | readClock c _ i _ _ => attemptsLeft c (i + 1) + 1
  | copy c i _ j _ => attemptsLeft c (i + 1) + (size - (j + 1)) + 2
  | loadS2 c i _ _ => attemptsLeft c (i + 1) + 1

/-- The steps that a process has left in `claim` or `write` at most. -/
def WriterPc.stepsLeft (cap : ℕ) : WriterPc size → ℕ
  | gone => 0
  | idle => 0
  | claimSequence _ => cap + 7
  | claimHeartbeat _ => cap + 6
  | claimClock _ _ => cap + 5
  | claimExchange _ _ => cap + 4
  | clear addr => (cap - (addr + 1)) + 4
  | reset => 3
  | recoverNotify => 2
  | recoverWake => 1
  | resumeClock => 2
  | resumeHeartbeat _ => 1
  | load _ _ => size + 7
  | begin _ _ _ => size + 6
  | copy _ _ i _ => (size - (i + 1)) + 6
  | commit _ _ _ => 5
  | stamp _ => 4
  | heartbeat _ _ => 3
  | announce => 2
  | wake => 1

/-- A call of `try_read` has returned. -/
def ReadEvent.ends : ReadEvent → Bool
  | returned _ _ => true
  | _ => false

/-- A call of `claim` or `write` has returned or thrown, or the process has died. -/
def WriterEvent.ends : WriterEvent size → Bool
  | crashed => true
  | refused => true
  | resumed => true
  | recovered => true
  | written => true
  | _ => false

/-- An attempt is worth the steps of one attempt. -/
theorem attemptsLeft_succ {c : ReadCall size} {i : ℕ} (h : i < c.maxRetries) :
    attemptsLeft c i = attemptsLeft c (i + 1) + (size + 4) := by
  obtain ⟨k, hk⟩ : ∃ k, c.maxRetries - i = k + 1 := ⟨c.maxRetries - (i + 1), by omega⟩
  have hk' : c.maxRetries - (i + 1) = k := by omega
  unfold attemptsLeft
  rw [hk, hk']
  ring

/-- A reader inside a call has a step left. -/
theorem ReadPc.stepsLeft_pos {pc : ReadPc size} (h : pc ≠ .idle) : 0 < pc.stepsLeft := by
  cases pc with
  | idle => exact absurd rfl h
  | _ => simp only [stepsLeft, attemptsLeft]; omega

/-- A copy has the bytes left, and the load behind it. -/
theorem ReadPc.stepsLeft_copying (c : ReadCall size) (i s1 j : ℕ) (out : List UInt8) :
    (copying c i s1 j out).stepsLeft ≤ attemptsLeft c (i + 1) + (size - j) + 1 := by
  unfold copying
  split
  · simp only [stepsLeft]
    omega
  · simp only [stepsLeft]
    omega

/-- Behind the load of `s1` there are at most a copy, the load behind it and the attempts left. -/
theorem ReadPc.stepsLeft_examine (c : ReadCall size) (i s1 : ℕ) (out : List UInt8) :
    (examine c i s1 out).stepsLeft ≤ attemptsLeft c (i + 1) + size + 2 := by
  unfold examine spin
  split
  · have hcopy := stepsLeft_copying c i s1 0 out
    omega
  · split
    · split <;> simp only [stepsLeft] <;> omega
    · simp only [stepsLeft]
      omega

/-- A step of a reader inside a call ends it, or leaves fewer. -/
theorem ReadStep.left {m : Shared} {now : ℕ} {pc pc' : ReadPc size} {e : ReadEvent}
    (h : ReadStep m now pc pc' e) (hpc : pc ≠ .idle) :
    e.ends = true ∨ pc' ≠ .idle ∧ pc'.stepsLeft < pc.stepsLeft := by
  cases h with
  | call c => exact absurd rfl hpc
  | empty c h => exact Or.inl rfl
  | contended c i out h => exact Or.inl rfl
  | dead c threshold i hb out h => exact Or.inl rfl
  | success c i s1 out h => exact Or.inl rfl
  | nonempty c h => exact Or.inr ⟨nofun, Nat.lt_succ_self _⟩
  | attempt c i out h =>
    refine Or.inr ⟨nofun, ?_⟩
    show attemptsLeft c (i + 1) + (size + 3) < attemptsLeft c i
    rw [attemptsLeft_succ h]
    omega
  | loadS1 c i out =>
    have hleft := ReadPc.stepsLeft_examine c i m.control.sequence out
    refine Or.inr ⟨?_, ?_⟩
    · unfold ReadPc.examine ReadPc.copying ReadPc.spin
      repeat' split
      all_goals nofun
    · show _ < attemptsLeft c (i + 1) + (size + 3)
      omega
  | loadHeartbeat c threshold i out => exact Or.inr ⟨nofun, Nat.lt_succ_self _⟩
  | alive c threshold i hb out h => exact Or.inr ⟨nofun, Nat.lt_succ_self _⟩
  | copy c i s1 j out =>
    have hleft := ReadPc.stepsLeft_copying c i s1 (j + 1) (out.set j (m.ring j))
    refine Or.inr ⟨?_, ?_⟩
    · exact ReadPc.copying_ind (P := fun pc => pc ≠ .idle) (fun _ => nofun) nofun (j + 1)
    · show _ < attemptsLeft c (i + 1) + (size - (j + 1)) + 2
      omega
  | changed c i s1 out h => exact Or.inr ⟨nofun, Nat.lt_succ_self _⟩

/-- A call that has returned is over. -/
theorem ReadStep.idle_of_ends {m : Shared} {now : ℕ} {pc pc' : ReadPc size} {e : ReadEvent}
    (h : ReadStep m now pc pc' e) (he : e.ends = true) : pc' = .idle := by
  cases h <;> first | rfl | cases he

/-- Every step of a reader inside a call leaves fewer. -/
theorem ReadStep.stepsLeft_lt {m : Shared} {now : ℕ} {pc pc' : ReadPc size} {e : ReadEvent}
    (h : ReadStep m now pc pc' e) (hpc : pc ≠ .idle) : pc'.stepsLeft < pc.stepsLeft := by
  rcases h.left hpc with hends | ⟨-, hless⟩
  · rw [h.idle_of_ends hends]
    exact ReadPc.stepsLeft_pos hpc
  · exact hless

/-- The process is inside a call. -/
def WriterPc.busy (pc : WriterPc size) : Prop := pc ≠ .gone ∧ pc ≠ .idle

/-- A process inside a call has a step left. -/
theorem WriterPc.stepsLeft_pos {cap : ℕ} {pc : WriterPc size} (h : pc.busy) :
    0 < pc.stepsLeft cap := by
  cases pc with
  | gone => exact absurd rfl h.1
  | idle => exact absurd rfl h.2
  | _ => simp only [stepsLeft]; omega

/-- A `claim` that clears the ring has the bytes left, and three steps behind them. -/
theorem WriterPc.clearing_left (cap addr : ℕ) :
    (clearing cap addr : WriterPc size).busy ∧ (clearing cap addr : WriterPc size).stepsLeft cap ≤
      cap - addr + 3 := by
  unfold clearing
  split
  · refine ⟨⟨nofun, nofun⟩, ?_⟩
    simp only [stepsLeft]
    omega
  · exact ⟨⟨nofun, nofun⟩, Nat.le_add_left _ _⟩

/-- A `write` that copies its value has the bytes left, and at most five steps behind them. -/
theorem WriterPc.copying_left (cap : ℕ) (v : Payload size) (s i : ℕ) (notify : Bool) :
    (copying v s i notify).busy ∧ (copying v s i notify).stepsLeft cap ≤ size - i + 5 := by
  unfold copying
  split
  · refine ⟨⟨nofun, nofun⟩, ?_⟩
    simp only [stepsLeft]
    omega
  · exact ⟨⟨nofun, nofun⟩, Nat.le_add_left _ _⟩

/-- A step of a process inside a call ends it, or leaves fewer. -/
theorem WriterStep.left {cap : ℕ} {m : Shared} {now : ℕ} {pc pc' : WriterPc size} {eff : Effect}
    {e : WriterEvent size} (h : WriterStep cap m now pc eff pc' e) (hpc : pc.busy) :
    e.ends = true ∨ pc'.busy ∧ pc'.stepsLeft cap < pc.stepsLeft cap := by
  cases h with
  | crash pc => exact Or.inl rfl
  | claim threshold => exact absurd rfl hpc.1
  | write v notify => exact absurd rfl hpc.2
  | fresh threshold oldHb h => exact Or.inl rfl
  | lost oldHb t h => exact Or.inl rfl
  | resumed t => exact Or.inl rfl
  | recovered => exact Or.inl rfl
  | wake => exact Or.inl rfl
  | heartbeat t notify =>
    cases notify with
    | true => exact Or.inr ⟨⟨nofun, nofun⟩, Nat.lt_succ_self 2⟩
    | false => exact Or.inl rfl
  | won oldHb t h =>
    obtain ⟨hbusy, hleft⟩ := @WriterPc.clearing_left size cap 0
    refine Or.inr ⟨hbusy, ?_⟩
    show _ < cap + 4
    omega
  | clear addr =>
    obtain ⟨hbusy, hleft⟩ := @WriterPc.clearing_left size cap (addr + 1)
    refine Or.inr ⟨hbusy, ?_⟩
    show _ < (cap - (addr + 1)) + 4
    omega
  | begin v s notify =>
    obtain ⟨hbusy, hleft⟩ := WriterPc.copying_left cap v s 0 notify
    refine Or.inr ⟨hbusy, ?_⟩
    show _ < size + 6
    omega
  | copy v s i notify =>
    obtain ⟨hbusy, hleft⟩ := WriterPc.copying_left cap v s (i + 1) notify
    refine Or.inr ⟨hbusy, ?_⟩
    show _ < (size - (i + 1)) + 6
    omega
  | _ => exact Or.inr ⟨⟨nofun, nofun⟩, by simp only [WriterPc.stepsLeft]; omega⟩

/-- A call that has returned or thrown is over. -/
theorem WriterStep.out_of_ends {cap : ℕ} {m : Shared} {now : ℕ} {pc pc' : WriterPc size}
    {eff : Effect} {e : WriterEvent size} (h : WriterStep cap m now pc eff pc' e)
    (he : e.ends = true) : pc' = .gone ∨ pc' = .idle := by
  cases h with
  | heartbeat t notify => cases notify <;> first | exact Or.inr rfl | cases he
  | _ => first | exact Or.inl rfl | exact Or.inr rfl | cases he

/-- Every step of a process inside a call leaves fewer. -/
theorem WriterStep.stepsLeft_lt {cap : ℕ} {m : Shared} {now : ℕ} {pc pc' : WriterPc size}
    {eff : Effect} {e : WriterEvent size} (h : WriterStep cap m now pc eff pc' e) (hpc : pc.busy) :
    pc'.stepsLeft cap < pc.stepsLeft cap := by
  rcases h.left hpc with hends | ⟨-, hless⟩
  · rcases h.out_of_ends hends with rfl | rfl <;> exact WriterPc.stepsLeft_pos hpc
  · exact hless

/-- A process inside a call has a next step. -/
theorem WriterPc.exists_step {pc : WriterPc size} (h : pc.busy) (cap : ℕ) (m : Shared) (now : ℕ) :
    ∃ eff pc' e, pc.step cap m now .run = some (eff, pc', e) := by
  cases pc with
  | gone => exact absurd rfl h.1
  | idle => exact absurd rfl h.2
  | _ => exact ⟨_, _, _, rfl⟩

/-! ## Whole runs -/

/-- A step of reader `i`. -/
def Event.isReader (i : ℕ) : Event size → Bool
  | .reader j _ => j == i
  | _ => false

/-- A step of process `i` as a writer. -/
def Event.isWriter (i : ℕ) : Event size → Bool
  | .writer j _ => j == i
  | _ => false

section Runs

variable {mapping : Mapping} {start : ℕ} {s s' : State size} {es : List (Event size)} {i : ℕ}

/-- A step of the machine, seen from reader `i`. -/
theorem reader_step {l : Label size} {e : Event size}
    (hs : step mapping.capacity s l = some (s', e)) (hbusy : s.readers i ≠ .idle) :
    e.isReader i = false ∧ s'.readers i = s.readers i ∨
      e.isReader i = true ∧ ((∃ res out, e = .reader i (.returned res out)) ∨
        s'.readers i ≠ .idle ∧ (s'.readers i).stepsLeft < (s.readers i).stepsLeft) := by
  cases l with
  | writer j l =>
    obtain ⟨eff, pc, we, -, rfl, rfl⟩ := step_writer hs
    exact Or.inl ⟨rfl, rfl⟩
  | tick d =>
    cases hs
    exact Or.inl ⟨rfl, rfl⟩
  | reader j l =>
    obtain ⟨pc, re, hstep, rfl, rfl⟩ := step_reader hs
    by_cases hj : j = i
    · subst hj
      refine Or.inr ⟨beq_self_eq_true j, ?_⟩
      rcases (ReadPc.step_cases hstep).left hbusy with hends | hless
      · cases re with
        | returned res out => exact Or.inl ⟨res, out, rfl⟩
        | called => cases hends
        | internal => cases hends
        | loadedS1 => cases hends
      · refine Or.inr ?_
        show Function.update s.readers j pc j ≠ .idle ∧
            (Function.update s.readers j pc j).stepsLeft < _
        rwa [Function.update_self]
    · exact Or.inl ⟨beq_false_of_ne hj, Function.update_of_ne (Ne.symm hj) _ _⟩

/-- A step of the machine, seen from process `i` as a writer. -/
theorem writer_step {l : Label size} {e : Event size}
    (hs : step mapping.capacity s l = some (s', e)) (hbusy : (s.writers i).busy) :
    e.isWriter i = false ∧ s'.writers i = s.writers i ∨
      e.isWriter i = true ∧ ((∃ we, we.ends = true ∧ e = .writer i we) ∨ (s'.writers i).busy ∧
        (s'.writers i).stepsLeft mapping.capacity < (s.writers i).stepsLeft mapping.capacity) := by
  cases l with
  | reader j l =>
    obtain ⟨pc, re, -, rfl, rfl⟩ := step_reader hs
    exact Or.inl ⟨rfl, rfl⟩
  | tick d =>
    cases hs
    exact Or.inl ⟨rfl, rfl⟩
  | writer j l =>
    obtain ⟨eff, pc, we, hstep, rfl, rfl⟩ := step_writer hs
    by_cases hj : j = i
    · subst hj
      refine Or.inr ⟨beq_self_eq_true j, ?_⟩
      rcases (WriterPc.step_cases hstep).left hbusy with hends | hless
      · exact Or.inl ⟨we, hends, rfl⟩
      · refine Or.inr ?_
        show (Function.update s.writers j pc j).busy ∧
            (Function.update s.writers j pc j).stepsLeft _ < _
        rwa [Function.update_self]
    · exact Or.inl ⟨beq_false_of_ne hj, Function.update_of_ne (Ne.symm hj) _ _⟩

/-- A reader inside a call that takes as many steps as it has left at most has returned. -/
theorem read_ends (hpc : s.readers i ≠ .idle)
    (hrest : ((machine size mapping start).startingAt s).Reaches s' es)
    (hmany : (s.readers i).stepsLeft ≤ es.countP (Event.isReader i)) :
    ∃ res out, Event.reader i (.returned res out) ∈ es := by
  obtain ⟨e, he, res, out, rfl⟩ := hrest.ends_within (fun s => s.readers i)
    (Event.isReader i) (· ≠ .idle) ReadPc.stepsLeft
    (fun e => ∃ res out, e = .reader i (.returned res out)) (fun _ => ReadPc.stepsLeft_pos)
    (fun _ _ _ _ => reader_step) hpc hmany
  exact ⟨res, out, he⟩

/-- A process inside a call that takes as many steps as it has left at most has come to its end. -/
theorem write_ends (hpc : (s.writers i).busy)
    (hrest : ((machine size mapping start).startingAt s).Reaches s' es)
    (hmany : (s.writers i).stepsLeft mapping.capacity ≤ es.countP (Event.isWriter i)) :
    ∃ e, e.ends = true ∧ Event.writer i e ∈ es := by
  obtain ⟨e, he, we, hends, rfl⟩ := hrest.ends_within (fun s => s.writers i)
    (Event.isWriter i) WriterPc.busy (WriterPc.stepsLeft mapping.capacity)
    (fun e => ∃ we, we.ends = true ∧ e = .writer i we)
    (fun _ => WriterPc.stepsLeft_pos) (fun _ _ _ _ => writer_step) hpc hmany
  exact ⟨we, hends, he⟩

end Runs

/-- The calls of `SharedLatest` are wait-free. In whatever state the slot and the other processes
are, and whatever they do: a `try_read` that has been called returns within `max_retries` times
`size + 4` steps of its own and two more, a `claim` within the capacity and seven, and a `write` or
`write_and_notify` within the size and seven, unless the process dies. -/
theorem calls_return {mapping : Mapping} {start : ℕ} {s s' : State size} {es : List (Event size)}
    (i : ℕ) (hrest : ((machine size mapping start).startingAt s).Reaches s' es) :
    (∀ c, s.readers i = .enter c → c.maxRetries * (size + 4) + 2 ≤ es.countP (Event.isReader i) →
      ∃ res out, Event.reader i (.returned res out) ∈ es) ∧
    (∀ t, s.writers i = .claimSequence t → mapping.capacity + 7 ≤ es.countP (Event.isWriter i) →
      ∃ e, e.ends = true ∧ Event.writer i e ∈ es) ∧
    ∀ v notify, s.writers i = .load v notify → size + 7 ≤ es.countP (Event.isWriter i) →
      ∃ e, e.ends = true ∧ Event.writer i e ∈ es := by
  refine ⟨?_, ?_, ?_⟩
  · intro c hpc hmany
    have hleft : (ReadPc.enter c).stepsLeft ≤ c.maxRetries * (size + 4) + 2 := by
      unfold ReadPc.enter
      split <;> simp only [ReadPc.stepsLeft, attemptsLeft, Nat.sub_zero] <;> omega
    have hbusy : ReadPc.enter c ≠ .idle := by
      unfold ReadPc.enter
      split <;> nofun
    refine read_ends (by rwa [hpc]) hrest ?_
    rw [hpc]
    exact hleft.trans hmany
  · intro t hpc hmany
    refine write_ends (by rw [hpc]; exact ⟨nofun, nofun⟩) hrest ?_
    rw [hpc]
    exact hmany
  · intro v notify hpc hmany
    refine write_ends (by rw [hpc]; exact ⟨nofun, nofun⟩) hrest ?_
    rw [hpc]
    exact hmany

/-- A `try_read` with one attempt. -/
def oneAttempt : ReadCall 1 := ⟨none, 1, oneByte 0⟩

/-- A slot with a `try_read` and a `write` that have just been called. -/
def bothCalled (mapping : Mapping) : State 1 :=
  ⟨mapping.shared, 0, Function.update (fun _ => .gone) 0 (.load (oneByte 7) false),
    Function.update (fun _ => .idle) 0 (.enter oneAttempt)⟩

/-- The value is written while the reader copies it, so that its attempt fails. Both call again
then. -/
def crossing : List (Label 1) :=
  List.replicate 3 (.reader 0 .run) ++ List.replicate 6 (.writer 0 .run) ++
    List.replicate 2 (.reader 0 .run) ++ [.reader 0 (.call oneAttempt), .reader 0 .run,
      .writer 0 (.write (oneByte 8) false), .writer 0 .run]

/-- Seven steps of the reader and eight of the writer are enough. -/
theorem calls_return_crossing : ∃ mapping s' es, createMapping 1 kFlagLatest = .ok mapping ∧
    ((machine 1 mapping 0).startingAt (bothCalled mapping)).Reaches s' es ∧
    (∃ res out, Event.reader 0 (.returned res out) ∈ es) ∧
    ∃ e, e.ends = true ∧ Event.writer 0 e ∈ es := by
  obtain ⟨mapping, hmap⟩ : ∃ mapping, createMapping 1 kFlagLatest = .ok mapping := ⟨_, rfl⟩
  obtain ⟨s', es, hrest, htest⟩ :=
    ((machine 1 mapping 0).startingAt (bothCalled mapping)).exists_reaches crossing
    (fun _ es => decide (7 ≤ es.countP (Event.isReader 0) ∧ 8 ≤ es.countP (Event.isWriter 0)))
    (by cases hmap; decide +kernel)
  obtain ⟨hreads, hwrites⟩ := of_decide_eq_true htest
  obtain ⟨hread, -, hwrite⟩ := calls_return 0 hrest
  exact ⟨mapping, s', es, hmap, hrest, hread oneAttempt rfl hreads,
    hwrite (oneByte 7) false rfl hwrites⟩

end LfRing.Latest

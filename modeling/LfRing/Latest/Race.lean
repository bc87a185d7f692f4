import LfRing.Latest.Detection

/-!
# The race for a dead slot

A writer has died in the middle of a write, and any number of processes call `claim` on its slot at
once (`race`, `onlyClaims`). The exchange of the heartbeat is to let one of them through. It does so
among the claims that have found the sequence odd, if their readings of the clock are close
together: the heartbeat that the winner stores is not the old one, which the others expect, and it
is too fresh for those that load it later.

But a claim looks at the sequence before the heartbeat. One that loads the sequence after the winner
has reset it finds an even one, takes the slot for one that was left in order, and returns a second
handle (`two_handles`). `looksBeforeReset` excludes this, and `one_winner` is what holds in every
run that meets it. The readings of the clock have to differ by less than the threshold
(`readsWithin`): a claim whose reading is later than the winner's by just the threshold takes the
new heartbeat for an old one, and may win again.
-/

namespace LfRing.Latest

variable {size : ℕ}

/-- Processes and readers on the memory `m` that a dead writer has left, from the time `start`
on. -/
def race (size cap : ℕ) (m : Shared) (start : ℕ) :
    Machine (State size) (Label size) (Event size) where
  init := ⟨m, start, fun _ => .gone, fun _ => .idle⟩
  step := step cap

/-- Processes only claim, with the threshold; nobody writes or dies. -/
def onlyClaims (threshold : ℕ) : Label size → Prop
  | .writer _ (.claim t) => t = threshold
  | .writer _ (.write _ _) => False
  | .writer _ .crash => False
  | _ => True

/-- The process is in `claim` and about to read the clock. -/
def WriterPc.readsClock : WriterPc size → Bool
  | .claimClock _ _ => true
  | .resumeClock => true
  | _ => false

/-- Claims read the clock from the time `first` on, and less than the threshold after it. -/
def readsWithin (first threshold : ℕ) (s : State size) : Label size → Prop
  | .writer i .run => (s.writers i).readsClock = true →
      first ≤ s.clock ∧ s.clock < first + threshold
  | _ => True

/-- Claims load the sequence while it is odd, and do not read the clock as zero. -/
def looksBeforeReset (s : State size) : Label size → Prop
  | .writer i .run => (∀ t, s.writers i = .claimSequence t → s.mem.control.sequence % 2 = 1) ∧
      ((s.writers i).readsClock = true → u64 s.clock ≠ 0)
  | _ => True

/-! ## Contenders and the winner -/

/-- A time that a claim has read, as it is to be stored. It is not the heartbeat `old` of the dead
writer, nor zero. -/
def Reading (old first clock now : ℕ) : Prop :=
  now ≠ old ∧ now ≠ 0 ∧ ∃ t, now = u64 t ∧ first ≤ t ∧ t ≤ clock

/-- A reading stays one as the clock goes on. -/
theorem Reading.mono {old first clock clock' now : ℕ} (h : Reading old first clock now)
    (hle : clock ≤ clock') : Reading old first clock' now := by
  obtain ⟨hold, hzero, t, rfl, hfirst, ht⟩ := h
  exact ⟨hold, hzero, t, rfl, hfirst, le_trans ht hle⟩

/-- A reading is fresh at every later reading, if all are close together. -/
theorem Reading.fresh {old first clock now threshold : ℕ} (h : Reading old first clock now)
    (hclock : clock < first + threshold) : sub64 (u64 clock) now < threshold := by
  obtain ⟨-, -, t, rfl, hfirst, ht⟩ := h
  unfold sub64 u64
  omega

/-- A process whose claim has not won, with the heartbeat `hb` now. Before the exchange it has the
heartbeat of the dead writer, or else it is refused. -/
def WriterPc.Contends (threshold old first clock hb : ℕ) : WriterPc size → Prop
  | gone => True
  | claimSequence t => t = threshold
  | claimHeartbeat t => t = threshold
  | claimClock t loaded => t = threshold ∧ (loaded = old ∨ loaded = hb)
  | claimExchange loaded now => loaded = old ∧ Reading old first clock now
  | _ => False

/-- The process that has won, until it has its handle. -/
def WriterPc.Wins : WriterPc size → Prop
  | clear _ => True
  | reset => True
  | recoverNotify => True
  | recoverWake => True
  | idle => True
  | _ => False

namespace WriterPc

variable {cap threshold old first clock hb : ℕ} {m : Shared} {pc pc' : WriterPc size}
  {l : WriterLabel size} {eff : Effect} {e : WriterEvent size}

/-- A contender stays one as the clock goes on. -/
theorem Contends.mono {clock' : ℕ} (h : pc.Contends threshold old first clock hb)
    (hle : clock ≤ clock') : pc.Contends threshold old first clock' hb := by
  cases pc with
  | claimExchange loaded now => exact ⟨h.1, h.2.mono hle⟩
  | _ => exact h

/-- A contender stays one when another process wins. -/
theorem Contends.overtaken {hb' : ℕ} (h : pc.Contends threshold old first clock old) :
    pc.Contends threshold old first clock hb' := by
  cases pc with
  | claimClock t loaded => exact ⟨h.1, Or.inl (h.2.elim id id)⟩
  | _ => exact h

/-- A step of a contender: it stores nothing and gets no handle, or it wins while the heartbeat is
that of the dead writer. -/
theorem Contends.step (h : pc.Contends threshold old first clock hb)
    (hs : pc.step cap m (u64 clock) l = some (eff, pc', e))
    (hheartbeat : m.control.headReserve = hb) (hhb : hb = old ∨ Reading old first clock hb)
    (hclaim : ∀ t, l = .claim t → t = threshold)
    (hodd : l = .run → ∀ t, pc = .claimSequence t → m.control.sequence % 2 = 1)
    (hclock : l = .run → pc.readsClock = true →
      first ≤ clock ∧ clock < first + threshold ∧ u64 clock ≠ 0) :
    (pc'.Contends threshold old first clock hb ∧ eff = .none ∧ e ≠ .resumed ∧ e ≠ .recovered) ∨
      hb = old ∧ pc' = clearing cap 0 ∧ e = .won ∧
        ∃ now, Reading old first clock now ∧ eff = .headReserve now := by
  cases WriterPc.step_cases hs with
  | crash pc => exact Or.inl ⟨trivial, rfl, by rintro ⟨⟩, by rintro ⟨⟩⟩
  | claim t =>
    have hl : l = .claim t := by
      cases l <;> first | (cases hs; done) | (cases hs; rfl)
    exact Or.inl ⟨hclaim t hl, rfl, by rintro ⟨⟩, by rintro ⟨⟩⟩
  | even t heven =>
    have hl : l = .run := by cases l <;> first | rfl | cases hs
    have := hodd hl t rfl
    omega
  | odd t hne => exact Or.inl ⟨h, rfl, by rintro ⟨⟩, by rintro ⟨⟩⟩
  | claimHeartbeat t => exact Or.inl ⟨⟨h, Or.inr hheartbeat⟩, rfl, by rintro ⟨⟩, by rintro ⟨⟩⟩
  | fresh t loaded hfresh => exact Or.inl ⟨trivial, rfl, by rintro ⟨⟩, by rintro ⟨⟩⟩
  | stale t loaded hstale =>
    have hl : l = .run := by cases l <;> first | rfl | cases hs
    obtain ⟨hfirst, hlt, hzero⟩ := hclock hl rfl
    obtain ⟨rfl, hloaded⟩ := h
    -- A heartbeat that another claim has stored is fresh, so this is the dead writer's.
    have hold : loaded = old := by
      rcases hloaded with hloaded | rfl
      · exact hloaded
      · rcases hhb with hhb | hreading
        · exact hhb
        · exact absurd ⟨hreading.2.1, hreading.fresh hlt⟩ hstale
    subst hold
    refine Or.inl ⟨⟨rfl, ?_, hzero, clock, rfl, hfirst, le_rfl⟩, rfl, by rintro ⟨⟩, by rintro ⟨⟩⟩
    -- It is older than the threshold, or zero, and the reading is neither.
    rintro heq
    rw [heq] at hstale hzero
    refine hstale ⟨hzero, ?_⟩
    unfold sub64
    omega
  | won loaded now heq =>
    obtain ⟨rfl, hreading⟩ := h
    exact Or.inr ⟨hheartbeat.symm.trans heq, rfl, rfl, now, hreading, rfl⟩
  | lost loaded now hne => exact Or.inl ⟨trivial, rfl, by rintro ⟨⟩, by rintro ⟨⟩⟩
  | _ => exact h.elim

/-- Whoever clears the ring has won. -/
theorem wins_clearing (cap addr : ℕ) :
    (clearing cap addr : WriterPc size).Wins ∧ (clearing cap addr : WriterPc size) ≠ .idle :=
  clearing_ind (P := fun pc => pc.Wins ∧ pc ≠ .idle) (fun _ => ⟨trivial, by rintro ⟨⟩⟩)
    ⟨trivial, by rintro ⟨⟩⟩ cap addr

/-- A step of the winner. -/
theorem Wins.step (h : pc.Wins) (hs : pc.step cap m clock .run = some (eff, pc', e)) :
    pc'.Wins ∧ pc ≠ .idle ∧ (eff.apply m).control.headReserve = m.control.headReserve ∧
      e ≠ .resumed ∧ (pc' = .idle ↔ e = .recovered) := by
  cases pc with
  | clear addr =>
    cases hs
    obtain ⟨hwins, hne⟩ := wins_clearing cap (addr + 1)
    exact ⟨hwins, by rintro ⟨⟩, rfl, by rintro ⟨⟩, by simp [hne]⟩
  | reset =>
    cases hs
    exact ⟨trivial, by rintro ⟨⟩, rfl, by rintro ⟨⟩, by simp⟩
  | recoverNotify =>
    cases hs
    exact ⟨trivial, by rintro ⟨⟩, rfl, by rintro ⟨⟩, by simp⟩
  | recoverWake =>
    cases hs
    exact ⟨trivial, by rintro ⟨⟩, rfl, by rintro ⟨⟩, by simp⟩
  | idle => cases hs
  | _ => exact h.elim

end WriterPc

/-- Nobody has won yet. -/
structure Undecided (threshold old first : ℕ) (s : State size) (tr : List (Event size)) : Prop where
  /-- The heartbeat is that of the dead writer. -/
  heartbeat : s.mem.control.headReserve = old
  /-- Everybody contends. -/
  contends : ∀ i, (s.writers i).Contends threshold old first s.clock old
  /-- There is no handle. -/
  handles : claims tr = []

/-- Process `w` has won. -/
structure Decided (threshold old first w : ℕ) (s : State size) (tr : List (Event size)) : Prop where
  /-- The heartbeat is the winner's. -/
  heartbeat : Reading old first s.clock s.mem.control.headReserve
  /-- Everybody else contends. -/
  contends : ∀ i, i ≠ w →
    (s.writers i).Contends threshold old first s.clock s.mem.control.headReserve
  /-- Where the winner is. -/
  wins : (s.writers w).Wins
  /-- The winner has the only handle. -/
  handles : s.writers w = .idle ∧ claims tr = [(w, .recovered)] ∨
    s.writers w ≠ .idle ∧ claims tr = []

section Steps

variable {cap threshold old first w : ℕ} {s s' : State size} {tr : List (Event size)}
  {l : Label size} {e : Event size}

/-- An event that is neither `resumed` nor `recovered` returns no handle. -/
theorem claim_eq_nil {i : ℕ} {we : WriterEvent size} (h : we ≠ .resumed) (h' : we ≠ .recovered) :
    (Event.writer i we).claim? = [] := by
  cases we with
  | resumed => exact absurd rfl h
  | recovered => exact absurd rfl h'
  | _ => rfl

/-- A step while nobody has won. -/
theorem Undecided.step (h : Undecided threshold old first s tr) (hclaims : onlyClaims threshold l)
    (hwithin : readsWithin first threshold s l) (hlooks : looksBeforeReset s l)
    (hs : Latest.step cap s l = some (s', e)) :
    Undecided threshold old first s' (tr ++ [e]) ∨
      ∃ w, Decided threshold old first w s' (tr ++ [e]) := by
  cases l with
  | reader r l =>
    obtain ⟨pc, re, -, rfl, rfl⟩ := step_reader hs
    refine Or.inl ⟨h.heartbeat, h.contends, ?_⟩
    rw [claims_append, h.handles]
    rfl
  | tick d =>
    cases hs
    refine Or.inl ⟨h.heartbeat, fun i => (h.contends i).mono (Nat.le_add_right _ _), ?_⟩
    rw [claims_append, h.handles]
    rfl
  | writer i l =>
    obtain ⟨eff, pc, we, hstep, rfl, rfl⟩ := step_writer hs
    have hother : ∀ j, j ≠ i → (Function.update s.writers i pc j) = s.writers j := fun j hj =>
      Function.update_of_ne hj _ _
    have hself : Function.update s.writers i pc i = pc := Function.update_self _ _ _
    rcases (h.contends i).step hstep h.heartbeat (Or.inl rfl) (by rintro t rfl; exact hclaims)
      (by rintro rfl; exact hlooks.1)
      (by rintro rfl hpc; exact ⟨(hwithin hpc).1, (hwithin hpc).2, hlooks.2 hpc⟩) with
      ⟨hpc, rfl, hresumed, hrecovered⟩ | ⟨-, rfl, rfl, now, hreading, rfl⟩
    · refine Or.inl ⟨h.heartbeat, fun j => ?_, ?_⟩
      · change (Function.update s.writers i pc j).Contends _ _ _ _ _
        by_cases hj : j = i
        · rw [hj, hself]
          exact hpc
        · rw [hother j hj]
          exact h.contends j
      · rw [claims_append, h.handles, claim_eq_nil hresumed hrecovered]
        rfl
    · -- Process `i` wins.
      obtain ⟨hwins, hne⟩ : (WriterPc.clearing cap 0 : WriterPc size).Wins ∧
          (WriterPc.clearing cap 0 : WriterPc size) ≠ .idle := WriterPc.wins_clearing cap 0
      refine Or.inr ⟨i, hreading, fun j hj => ?_, ?_, Or.inr ⟨?_, ?_⟩⟩
      · change (Function.update s.writers i _ j).Contends _ _ _ _ _
        rw [hother j hj]
        exact (h.contends j).overtaken
      · change (Function.update s.writers i _ i).Wins
        rw [hself]
        exact hwins
      · change Function.update s.writers i _ i ≠ .idle
        rw [hself]
        exact hne
      · rw [claims_append, h.handles]
        rfl

/-- A step when process `w` has won. -/
theorem Decided.step (h : Decided threshold old first w s tr) (hclaims : onlyClaims threshold l)
    (hwithin : readsWithin first threshold s l) (hlooks : looksBeforeReset s l)
    (hs : Latest.step cap s l = some (s', e)) : Decided threshold old first w s' (tr ++ [e]) := by
  cases l with
  | reader r l =>
    obtain ⟨pc, re, -, rfl, rfl⟩ := step_reader hs
    refine ⟨h.heartbeat, h.contends, h.wins, ?_⟩
    rw [claims_append, show (Event.reader r re : Event size).claim? = [] from rfl, List.append_nil]
    exact h.handles
  | tick d =>
    cases hs
    refine ⟨h.heartbeat.mono (Nat.le_add_right _ _),
      fun i hi => (h.contends i hi).mono (Nat.le_add_right _ _), h.wins, ?_⟩
    rw [claims_append, show (Event.tick : Event size).claim? = [] from rfl, List.append_nil]
    exact h.handles
  | writer i l =>
    obtain ⟨eff, pc, we, hstep, rfl, rfl⟩ := step_writer hs
    have hother : ∀ j, j ≠ i → (Function.update s.writers i pc j) = s.writers j := fun j hj =>
      Function.update_of_ne hj _ _
    have hself : Function.update s.writers i pc i = pc := Function.update_self _ _ _
    by_cases hi : i = w
    · subst hi
      obtain rfl : l = .run := by
        cases l with
        | run => rfl
        | claim t =>
          have hwins := h.wins
          generalize s.writers i = pc₀ at hstep hwins
          cases pc₀ <;> first | exact hwins.elim | cases hstep
        | _ => exact hclaims.elim
      obtain ⟨hpc, hbusy, hheartbeat, hresumed, hrecovered⟩ := h.wins.step hstep
      have hnone : claims tr = [] := by
        rcases h.handles with ⟨hidle, -⟩ | ⟨-, hnone⟩
        · exact absurd hidle hbusy
        · exact hnone
      refine ⟨by change Reading old first s.clock _; rw [hheartbeat]; exact h.heartbeat,
        fun j hj => ?_, ?_, ?_⟩
      · change (Function.update s.writers i pc j).Contends _ _ _ _
            (eff.apply s.mem).control.headReserve
        rw [hother j hj, hheartbeat]
        exact h.contends j hj
      · change (Function.update s.writers i pc i).Wins
        rw [hself]
        exact hpc
      · change Function.update s.writers i pc i = .idle ∧ _ ∨
          Function.update s.writers i pc i ≠ .idle ∧ _
        rw [hself, claims_append, hnone]
        by_cases hwe : we = .recovered
        · exact Or.inl ⟨hrecovered.mpr hwe, by rw [hwe]; rfl⟩
        · refine Or.inr ⟨fun hidle => hwe (hrecovered.mp hidle), ?_⟩
          rw [claim_eq_nil hresumed hwe]
          rfl
    · -- Another process: the heartbeat is not the one it expects.
      rcases (h.contends i hi).step hstep rfl (Or.inr h.heartbeat) (by rintro t rfl; exact hclaims)
        (by rintro rfl; exact hlooks.1)
        (by rintro rfl hpc; exact ⟨(hwithin hpc).1, (hwithin hpc).2, hlooks.2 hpc⟩) with
        ⟨hpc, rfl, hresumed, hrecovered⟩ | ⟨hold, -⟩
      · refine ⟨h.heartbeat, fun j hj => ?_, ?_, ?_⟩
        · change (Function.update s.writers i pc j).Contends _ _ _ _ _
          by_cases hji : j = i
          · rw [hji, hself]
            exact hpc
          · rw [hother j hji]
            exact h.contends j hj
        · change (Function.update s.writers i pc w).Wins
          rw [hother w (Ne.symm hi)]
          exact h.wins
        · change Function.update s.writers i pc w = .idle ∧ _ ∨
            Function.update s.writers i pc w ≠ .idle ∧ _
          rw [hother w (Ne.symm hi), claims_append, claim_eq_nil hresumed hrecovered,
            List.append_nil]
          exact h.handles
      · exact absurd hold h.heartbeat.1

end Steps

/-! ## The end of a claim -/

/-- The process is in `claim`. -/
def WriterPc.inClaim : WriterPc size → Bool
  | .claimSequence _ => true
  | .resumeClock => true
  | .resumeHeartbeat _ => true
  | .claimHeartbeat _ => true
  | .claimClock _ _ => true
  | .claimExchange _ _ => true
  | .clear _ => true
  | .reset => true
  | .recoverNotify => true
  | .recoverWake => true
  | _ => false

/-- A process in `claim` is inside a call. -/
theorem WriterPc.busy_of_inClaim {pc : WriterPc size} (h : pc.inClaim = true) : pc.busy := by
  cases pc <;> first | (cases h; done) | exact ⟨by rintro ⟨⟩, by rintro ⟨⟩⟩

/-- A claim goes on, or is over. -/
theorem WriterStep.inClaim {cap : ℕ} {m : Shared} {now : ℕ} {pc pc' : WriterPc size} {eff : Effect}
    {e : WriterEvent size} (h : WriterStep cap m now pc eff pc' e) (hpc : pc.inClaim = true) :
    pc'.inClaim = true ∨ pc' = .gone ∨ pc' = .idle := by
  have hclearing : ∀ addr, (WriterPc.clearing cap addr : WriterPc size).inClaim = true :=
    WriterPc.clearing_ind (P := fun pc => pc.inClaim = true) (fun _ => rfl) rfl cap
  cases h with
  | won old t heq => exact Or.inl (hclearing 0)
  | clear addr => exact Or.inl (hclearing _)
  | _ => first
    | exact Or.inl rfl
    | exact Or.inr (Or.inl rfl)
    | exact Or.inr (Or.inr rfl)
    | cases hpc

/-- A claim that goes on alone throws or returns a handle. -/
theorem claim_ends (cap start : ℕ) (m : Shared) {s : State size} {i : ℕ}
    (h : (s.writers i).inClaim = true) :
    ∃ es s', (race size cap m start).Path (fun l => l = .writer i .run) s es s' ∧
      (s'.writers i = .gone ∨ s'.writers i = .idle) := by
  have hend : ∃ es s', (race size cap m start).Path (fun l => l = .writer i .run) s es s' ∧
      ¬ (s'.writers i).inClaim = true ∧
      ((s'.writers i).inClaim = true ∨ s'.writers i = .gone ∨ s'.writers i = .idle) := by
    refine Machine.exists_path (fun s : State size => (s.writers i).stepsLeft cap)
      (fun (s : State size) _ => (s.writers i).inClaim = true ∨ s.writers i = .gone ∨
        s.writers i = .idle)
      (fun s : State size => ¬ (s.writers i).inClaim = true) ?_ (Or.inl h)
    rintro s es - hin
    have hbusy := WriterPc.busy_of_inClaim (not_not.mp hin)
    obtain ⟨eff, pc, we, hstep⟩ := WriterPc.exists_step hbusy cap s.mem (u64 s.clock)
    have hself : Function.update s.writers i pc i = pc := Function.update_self _ _ _
    refine ⟨.writer i .run, { s with
      mem := eff.apply s.mem, writers := Function.update s.writers i pc }, .writer i we,
        rfl, ?_, ?_,
      ?_⟩
    · simp only [race, Latest.step, hstep]
    · dsimp only
      rw [hself]
      exact (WriterPc.step_cases hstep).inClaim (not_not.mp hin)
    · dsimp only
      rw [hself]
      exact (WriterPc.step_cases hstep).stepsLeft_lt hbusy
  obtain ⟨es, s', hpath, hout, hwhere⟩ := hend
  exact ⟨es, s', hpath, hwhere.resolve_left hout⟩

/-! ## One winner -/

/-- Recovery of a dead slot has one winner. In every run of any number of claims with the threshold
on the memory that a dead writer has left, in which nobody writes or dies, all readings of the clock
are less than the threshold apart and none is zero, and claims load the sequence while it is odd: at
most one claim has returned a handle, and a process that is out of `claim` without this handle has
been refused. Every claim comes to an end. -/
theorem one_winner {cap start first threshold : ℕ} {m : Shared} {s : State size}
    {tr : List (Event size)}
    (hrun : (race size cap m start).Run (fun s _ l => onlyClaims threshold l ∧
      readsWithin first threshold s l ∧ looksBeforeReset s l) s tr) :
    (claims tr).length ≤ 1 ∧
      (∀ i, (s.writers i).inClaim = true ∨ s.writers i = .gone ∨
        s.writers i = .idle ∧ claims tr = [(i, .recovered)]) ∧
      ∀ i, (s.writers i).inClaim = true →
        ∃ es s', (race size cap m start).Path (fun l => l = .writer i .run) s es s' ∧
          (s'.writers i = .gone ∨ s'.writers i = .idle) := by
  have hinv : Undecided threshold m.control.headReserve first s tr ∨
      ∃ w, Decided threshold m.control.headReserve first w s tr := by
    refine hrun.invariant (fun s tr => Undecided threshold m.control.headReserve first s tr ∨
      ∃ w, Decided threshold m.control.headReserve first w s tr) ?_ ?_
    · exact Or.inl ⟨rfl, fun _ => trivial, rfl⟩
    · rintro s tr l s' e ⟨hclaims, hwithin, hlooks⟩ hold hs
      rcases hold with hopen | ⟨w, hwon⟩
      · exact hopen.step hclaims hwithin hlooks hs
      · exact Or.inr ⟨w, hwon.step hclaims hwithin hlooks hs⟩
  have hcontends : ∀ {pc : WriterPc size} {clock hb : ℕ},
      pc.Contends threshold m.control.headReserve first clock hb →
      pc.inClaim = true ∨ pc = .gone := by
    intro pc clock hb hpc
    cases pc <;> first | exact Or.inl rfl | exact Or.inr rfl | exact hpc.elim
  refine ⟨?_, fun i => ?_, fun i hi => claim_ends cap start m hi⟩
  · rcases hinv with hopen | ⟨w, hwon⟩
    · rw [hopen.handles]
      exact Nat.zero_le 1
    · rcases hwon.handles with ⟨-, hone⟩ | ⟨-, hnone⟩
      · rw [hone]
        exact le_rfl
      · rw [hnone]
        exact Nat.zero_le 1
  · rcases hinv with hopen | ⟨w, hwon⟩
    · exact (hcontends (hopen.contends i)).imp_right Or.inl
    · by_cases hi : i = w
      · subst hi
        rcases hwon.handles with ⟨hidle, hone⟩ | ⟨hbusy, -⟩
        · exact Or.inr (Or.inr ⟨hidle, hone⟩)
        · have hwins := hwon.wins
          refine Or.inl ?_
          generalize s.writers i = pc at hwins hbusy
          cases pc <;> first | rfl | exact hwins.elim | exact absurd rfl hbusy
      · exact (hcontends (hwon.contends i hi)).imp_right Or.inl

/-- `onlyClaims` and `readsWithin`, as a test. -/
def claimsTest (first threshold : ℕ) (s : State size) : Label size → Bool
  | .writer _ (.claim t) => t == threshold
  | .writer _ (.write _ _) => false
  | .writer _ .crash => false
  | .writer i .run => !(s.writers i).readsClock ||
      decide (first ≤ s.clock ∧ s.clock < first + threshold)
  | _ => true

/-- The test is sound. -/
theorem claims_of_test {first threshold : ℕ} {s : State size} {l : Label size}
    (h : claimsTest first threshold s l = true) :
    onlyClaims threshold l ∧ readsWithin first threshold s l := by
  cases l with
  | writer i l =>
    cases l with
    | run =>
      refine ⟨trivial, fun hpc => ?_⟩
      simpa [claimsTest, hpc] using h
    | claim t => exact ⟨beq_iff_eq.mp h, trivial⟩
    | _ => cases h
  | _ => exact ⟨trivial, trivial⟩

/-- `looksBeforeReset`, as a test. -/
def looksTest (s : State size) : Label size → Bool
  | .writer i .run =>
    match s.writers i with
    | .claimSequence _ => s.mem.control.sequence % 2 == 1
    | pc => !pc.readsClock || u64 s.clock != 0
  | _ => true

/-- The test is sound. -/
theorem looksBeforeReset_of_test {s : State size} {l : Label size} (h : looksTest s l = true) :
    looksBeforeReset s l := by
  cases l with
  | writer i l =>
    cases l with
    | run =>
      refine ⟨fun t hpc => by simpa [looksTest, hpc] using h, fun hclock => ?_⟩
      cases hpc : s.writers i with
      | resumeClock => simpa [looksTest, hpc, WriterPc.readsClock] using h
      | claimClock t loaded => simpa [looksTest, hpc, WriterPc.readsClock] using h
      | _ =>
        rw [hpc] at hclock
        cases hclock
    | _ => trivial
  | _ => trivial

/-- What a creator leaves that dies in its first write. -/
def orphan : Shared := ⟨⟨0, 0, 0, 0, 1⟩, fun _ => 0⟩

/-- Processes 0 and 1 call `claim`. -/
def bothClaim : List (Label 1) := [.writer 0 (.claim 5), .writer 1 (.claim 5)]

/-- Both load the sequence and the heartbeat and read the clock. Process 0 wins the exchange,
process 1 is refused, and process 0 gets the handle. -/
theorem one_winner_bothJudge : ∃ s tr, (race 1 8 orphan 1).Run (fun s _ l => onlyClaims 5 l ∧
      readsWithin 1 5 s l ∧ looksBeforeReset s l) s tr ∧
    claims tr = [(0, .recovered)] ∧ s.writers 1 = .gone := by
  obtain ⟨s, tr, hrun, htest⟩ := (race 1 8 orphan 1).exists_run
    (fun s _ l => claimsTest 1 5 s l && looksTest s l)
    (fun s _ l h => And.intro (claims_of_test (Bool.and_eq_true_iff.mp h).1).1
      (And.intro (claims_of_test (Bool.and_eq_true_iff.mp h).1).2
        (looksBeforeReset_of_test (Bool.and_eq_true_iff.mp h).2)))
    (bothClaim ++ List.replicate 3 (.writer 0 .run) ++ List.replicate 3 (.writer 1 .run) ++
      [.writer 0 .run, .writer 1 .run] ++ List.replicate 11 (.writer 0 .run))
    (fun s tr => decide (claims tr = [(0, .recovered)] ∧ (s.writers 1).inClaim = false))
    (by decide +kernel)
  obtain ⟨hclaims, hout⟩ := of_decide_eq_true htest
  refine ⟨s, tr, hrun, hclaims, ?_⟩
  rcases (one_winner hrun).2.1 1 with hin | hgone | ⟨-, hother⟩
  · rw [hout] at hin
    cases hin
  · exact hgone
  · rw [hclaims] at hother
    cases hother

/-- Process 1 is in `claim`, but does not load the sequence before process 0 has recovered the slot.
Both claims return a handle. -/
theorem two_handles : ∃ s tr, (race 1 8 orphan 1).Run (fun s _ l => onlyClaims 5 l ∧
      readsWithin 1 5 s l) s tr ∧
    claims tr = [(0, .recovered), (1, .resumed)] := by
  obtain ⟨s, tr, hrun, htest⟩ := (race 1 8 orphan 1).exists_run (fun s _ l => claimsTest 1 5 s l)
    (fun _ _ _ h => claims_of_test h)
    (bothClaim ++ List.replicate 15 (.writer 0 .run) ++ List.replicate 3 (.writer 1 .run))
    (fun _ tr => decide (claims tr = [(0, .recovered), (1, .resumed)]))
    (by decide +kernel)
  exact ⟨s, tr, hrun, of_decide_eq_true htest⟩

end LfRing.Latest

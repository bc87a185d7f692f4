import LfRing.Latest.WaitFree

/-!
# Who is declared dead

A reader that finds the sequence odd at every 64th attempt, and a claim that finds it odd, judge the
writer by the age of its heartbeat. The heartbeat is stored by `claim` and at the end of `write`, so
it says when the last write ended, not whether one is under way.

- `create` leaves the heartbeat zero, and a reader takes zero for no heartbeat at all. If the
  creator dies in its first write, no reader ever reports it (`unreported`). This is the only case:
  a reader that comes late enough after a death in the middle of a write reports it if and only if
  the heartbeat was not zero (`reported_iff`).

A heartbeat is never ahead of the clock (`Stamped`), so the unsigned difference that the code takes
is the heartbeat's age. While the writer is in the middle of a write the sequence is odd, also after
it has wrapped (`odd_of_midWrite`), and it stays odd as long as no process takes a step as a writer.
-/

namespace LfRing.Latest

variable {size : ℕ}

/-! ## Heartbeats and the clock -/

/-- The time that a process has read and is about to store. -/
def WriterPc.time : WriterPc size → ℕ
  | .resumeHeartbeat now => now
  | .claimExchange _ now => now
  | .heartbeat now _ => now
  | _ => 0

/-- No heartbeat is ahead of the clock. -/
structure Stamped (s : State size) : Prop where
  /-- The one that is stored. -/
  heartbeat : s.mem.control.headReserve ≤ s.clock
  /-- Those that are about to be. -/
  writer : ∀ i, (s.writers i).time ≤ s.clock

/-- A process stores what it has read, and reads nothing ahead of the clock. -/
theorem WriterPc.time_step {cap n : ℕ} {m : Shared} {now : ℕ} {pc pc' : WriterPc size}
    {l : WriterLabel size} {eff : Effect} {e : WriterEvent size}
    (hs : pc.step cap m now l = some (eff, pc', e)) (hnow : now ≤ n)
    (hheartbeat : m.control.headReserve ≤ n) (htime : pc.time ≤ n) :
    (eff.apply m).control.headReserve ≤ n ∧ pc'.time ≤ n := by
  have hclearing : ∀ addr, (clearing cap addr : WriterPc size).time ≤ n :=
    clearing_ind (P := fun pc => pc.time ≤ n) (fun _ => Nat.zero_le n) (Nat.zero_le n) cap
  have hcopying : ∀ (v : Payload size) s i notify, (copying v s i notify).time ≤ n := fun _ _ i _ =>
    copying_ind (P := fun pc => pc.time ≤ n) (fun _ => Nat.zero_le n) (Nat.zero_le n) i
  cases WriterPc.step_cases hs with
  | resumeClock => exact ⟨hheartbeat, hnow⟩
  | resumed t => exact ⟨htime, Nat.zero_le n⟩
  | stale threshold old hstale => exact ⟨hheartbeat, hnow⟩
  | won old t heq => exact ⟨htime, hclearing 0⟩
  | clear addr => exact ⟨hheartbeat, hclearing _⟩
  | begin v s notify => exact ⟨hheartbeat, hcopying _ _ _ _⟩
  | copy v s i notify => exact ⟨hheartbeat, hcopying _ _ _ _⟩
  | stamp notify => exact ⟨hheartbeat, hnow⟩
  | heartbeat t notify =>
    refine ⟨htime, ?_⟩
    cases notify <;> exact Nat.zero_le n
  | _ => exact ⟨hheartbeat, Nat.zero_le n⟩

/-- Every step keeps heartbeats behind the clock. -/
theorem Stamped.step {cap : ℕ} {s s' : State size} {l : Label size} {e : Event size} (h : Stamped s)
    (hs : Latest.step cap s l = some (s', e)) : Stamped s' := by
  cases l with
  | writer i l =>
    obtain ⟨eff, pc, we, hstep, rfl, rfl⟩ := step_writer hs
    obtain ⟨hheartbeat, htime⟩ :=
      WriterPc.time_step hstep (Nat.mod_le _ _) h.heartbeat (h.writer i)
    refine ⟨hheartbeat, fun j => ?_⟩
    change (Function.update s.writers i pc j).time ≤ s.clock
    by_cases hj : j = i
    · subst hj
      rw [Function.update_self]
      exact htime
    · rw [Function.update_of_ne hj]
      exact h.writer j
  | reader i l =>
    obtain ⟨pc, re, -, rfl, rfl⟩ := step_reader hs
    exact ⟨h.heartbeat, h.writer⟩
  | tick d =>
    cases hs
    exact ⟨Nat.le_add_right_of_le h.heartbeat, fun i => Nat.le_add_right_of_le (h.writer i)⟩

/-- The initial state of a new slot. -/
theorem Stamped.fresh (start : ℕ) :
    Stamped (⟨Shared.fresh, start, creator, fun _ => .idle⟩ : State size) := by
  refine ⟨Nat.zero_le _, fun i => ?_⟩
  change (creator i : WriterPc size).time ≤ start
  by_cases hi : i = 0
  · subst hi
    exact Nat.zero_le _
  · rw [creator, Function.update_of_ne hi]
    exact Nat.zero_le _

/-- In every run, heartbeats are behind the clock. -/
theorem stamped_of_run {mapping : Mapping} {start : ℕ}
    {ok : State size → List (Event size) → Label size → Prop} {s : State size}
    {tr : List (Event size)} (hfresh : mapping.shared = Shared.fresh)
    (h : (machine size mapping start).Run ok s tr) : Stamped s := by
  refine h.invariant (fun s _ => Stamped s) ?_ ?_
  · simp only [machine, hfresh]
    exact Stamped.fresh start
  · exact fun s tr l s' e _ hstamped hs => hstamped.step hs

/-! ## The middle of a write -/

/-- The process is between the two stores of the sequence in `write`. -/
def WriterPc.midWrite : WriterPc size → Bool
  | .copy _ _ _ _ => true
  | .commit _ _ _ => true
  | _ => false

/-- In the middle of a write the sequence is odd, also where it has wrapped. -/
theorem WriterPc.odd_of_midWrite {cap : ℕ} {m : Shared} {pc : WriterPc size} (h : pc.Turn cap m)
    (hmid : pc.midWrite = true) : m.control.sequence % 2 = 1 := by
  have hodd : ∀ s, m.control.sequence = u64 (s + 1) → s % 2 = 0 → m.control.sequence % 2 = 1 := by
    intro s hseq heven
    rw [hseq]
    unfold u64
    omega
  cases pc with
  | copy v s i notify => exact hodd s h.1 h.2.1
  | commit v s notify => exact hodd s h.1 h.2.1
  | _ => cases hmid

/-! ## A read after a death -/

/-- What a step of reader `r` returns. -/
def Event.result? (r : ℕ) : Event size → List ReadResult
  | .reader j (.returned res _) => if j = r then [res] else []
  | _ => []

/-- What the calls of reader `r` have returned, in order. -/
def results (r : ℕ) (tr : List (Event size)) : List ReadResult := tr.flatMap (Event.result? r)

/-- One more step adds the result that it returns to reader `r`, if it returns one. -/
@[simp] theorem results_append (r : ℕ) (tr : List (Event size)) (e : Event size) :
    results r (tr ++ [e]) = results r tr ++ e.result? r := by
  simp [results]

/-- A result is that of a step that returns it. -/
theorem Event.mem_result {r : ℕ} {e : Event size} {res : ReadResult} :
    res ∈ e.result? r ↔ ∃ out, e = .reader r (.returned res out) := by
  constructor
  · intro h
    cases e with
    | reader j re =>
      cases re with
      | returned res' out =>
        simp only [Event.result?] at h
        split_ifs at h with hj
        · rw [List.mem_singleton.mp h, hj]
          exact ⟨out, rfl⟩
        · cases h
      | _ => cases h
    | _ => cases h
  · rintro ⟨out, rfl⟩
    simp [Event.result?]

/-- `ClaimResult`, as far as a claim of a slot that exists returns it. -/
inductive ClaimResult
  /-- `kResumed`. -/
  | resumed
  /-- `kRecovered`. -/
  | recovered
deriving DecidableEq

/-- The process to which a step returns a handle from `claim`. -/
def Event.claim? : Event size → List (ℕ × ClaimResult)
  | .writer i .resumed => [(i, .resumed)]
  | .writer i .recovered => [(i, .recovered)]
  | _ => []

/-- The handles that claims have returned, in order. -/
def claims (tr : List (Event size)) : List (ℕ × ClaimResult) := tr.flatMap Event.claim?

/-- One more step adds the handle that it returns from `claim`, if it returns one. -/
@[simp] theorem claims_append (tr : List (Event size)) (e : Event size) :
    claims (tr ++ [e]) = claims tr ++ e.claim? := by
  simp [claims]

/-- No process takes a step as a writer, unless it dies. -/
def calm : Label size → Prop
  | .writer _ l => l = .crash
  | _ => True

/-- Reader `r` is in one call, nobody takes a step as a writer, and the reader reads the clock only
when it is past `late`. -/
def readsLate (r late : ℕ) (s : State size) (_ : List (Event size)) (l : Label size) : Prop :=
  calm l ∧ (∀ c, l ≠ .reader r (.call c)) ∧
    ∀ c t i hb out, l = .reader r .run → s.readers r = .readClock c t i hb out →
      late < s.clock ∧ s.clock < 2^64

/-- Where nobody takes a step as a writer, the memory stays as it is. -/
theorem calm_step {cap : ℕ} {s s' : State size} {l : Label size} {e : Event size} (hl : calm l)
    (hs : Latest.step cap s l = some (s', e)) : s'.mem = s.mem ∧ s.clock ≤ s'.clock := by
  cases l with
  | writer i l =>
    obtain rfl : l = .crash := hl
    obtain ⟨eff, pc, we, hstep, rfl, rfl⟩ := step_writer hs
    simp only [WriterPc.step, Option.some.injEq, Prod.mk.injEq] at hstep
    obtain ⟨rfl, -, -⟩ := hstep
    exact ⟨rfl, le_rfl⟩
  | reader i l =>
    obtain ⟨pc, re, -, rfl, rfl⟩ := step_reader hs
    exact ⟨rfl, le_rfl⟩
  | tick d =>
    cases hs
    exact ⟨rfl, Nat.le_add_right _ _⟩

/-- Where a reader is, in a call `c` that finds the sequence odd and the heartbeat `hb` all along,
or behind it. If there is a heartbeat, the first look at it ends the call. -/
def Spins (hb threshold : ℕ) (c : ReadCall size) : ReadPc size → Prop
  | .idle => True
  | .initial c' => c' = c
  | .loop c' i _ => c' = c ∧ (hb ≠ 0 → i < 64)
  | .loadS1 c' i _ => c' = c ∧ i < c.maxRetries ∧ (hb ≠ 0 → i < 64)
  | .loadHeartbeat c' t i _ => c' = c ∧ i < c.maxRetries ∧ t = threshold
  | .readClock c' t i hb' _ => c' = c ∧ i < c.maxRetries ∧ t = threshold ∧ hb' = hb
  | _ => False

section Reading

variable {hb threshold : ℕ} {c : ReadCall size} {m : Shared} {now : ℕ} {pc pc' : ReadPc size}
  {e : ReadEvent}

/-- A step of such a call. It returns `kWriterDead` if there is a heartbeat, and does not
otherwise. -/
theorem Spins.step (h : Spins hb threshold c pc) (hthreshold : c.threshold = some threshold)
    (hretries : 64 ≤ c.maxRetries) (hodd : m.control.sequence % 2 = 1)
    (hheartbeat : m.control.headReserve = hb)
    (hlate : ∀ c t i hb' out, pc = .readClock c t i hb' out → hb ≠ 0 → threshold < sub64 now hb)
    (hs : pc.step m now .run = some (pc', e)) :
    Spins hb threshold c pc' ∧ (pc' = .idle ↔ ∃ res out, e = .returned res out) ∧
      ∀ res out, e = .returned res out → (res = .writerDead ↔ hb ≠ 0) := by
  cases ReadPc.step_cases hs with
  | call c' => cases hs
  | empty c' hzero => omega
  | nonempty c' hne =>
    obtain rfl : c' = c := h
    exact ⟨⟨rfl, fun _ => by norm_num⟩, by simp, by simp⟩
  | attempt c' i out hi =>
    obtain ⟨rfl, hlt⟩ := h
    exact ⟨⟨rfl, hi, hlt⟩, by simp, by simp⟩
  | contended c' i out hi =>
    obtain ⟨rfl, hlt⟩ := h
    refine ⟨trivial, by simp, ?_⟩
    -- With a heartbeat, the call would not have come to its last attempt.
    rintro res out' ⟨⟩
    refine ⟨by rintro ⟨⟩, fun hne => ?_⟩
    have := hlt hne
    omega
  | loadS1 c' i out =>
    obtain ⟨rfl, hi, hlt⟩ := h
    have hne : ¬ m.control.sequence % 2 = 0 := by omega
    rw [ReadPc.examine, if_neg hne, ReadPc.spin, hthreshold]
    dsimp only
    split_ifs with h63
    · exact ⟨⟨rfl, hi, rfl⟩, by simp, by simp⟩
    · refine ⟨⟨rfl, fun hne => ?_⟩, by simp, by simp⟩
      have := hlt hne
      omega
  | loadHeartbeat c' t i out =>
    obtain ⟨rfl, hi, ht⟩ := h
    exact ⟨⟨rfl, hi, ht, hheartbeat⟩, by simp, by simp⟩
  | dead c' t i hb' out hdead =>
    obtain ⟨rfl, hi, rfl, rfl⟩ := h
    refine ⟨trivial, by simp, ?_⟩
    rintro res out' ⟨⟩
    exact ⟨fun _ => hdead.1, fun _ => rfl⟩
  | alive c' t i hb' out halive =>
    obtain ⟨rfl, hi, rfl, rfl⟩ := h
    refine ⟨⟨rfl, fun hne => ?_⟩, by simp, by simp⟩
    exact absurd ⟨hne, hlate _ _ _ _ _ rfl hne⟩ halive
  | copy c' i s1 j out => exact h.elim
  | success c' i s1 out hs1 => exact h.elim
  | changed c' i s1 out hs1 => exact h.elim

/-- Such a call goes on until it has returned. -/
theorem Spins.enabled (h : Spins hb threshold c pc) (hpc : pc ≠ .idle) (m : Shared) (now : ℕ) :
    ∃ pc' e, pc.step m now .run = some (pc', e) := by
  cases pc with
  | idle => exact absurd rfl hpc
  | copy c i s1 j out => exact h.elim
  | loadS2 c i s1 out => exact h.elim
  | _ => exact ⟨_, _, rfl⟩

end Reading

/-- A heartbeat not ahead of `start` is older than the threshold when the clock is past both. -/
theorem lt_age {hb start threshold clock : ℕ} (hhb : hb ≤ start) (hlate : start + threshold < clock)
    (hclock : clock < 2^64) : threshold < sub64 (u64 clock) hb := by
  rw [u64_of_lt hclock, sub64_of_le (by omega) hclock]
  omega

/-- Reader `r` is in the call `c`, or behind it, with a sequence that is odd and the heartbeat
`hb`. -/
structure Spinning (hb threshold r : ℕ) (c : ReadCall size) (s : State size) : Prop where
  /-- The sequence is odd. -/
  odd : s.mem.control.sequence % 2 = 1
  /-- The heartbeat. -/
  heartbeat : s.mem.control.headReserve = hb
  /-- Where the reader is. -/
  reader : Spins hb threshold c (s.readers r)

section Spinning

variable {cap hb threshold r late : ℕ} {c : ReadCall size} {s s' : State size}
  {tr : List (Event size)} {l : Label size} {e : Event size}

/-- The reader's own step. -/
theorem Spinning.read (h : Spinning hb threshold r c s)
    (hthreshold : c.threshold = some threshold) (hretries : 64 ≤ c.maxRetries)
    (hhb : hb + threshold ≤ late)
    (hlate : ∀ c t i hb' out, s.readers r = .readClock c t i hb' out → late < s.clock ∧
      s.clock < 2^64)
    (hs : Latest.step cap s (.reader r .run) = some (s', e)) :
    Spinning hb threshold r c s' ∧ (s'.readers r = .idle ↔ ∃ res, res ∈ e.result? r) ∧
      ∀ res ∈ e.result? r, (res = .writerDead ↔ hb ≠ 0) := by
  obtain ⟨pc, re, hstep, rfl, rfl⟩ := step_reader hs
  have hself : Function.update s.readers r pc r = pc := Function.update_self _ _ _
  obtain ⟨hspins, hidle, hres⟩ := h.reader.step hthreshold hretries h.odd h.heartbeat
    (fun c t i hb' out hpc _ => by
      obtain ⟨hpast, hclock⟩ := hlate c t i hb' out hpc
      exact lt_age le_rfl (by omega) hclock) hstep
  refine ⟨⟨h.odd, h.heartbeat, ?_⟩, ?_, ?_⟩
  · change Spins hb threshold c (Function.update s.readers r pc r)
    rw [hself]
    exact hspins
  · change Function.update s.readers r pc r = .idle ↔ _
    rw [hself, hidle]
    simp [Event.mem_result]
  · intro res hmem
    obtain ⟨out, heq⟩ := Event.mem_result.mp hmem
    cases heq
    exact hres res out rfl

/-- Every step of a run in which the reader reads late. -/
theorem Spinning.step (h : Spinning hb threshold r c s) (hthreshold : c.threshold = some threshold)
    (hretries : 64 ≤ c.maxRetries) (hhb : hb + threshold ≤ late) (hguard : readsLate r late s tr l)
    (hs : Latest.step cap s l = some (s', e)) :
    Spinning hb threshold r c s' ∧ ∀ res ∈ e.result? r, (res = .writerDead ↔ hb ≠ 0) := by
  obtain ⟨hcalm, hcall, hlate⟩ := hguard
  obtain ⟨hmem, -⟩ := calm_step hcalm hs
  -- A step of another party leaves the reader where it is.
  have hother : s'.readers r = s.readers r → Spinning hb threshold r c s' := by
    intro hsame
    refine ⟨by rw [hmem]; exact h.odd, by rw [hmem]; exact h.heartbeat, ?_⟩
    rw [hsame]
    exact h.reader
  cases l with
  | writer i l =>
    obtain ⟨eff, pc, we, -, rfl, rfl⟩ := step_writer hs
    exact ⟨hother rfl, by rintro res ⟨⟩⟩
  | tick d =>
    cases hs
    exact ⟨hother rfl, by rintro res ⟨⟩⟩
  | reader j l =>
    by_cases hj : j = r
    · subst hj
      cases l with
      | call c' => exact absurd rfl (hcall c')
      | run =>
        obtain ⟨hspinning, -, hres⟩ := h.read hthreshold hretries hhb
          (fun c t i hb' out hpc => hlate c t i hb' out rfl hpc) hs
        exact ⟨hspinning, hres⟩
    · obtain ⟨pc, re, -, rfl, rfl⟩ := step_reader hs
      refine ⟨hother (Function.update_of_ne (Ne.symm hj) _ _), fun res hmem => ?_⟩
      obtain ⟨out, heq⟩ := Event.mem_result.mp hmem
      cases heq
      exact absurd rfl hj

/-- The call, going on alone late enough, returns. -/
theorem Spinning.returns {size : ℕ} {mapping : Mapping} {start : ℕ} {c : ReadCall size}
    {s : State size} (h : Spinning hb threshold r c s) (hthreshold : c.threshold = some threshold)
    (hretries : 64 ≤ c.maxRetries) (hhb : hb + threshold < s.clock) (hclock : s.clock < 2^64)
    (hpc : s.readers r ≠ .idle) :
    ∃ es s', (machine size mapping start).Path (fun l => l = .reader r .run) s es s' ∧
      ∃ res ∈ results r es, (res = .writerDead ↔ hb ≠ 0) := by
  have hend : ∃ es s', (machine size mapping start).Path (fun l => l = .reader r .run) s es s' ∧
      s'.readers r = .idle ∧ Spinning hb threshold r c s' ∧ s'.clock = s.clock ∧
      (s'.readers r = .idle → ∃ res ∈ results r es, (res = .writerDead ↔ hb ≠ 0)) := by
    refine Machine.exists_path (fun s => (s.readers r).stepsLeft) _ _ ?_
      ⟨h, rfl, fun hidle => absurd hidle hpc⟩
    rintro s₁ es ⟨hspin, hsame, -⟩ hbusy
    obtain ⟨pc, re, hstep⟩ := hspin.reader.enabled hbusy s₁.mem (u64 s₁.clock)
    have hs : Latest.step mapping.capacity s₁ (.reader r .run) =
        some ({ s₁ with readers := Function.update s₁.readers r pc }, .reader r re) := by
      simp only [Latest.step, hstep]
    obtain ⟨hspin', hidle, hres⟩ := hspin.read hthreshold hretries
      (Nat.le_refl (hb + threshold)) (fun _ _ _ _ _ _ => by rw [hsame]; exact ⟨hhb, hclock⟩) hs
    refine ⟨.reader r .run, _, _, rfl, hs, ⟨hspin', hsame, fun hfinal => ?_⟩, ?_⟩
    · obtain ⟨res, hmem⟩ := hidle.mp hfinal
      exact ⟨res, by rw [results_append]; exact List.mem_append_right _ hmem, hres res hmem⟩
    · change (Function.update s₁.readers r pc r).stepsLeft < _
      rw [Function.update_self]
      exact (ReadPc.step_cases hstep).stepsLeft_lt hbusy
  obtain ⟨es, s', hpath, hidle, -, -, hret⟩ := hend
  exact ⟨es, s', hpath, hret hidle⟩

end Spinning

/-- Process `i` dies in the middle of a write, in the state `s` of a run with one writer at a time.
Later, and as long as no process takes a step as a writer, reader `r` calls `try_read`, and has come
to the state `s'` with the events `es`, with the clock past the time of the death by more than the
threshold whenever it has read it. -/
structure ReadAfterDeath (mapping : Mapping) (start i r threshold : ℕ) (c : ReadCall size)
    (s s' : State size) (es : List (Event size)) : Prop where
  /-- The run. -/
  run : ∃ tr, (machine size mapping start).Run soleWriter s tr
  /-- The process is between its two stores of the sequence. -/
  mid : (s.writers i).midWrite = true
  /-- The call has the threshold. -/
  timed : c.threshold = some threshold
  /-- It has at least 64 attempts. -/
  retries : 64 ≤ c.maxRetries
  /-- The process dies, time passes, and the call begins and goes on. -/
  read : ∃ s₀ e₀ s₁ tr₁ s₂ e₂, step mapping.capacity s (.writer i .crash) = some (s₀, e₀) ∧
    ((machine size mapping start).startingAt s₀).Run (fun _ _ l => calm l) s₁ tr₁ ∧
    step mapping.capacity s₁ (.reader r (.call c)) = some (s₂, e₂) ∧
    ((machine size mapping start).startingAt s₂).Run (readsLate r (s.clock + threshold)) s' es

/-- A death in the middle of a write is reported if and only if there is a heartbeat. If the call
has returned, it has returned `kWriterDead` if and only if the heartbeat was not zero when the
process died. If it has not, and the time has come, it does so when it goes on. -/
theorem reported_iff {mapping : Mapping} {start i r threshold : ℕ} {c : ReadCall size}
    {s s' : State size} {es : List (Event size)}
    (hcreate : createMapping size kFlagLatest = .ok mapping)
    (h : ReadAfterDeath mapping start i r threshold c s s' es) :
    (∀ res ∈ results r es, (res = .writerDead ↔ s.mem.control.headReserve ≠ 0)) ∧
      (s'.readers r ≠ .idle → s.clock + threshold < s'.clock → s'.clock < 2^64 →
        ∃ es' s'', (machine size mapping start).Path (fun l => l = .reader r .run) s' es' s'' ∧
          ∃ res ∈ results r es', (res = .writerDead ↔ s.mem.control.headReserve ≠ 0)) := by
  obtain ⟨⟨tr, hrun⟩, hmid, hthreshold, hretries, s₀, e₀, s₁, tr₁, s₂, e₂, hcrash, hlater, hcall,
    hread⟩ := h
  have hfresh := createMapping_shared hcreate
  have hheartbeat := (stamped_of_run hfresh hrun).heartbeat
  have hodd : s.mem.control.sequence % 2 = 1 :=
    WriterPc.odd_of_midWrite ((turns_of_run hfresh hrun).writer i) hmid
  -- From the death on, the memory is as it was.
  have hmem : s₂.mem = s.mem := by
    have h₀ := (calm_step (l := .writer i .crash) rfl hcrash).1
    have h₁ : s₁.mem = s₀.mem := hlater.invariant (fun s' _ => s'.mem = s₀.mem) rfl
      fun s' _ l s'' e hl hsame hs => ((calm_step hl hs).1).trans hsame
    have h₂ := (calm_step (l := .reader r (.call c)) trivial hcall).1
    exact h₂.trans (h₁.trans h₀)
  have hstart : Spinning s.mem.control.headReserve threshold r c s₂ := by
    refine ⟨by rw [hmem]; exact hodd, by rw [hmem], ?_⟩
    obtain ⟨pc, re, hstep, rfl, -⟩ := step_reader hcall
    change Spins _ _ _ (Function.update s₁.readers r pc r)
    rw [Function.update_self]
    generalize s₁.readers r = pc₁ at hstep
    cases pc₁ with
    | idle =>
      cases hstep
      rw [ReadPc.enter, hthreshold]
      rfl
    | _ => cases hstep
  have hend : Spinning s.mem.control.headReserve threshold r c s' ∧
      ∀ res ∈ results r es, (res = .writerDead ↔ s.mem.control.headReserve ≠ 0) := by
    refine hread.invariant (fun s' es => Spinning s.mem.control.headReserve threshold r c s' ∧
      ∀ res ∈ results r es, (res = .writerDead ↔ s.mem.control.headReserve ≠ 0))
      ⟨hstart, by simp [results]⟩ ?_
    rintro s₃ es₃ l s₄ e hguard ⟨hspin, hold⟩ hs
    obtain ⟨hspin', hnew⟩ := hspin.step hthreshold hretries (by omega) hguard hs
    refine ⟨hspin', fun res hmem => ?_⟩
    rw [results_append] at hmem
    exact (List.mem_append.mp hmem).elim (hold res) (hnew res)
  exact ⟨hend.2, fun hbusy hpast hclock =>
    hend.1.returns hthreshold hretries (by omega) hclock hbusy⟩

/-- `readsLate`, as a test for a reader that goes on alone. -/
def readsLateTest (r late : ℕ) (s : State size) (_ : List (Event size)) : Label size → Bool
  | .reader j .run => decide (j = r) &&
    match s.readers r with
    | .readClock _ _ _ _ _ => decide (late < s.clock ∧ s.clock < 2^64)
    | _ => true
  | _ => false

/-- The test is sound. -/
theorem readsLate_of_test (r late : ℕ) (s : State size) (tr : List (Event size)) (l : Label size)
    (h : readsLateTest r late s tr l = true) : readsLate r late s tr l := by
  cases l with
  | reader j l =>
    cases l with
    | call c => cases h
    | run =>
      refine ⟨trivial, by rintro c ⟨⟩, ?_⟩
      rintro c t i hb out - hpc
      simp only [readsLateTest, hpc, Bool.and_eq_true, decide_eq_true_eq] at h
      exact h.2
  | _ => cases h

/-- The creator dies in the middle of a write. Then `d` nanoseconds pass, and reader 0 calls
`try_read` and takes `n` steps. -/
theorem exists_readAfterDeath (mapping : Mapping) (start threshold d n : ℕ) (c : ReadCall size)
    (hthreshold : c.threshold = some threshold) (hretries : 64 ≤ c.maxRetries)
    (ls : List (Label size)) (p : State size → List (Event size) → Bool)
    (h : (((machine size mapping start).exec unclaimedTest
      (machine size mapping start).init [] ls).any fun x => (x.1.writers 0).midWrite &&
        (((machine size mapping start).exec (fun _ _ _ => true) x.1 []
          [.writer 0 .crash, .tick d, .reader 0 (.call c)]).any fun y =>
          (((machine size mapping start).startingAt y.1).exec
            (readsLateTest 0 (x.1.clock + threshold)) y.1 []
            (List.replicate n (.reader 0 .run))).any fun z => p x.1 z.2)) = true) :
    ∃ s s' es, ReadAfterDeath mapping start 0 0 threshold c s s' es ∧ p s es = true := by
  obtain ⟨⟨s, tr⟩, hrun, hrest⟩ := (Option.any_eq_true _ _).mp h
  obtain ⟨hmid, hrest⟩ := Bool.and_eq_true_iff.mp hrest
  obtain ⟨⟨s₂, tr₂⟩, hbetween, hrest⟩ := (Option.any_eq_true _ _).mp hrest
  obtain ⟨⟨s', es⟩, hread, hp⟩ := (Option.any_eq_true _ _).mp hrest
  -- The three steps between the run and the read, one by one.
  simp only [Machine.exec, if_true] at hbetween
  split at hbetween
  · cases hbetween
  rename_i s₀ e₀ hcrash
  split at hbetween
  · cases hbetween
  rename_i s₁ e₁ htick
  split at hbetween
  · cases hbetween
  rename_i s₂' e₂ hcall
  cases hbetween
  refine ⟨s, s', es, ⟨⟨tr, Machine.Run.exec
    (fun s tr l h => (unclaimed_of_test s tr l h).1) ls .init hrun⟩, hmid, hthreshold,
    hretries, s₀, e₀, s₁, [e₁], s₂, e₂, hcrash, ?_, hcall, ?_⟩, hp⟩
  · have hpass : ((machine size mapping start).startingAt s₀).Run (fun _ _ l => calm l) s₁
        ([] ++ [e₁]) :=
      .step (.tick d) .init trivial htick
    exact hpass
  · exact Machine.Run.exec (readsLate_of_test 0 (s.clock + threshold))
      (List.replicate n (.reader 0 .run)) .init hread

/-- The call that the examples make. -/
def lateCall : ReadCall 1 := ⟨some 5, 64, oneByte 0⟩

/-- The creator dies in its second write, and the reader reports it. -/
theorem reported_iff_secondWrite : ∃ mapping s s' es, createMapping 1 kFlagLatest = .ok mapping ∧
    ReadAfterDeath mapping 1 0 0 5 lateCall s s' es ∧ results 0 es = [.writerDead] ∧
    s.mem.control.headReserve ≠ 0 := by
  obtain ⟨mapping, hmap⟩ : ∃ mapping, createMapping 1 kFlagLatest = .ok mapping := ⟨_, rfl⟩
  obtain ⟨s, s', es, hread, htest⟩ := exists_readAfterDeath mapping 1 5 10 131 lateCall rfl le_rfl
    ((completeWrite (oneByte 1) ++ beginWrite (oneByte 2)).map (.writer 0))
    (fun _ es => decide (results 0 es = [.writerDead])) (by cases hmap; decide +kernel)
  have hdead : results 0 es = [.writerDead] := of_decide_eq_true htest
  refine ⟨mapping, s, s', es, hmap, hread, hdead, ?_⟩
  exact ((reported_iff hmap hread).1 .writerDead (by rw [hdead]; simp)).mp rfl

/-- The creator dies in its first write. The reader returns `kContended`, however late it is. -/
theorem unreported : ∃ mapping s s' es, createMapping 1 kFlagLatest = .ok mapping ∧
    ReadAfterDeath mapping 1 0 0 5 lateCall s s' es ∧ results 0 es = [.contended] := by
  obtain ⟨mapping, hmap⟩ : ∃ mapping, createMapping 1 kFlagLatest = .ok mapping := ⟨_, rfl⟩
  obtain ⟨s, s', es, hread, htest⟩ := exists_readAfterDeath mapping 1 5 10 132 lateCall rfl le_rfl
    ((beginWrite (oneByte 2)).map (.writer 0)) (fun _ es => decide (results 0 es = [.contended]))
    (by cases hmap; decide +kernel)
  exact ⟨mapping, s, s', es, hmap, hread, of_decide_eq_true htest⟩

end LfRing.Latest

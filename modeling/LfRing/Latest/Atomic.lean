import LfRing.Library.Atomic
import LfRing.Latest.Recovery
import LfRing.Latest.Subscriber

/-!
# `SharedLatest` is an atomic register

What `SharedLatest<T>` is for: a register that holds the value last written, which any number of
readers read. `slot` says that of one call at a time, with what `claim` does to the register when it
recovers it: the value is gone, and nothing has been written since.

`atomic_register` shows that the calls of all processes and readers look as if each was made at one
moment between its call and its return. A write takes effect when it makes the sequence even, before
it has stored its heartbeat and woken anybody, and so the write of a process that dies behind that
store has been made. A recovery takes effect when it resets the sequence, and a read at its last
load of the sequence.

The premises are those under which reads are whole: `orderly`, and that no reset falls between the
two loads of a read that validates. `torn` is a run that meets only the first.
-/

namespace LfRing.Latest

variable {size : ℕ}

/-! ## The register that the code implements -/

/-- The parties: a process as a writer, and a reader. -/
inductive Party
  /-- A process as a writer. -/
  | writer (i : ℕ)
  /-- A reader. -/
  | reader (i : ℕ)
deriving DecidableEq, Repr

/-- The calls. Whether `claim` succeeds depends on more than the register, so its threshold is left
out. -/
inductive SlotOp (size : ℕ)
  /-- `write` or `write_and_notify`. -/
  | write (v : Payload size)
  /-- `try_read`. -/
  | read (c : ReadCall size)
  /-- `claim`. -/
  | claim

/-- What they return. -/
inductive SlotResult
  /-- A write has returned. -/
  | written
  /-- `try_read` has returned, with what it leaves in `out`. -/
  | read (res : ReadResult) (out : List UInt8)
  /-- `claim` has thrown. -/
  | refused
  /-- `claim` has returned `kResumed`. -/
  | resumed
  /-- `claim` has returned `kRecovered`. -/
  | recovered

/-- What the calls do to the value, and to the number of writes since there was none. -/
inductive SlotEffect : Past → SlotOp size → SlotResult → Past → Prop
  /-- A write replaces the value. -/
  | write {p : Past} (v : Payload size) : SlotEffect p (.write v) .written ⟨v.1, p.commits + 1⟩
  /-- A read that succeeds returns the value. -/
  | success {p : Past} (c : ReadCall size) : SlotEffect p (.read c) (.read .success p.content) p
  /-- A read returns `kEmpty` only if nothing was written, and leaves `out` as it was. -/
  | empty {p : Past} (c : ReadCall size) (h : p.commits = 0) :
    SlotEffect p (.read c) (.read .empty c.out.1) p
  /-- A read that gives up may leave anything in `out`. -/
  | failed {p : Past} (c : ReadCall size) (res : ReadResult) (out : List UInt8)
    (h : res = .contended ∨ res = .writerDead) : SlotEffect p (.read c) (.read res out) p
  /-- A claim that throws changes nothing. -/
  | refused {p : Past} : SlotEffect p .claim .refused p
  /-- A claim that resumes changes nothing. -/
  | resumed {p : Past} : SlotEffect p .claim .resumed p
  /-- A claim that recovers clears the register. -/
  | recovered {p : Past} : SlotEffect p .claim .recovered ⟨zeroFill size, 0⟩

/-- The register, with nothing written at the start. -/
def slot (size : ℕ) : AtomicObject Past (SlotOp size) SlotResult where
  init := ⟨zeroFill size, 0⟩
  effect := SlotEffect

/-- What a process sees of its step. -/
def writerActions (i : ℕ) :
    WriterLabel size → WriterEvent size → List (Action Party (SlotOp size) SlotResult)
  | .claim _, _ => [.invoke (.writer i) .claim]
  | .write v _, _ => [.invoke (.writer i) (.write v)]
  | .crash, _ => [.die (.writer i)]
  | .run, .refused => [.respond (.writer i) .refused]
  | .run, .resumed => [.respond (.writer i) .resumed]
  | .run, .recovered => [.respond (.writer i) .recovered]
  | .run, .written => [.respond (.writer i) .written]
  | .run, _ => []

/-- What a reader sees of its step. -/
def readerActions (i : ℕ) :
    ReadLabel size → ReadEvent → List (Action Party (SlotOp size) SlotResult)
  | .call c, _ => [.invoke (.reader i) (.read c)]
  | .run, .returned res out => [.respond (.reader i) (.read res out)]
  | .run, _ => []

/-- What the parties see of a step. -/
def actions : Label size → Event size → List (Action Party (SlotOp size) SlotResult)
  | .writer i l, .writer _ e => writerActions i l e
  | .reader i l, .reader _ e => readerActions i l e
  | _, _ => []

/-! ## The state of the register -/

/-- The call that a process is in. -/
def WriterPc.pending : WriterPc size → Pending (SlotOp size) SlotResult
  | gone => .none
  | claimSequence _ => .invoked .claim
  | resumeClock => .invoked .claim
  | resumeHeartbeat _ => .invoked .claim
  | claimHeartbeat _ => .invoked .claim
  | claimClock _ _ => .invoked .claim
  | claimExchange _ _ => .invoked .claim
  | clear _ => .invoked .claim
  | reset => .invoked .claim
  | recoverNotify => .effected .recovered
  | recoverWake => .effected .recovered
  | idle => .none
  | load v _ => .invoked (.write v)
  | begin v _ _ => .invoked (.write v)
  | copy v _ _ _ => .invoked (.write v)
  | commit v _ _ => .invoked (.write v)
  | stamp _ => .effected .written
  | heartbeat _ _ => .effected .written
  | announce => .effected .written
  | wake => .effected .written

/-- The call that a reader is in. It takes effect when it returns. -/
def ReadPc.pending : ReadPc size → Pending (SlotOp size) SlotResult
  | idle => .none
  | initial c => .invoked (.read c)
  | loop c _ _ => .invoked (.read c)
  | loadS1 c _ _ => .invoked (.read c)
  | loadHeartbeat c _ _ _ => .invoked (.read c)
  | readClock c _ _ _ _ => .invoked (.read c)
  | copy c _ _ _ _ => .invoked (.read c)
  | loadS2 c _ _ _ => .invoked (.read c)

/-- The calls that the parties are in. -/
def State.pending (s : State size) : Party → Pending (SlotOp size) SlotResult
  | .writer i => (s.writers i).pending
  | .reader i => (s.readers i).pending

/-- The state of the register, behind the events so far. -/
def abstraction (s : State size) (tr : List (Event size)) :
    AtomicState Party Past (SlotOp size) SlotResult :=
  ⟨s.pending, past tr⟩

/-- A `claim` that clears the ring has not taken effect. -/
@[simp] theorem WriterPc.pending_clearing (cap addr : ℕ) :
    (clearing cap addr : WriterPc size).pending = .invoked .claim :=
  clearing_ind (P := fun pc => pc.pending = .invoked .claim) (fun _ => rfl) rfl cap addr

/-- A `write` that copies its value has not taken effect. -/
@[simp] theorem WriterPc.pending_copying (v : Payload size) (s i : ℕ) (notify : Bool) :
    (copying v s i notify).pending = .invoked (.write v) :=
  copying_ind (P := fun pc => pc.pending = .invoked (.write v)) (fun _ => rfl) rfl i

/-- A `try_read` that copies the slot has not taken effect. -/
@[simp] theorem ReadPc.pending_copying (c : ReadCall size) (i s1 j : ℕ) (out : List UInt8) :
    (copying c i s1 j out).pending = .invoked (.read c) :=
  copying_ind (P := fun pc => pc.pending = .invoked (.read c)) (fun _ => rfl) rfl j

/-- A `try_read` that has just been called has not taken effect. -/
@[simp] theorem ReadPc.pending_enter (c : ReadCall size) :
    (enter c).pending = .invoked (.read c) := by
  unfold enter
  split <;> rfl

/-- A `try_read` on its way to the next attempt has not taken effect. -/
@[simp] theorem ReadPc.pending_spin (c : ReadCall size) (i : ℕ) (out : List UInt8) :
    (spin c i out).pending = .invoked (.read c) :=
  spin_ind (P := fun pc => pc.pending = .invoked (.read c)) (fun _ => rfl) rfl

/-- A `try_read` that has loaded `s1` has not taken effect, whatever it has found there. -/
@[simp] theorem ReadPc.pending_examine (c : ReadCall size) (i s1 : ℕ) (out : List UInt8) :
    (examine c i s1 out).pending = .invoked (.read c) := by
  unfold examine
  split_ifs
  · exact pending_copying c i s1 0 out
  · exact pending_spin c i out

/-- The step of a process changes its own call. -/
theorem pending_writer (s : State size) (m : Shared) (i : ℕ) (pc : WriterPc size) :
    State.pending { s with mem := m, writers := Function.update s.writers i pc } =
      Function.update s.pending (.writer i) pc.pending := by
  funext p
  cases p with
  | writer j =>
    by_cases hj : j = i
    · subst hj
      show (Function.update s.writers j pc j).pending = _
      rw [Function.update_self, Function.update_self]
    · show (Function.update s.writers i pc j).pending = _
      rw [Function.update_of_ne hj, Function.update_of_ne (by simpa using hj)]
      rfl
  | reader j =>
    rw [Function.update_of_ne (by simp)]
    rfl

/-- The step of a reader changes its own call. -/
theorem pending_reader (s : State size) (i : ℕ) (pc : ReadPc size) :
    State.pending { s with readers := Function.update s.readers i pc } =
      Function.update s.pending (.reader i) pc.pending := by
  funext p
  cases p with
  | writer j =>
    rw [Function.update_of_ne (by simp)]
    rfl
  | reader j =>
    by_cases hj : j = i
    · subst hj
      show (Function.update s.readers j pc j).pending = _
      rw [Function.update_self, Function.update_self]
    · show (Function.update s.readers i pc j).pending = _
      rw [Function.update_of_ne hj, Function.update_of_ne (by simpa using hj)]
      rfl

/-! ## Every step is a step of the register -/

section Steps

variable {cap i : ℕ} {s : State size} {tr : List (Event size)}

/-- A step of a process, as the register sees it. -/
theorem writer_moves {l : WriterLabel size} {eff : Effect} {pc : WriterPc size}
    {e : WriterEvent size} (hs : (s.writers i).step cap s.mem (u64 s.clock) l = some (eff, pc, e)) :
    (slot size).Moves (abstraction s tr) (writerActions i l e)
      (abstraction { s with mem := eff.apply s.mem, writers := Function.update s.writers i pc }
        (tr ++ [.writer i e])) := by
  unfold abstraction
  rw [pending_writer s (eff.apply s.mem) i pc, past_append]
  have hp : s.pending (.writer i) = (s.writers i).pending := rfl
  generalize s.writers i = pc₀ at hs hp
  -- A step inside a call that changes neither the register nor how far the call is.
  have hinside : (past tr).next size (.writer i e) = past tr → pc.pending = pc₀.pending →
      writerActions i l e = [] →
      (slot size).Moves ⟨s.pending, past tr⟩ (writerActions i l e)
        ⟨Function.update s.pending (.writer i) pc.pending, (past tr).next size (.writer i e)⟩ := by
    intro hpast hsame hact
    rw [hact, hpast, hsame]
    exact .inside hp
  cases l with
  | crash =>
    have hcrash : pc₀.step cap s.mem (u64 s.clock) .crash = some (.none, .gone, .crashed) := by
      cases pc₀ <;> rfl
    rw [hcrash] at hs
    cases hs
    exact .die (Party.writer i) .refl
  | claim threshold =>
    cases pc₀ with
    | gone =>
      cases hs
      exact .invoke (Party.writer i) SlotOp.claim .refl hp
    | _ => cases hs
  | write v notify =>
    cases pc₀ with
    | idle =>
      cases hs
      exact .invoke (Party.writer i) (SlotOp.write v) .refl hp
    | _ => cases hs
  | run =>
    cases WriterPc.step_cases hs with
    | crash => exact absurd (WriterPc.label_of_crashed hs) (by rintro ⟨⟩)
    | claim threshold => cases hs
    | write v notify => cases hs
    | resumed t => exact .effect_respond hp SlotEffect.resumed
    | fresh threshold oldHb h => exact .effect_respond hp SlotEffect.refused
    | lost oldHb t h => exact .effect_respond hp SlotEffect.refused
    | won oldHb t h => exact hinside rfl (WriterPc.pending_clearing cap 0) rfl
    | clear addr => exact hinside rfl (WriterPc.pending_clearing cap (addr + 1)) rfl
    | reset =>
      exact .effect (Party.writer i) SlotOp.claim SlotResult.recovered _ .refl hp
        SlotEffect.recovered
    | recovered => exact .respond (Party.writer i) SlotResult.recovered .refl hp
    | begin v q notify => exact hinside rfl (WriterPc.pending_copying v q 0 notify) rfl
    | copy v q k notify => exact hinside rfl (WriterPc.pending_copying v q (k + 1) notify) rfl
    | commit v q notify =>
      exact .effect (Party.writer i) (SlotOp.write v) SlotResult.written _ .refl hp
        (SlotEffect.write v)
    | heartbeat t notify =>
      cases notify with
      | true => exact hinside rfl rfl rfl
      | false => exact .respond (Party.writer i) SlotResult.written .refl hp
    | wake => exact .respond (Party.writer i) SlotResult.written .refl hp
    | _ => exact hinside rfl rfl rfl

/-- A step of a reader, as the register sees it. -/
theorem Inv.reader_moves (h : Inv cap s tr) {l : ReadLabel size} {pc : ReadPc size} {e : ReadEvent}
    (hread : unresetReads s tr (.reader i l))
    (hs : (s.readers i).step s.mem (u64 s.clock) l = some (pc, e)) :
    (slot size).Moves (abstraction s tr) (readerActions i l e)
      (abstraction { s with readers := Function.update s.readers i pc } (tr ++ [.reader i e])) := by
  have hpast : past (tr ++ [.reader i e]) = past tr := by
    rw [past_append]
    rfl
  unfold abstraction
  rw [pending_reader s i pc, hpast]
  have hp : s.pending (.reader i) = (s.readers i).pending := rfl
  generalize hpc : s.readers i = pc₀ at hs hp
  have hinside : pc.pending = pc₀.pending → readerActions i l e = [] →
      (slot size).Moves ⟨s.pending, past tr⟩ (readerActions i l e)
        ⟨Function.update s.pending (.reader i) pc.pending, past tr⟩ := by
    intro hsame hact
    rw [hact, hsame]
    exact .inside hp
  cases l with
  | call c =>
    cases pc₀ with
    | idle =>
      cases hs
      rw [ReadPc.pending_enter]
      exact .invoke (Party.reader i) (SlotOp.read c) .refl hp
    | _ => cases hs
  | run =>
    cases ReadPc.step_cases hs with
    | call c => cases hs
    | empty c hzero =>
      -- A sequence of zero counts no write, and there is none under way.
      have hnone : (past tr).commits = 0 := by
        have hseq := h.sequence
        omega
      exact .effect_respond hp (SlotEffect.empty c hnone)
    | contended c k out hk => exact .effect_respond hp (SlotEffect.failed c _ out (Or.inl rfl))
    | dead c threshold k hb out hold =>
      exact .effect_respond hp (SlotEffect.failed c _ out (Or.inr rfl))
    | success c k s1 out hs1 =>
      obtain ⟨rfl, -⟩ := h.validated hpc hs1.symm (hread i c k s1 out rfl hpc hs1.symm)
      exact .effect_respond hp (SlotEffect.success c)
    | loadS1 c k out => exact hinside (ReadPc.pending_examine c k _ out) rfl
    | copy c k s1 j out => exact hinside (ReadPc.pending_copying c k s1 (j + 1) _) rfl
    | _ => exact hinside rfl rfl

end Steps

end LfRing.Latest

import LfRing.Ring.Outcome

/-!
# Rings that agree call by call

The same calls on two rings, each run to completion before the next.

`SharedRingBuffer` and `SharedRingBufferMPMC` push alike, and pop in different ways: from different
head counters, and with checks in one that the other does not make. What is published is a stream of
whole chunks, so these checks always pass, and the two rings do the same to the same memory
(`agree_mpsc_mpmc`).

`SharedRingBufferSPSC` pops as `SharedRingBuffer` does. Its push places a filler and the record one
after the other. Where both are placed, that comes to the same memory as placing them together. But
at an end of the ring that is too short for a header, it publishes the filler before it knows that
the record has room. A push that is refused then has moved the tail, and once the consumer has moved
over the filler there is more room than in the other ring (`accepts_more`). As long as every push
finds room there for the filler and the record together or for neither, the two agree
(`agree_mpsc_spsc`).
-/

namespace LfRing

/-! ## Two rings, call by call -/

/-- The call that an event is about. -/
def CallEvent.call : CallEvent → Call
  | pushed a _ => .push a
  | popped c _ => .pop c

/-- What the caller sees of a call. -/
inductive Observed
  /-- A push and its boolean. -/
  | pushed (a : PushArgs) (accepted : Bool)
  /-- A pop and its result. -/
  | popped (c : PopCall) (res : Option Popped)

/-- Whether the call has returned true. -/
def Observed.accepted : Observed → Bool
  | pushed _ accepted => accepted
  | popped _ res => res.isSome

/-- What the caller sees of an event. -/
def CallEvent.observed : CallEvent → Observed
  | pushed a out => .pushed a out.accepted
  | popped c res => .popped c res

/-- The event of a call is about that call. -/
theorem CallRing.call_of_step {R : CallRing} {m m' : Shared} {l : CallLabel} {e : CallEvent}
    (h : R.step m l = some (m', e)) : e.call = l.call := by
  obtain ⟨call, choices⟩ := l
  cases call with
  | push a =>
    obtain ⟨x, -, heq⟩ := Option.map_eq_some_iff.mp h
    cases heq
    rfl
  | pop c =>
    obtain ⟨x, -, heq⟩ := Option.map_eq_some_iff.mp h
    cases heq
    rfl

/-- Two rings keep a relation, and show the same, along runs with the same calls, if they do so at
every call. `Q` is a bound that the runs meet, and all shorter ones with them. -/
theorem CallRing.agree {R₁ R₂ : CallRing} {file₁ file₂ : Mapping}
    {ok : Shared → List CallEvent → CallLabel → Prop} (Q : List CallEvent → List CallEvent → Prop)
    (hQ : ∀ tr₁ e₁ tr₂ e₂, Q (tr₁ ++ [e₁]) (tr₂ ++ [e₂]) → Q tr₁ tr₂)
    (Rel : Shared → List CallEvent → Shared → List CallEvent → Prop)
    (h0 : Rel file₁.shared [] file₂.shared [])
    (hstep : ∀ m₁ tr₁ m₂ tr₂ call choices₁ choices₂ m₁' e₁ m₂' e₂, Rel m₁ tr₁ m₂ tr₂ →
      ok m₁ tr₁ ⟨call, choices₁⟩ → R₁.step m₁ ⟨call, choices₁⟩ = some (m₁', e₁) →
      R₂.step m₂ ⟨call, choices₂⟩ = some (m₂', e₂) → Q (tr₁ ++ [e₁]) (tr₂ ++ [e₂]) →
      e₁.observed = e₂.observed ∧ Rel m₁' (tr₁ ++ [e₁]) m₂' (tr₂ ++ [e₂]))
    {m₁ m₂ : Shared} {tr₁ tr₂ : List CallEvent} (h₁ : (R₁.machine file₁).Run ok m₁ tr₁)
    (h₂ : (R₂.machine file₂).Reaches m₂ tr₂)
    (hcalls : tr₁.map CallEvent.call = tr₂.map CallEvent.call) (hlt : Q tr₁ tr₂) :
    tr₁.map CallEvent.observed = tr₂.map CallEvent.observed ∧ Rel m₁ tr₁ m₂ tr₂ := by
  induction h₁ generalizing m₂ tr₂ with
  | init =>
    cases h₂ with
    | init => exact ⟨rfl, h0⟩
    | step l _ _ _ => simp at hcalls
  | step l₁ _ hok hs₁ ih =>
    cases h₂ with
    | init => simp at hcalls
    | step l₂ hrun₂ _ hs₂ =>
      rw [List.map_append, List.map_append] at hcalls
      obtain ⟨hbefore, hlast⟩ := List.append_inj' hcalls rfl
      obtain ⟨hobserved, hrel⟩ := ih hrun₂ hbefore (hQ _ _ _ _ hlt)
      have hcall : l₁.call = l₂.call := by
        rw [← CallRing.call_of_step hs₁, ← CallRing.call_of_step hs₂]
        exact List.singleton_inj.mp hlast
      obtain ⟨call, choices₁⟩ := l₁
      obtain ⟨call₂, choices₂⟩ := l₂
      obtain rfl : call = call₂ := hcall
      obtain ⟨hsame, hrel'⟩ := hstep _ _ _ _ call choices₁ choices₂ _ _ _ _ hrel hok hs₁ hs₂ hlt
      refine ⟨?_, hrel'⟩
      rw [List.map_append, List.map_append, hobserved, List.map_singleton,
        List.map_singleton, hsame]

/-- Labels that are all enabled, and pass the guard's test, are a run with their calls. -/
theorem CallRing.exists_run (R : CallRing) (file : Mapping)
    {ok : Shared → List CallEvent → CallLabel → Prop}
    (g : Shared → List CallEvent → CallLabel → Bool) (hg : ∀ m tr l, g m tr l = true → ok m tr l)
    (ls : List CallLabel) (p : Shared → List CallEvent → Bool)
    (h : (((R.machine file).exec g file.shared [] ls).any fun x => p x.1 x.2) = true) :
    ∃ m tr, (R.machine file).Run ok m tr ∧ tr.map CallEvent.call = ls.map CallLabel.call ∧
      p m tr = true := by
  have hcalls : ∀ (ls : List CallLabel) m₀ tr₀ m tr, (R.machine file).exec g m₀ tr₀ ls =
      some (m, tr) → tr.map CallEvent.call = tr₀.map CallEvent.call ++ ls.map CallLabel.call := by
    intro ls
    induction ls with
    | nil =>
      intro m₀ tr₀ m tr hex
      cases hex
      simp
    | cons l ls ih =>
      intro m₀ tr₀ m tr hex
      simp only [Machine.exec] at hex
      split_ifs at hex
      split at hex
      · cases hex
      · rename_i m₁ e hs
        rw [ih _ _ _ _ hex, List.map_append, List.map_singleton, CallRing.call_of_step hs,
          List.append_assoc]
        rfl
  obtain ⟨⟨m, tr⟩, hex, hp⟩ := (Option.any_eq_true _ _).mp h
  exact ⟨m, tr, Machine.Run.exec hg ls .init hex, hcalls ls _ _ _ _ hex, hp⟩

/-! ## What a pass of `try_pop` finds in a stream -/

section Passes

variable {cap : ℕ} {m : Shared} {ahead : List Chunk}

/-- Where the ring is a stream from the head to the tail, a pass of `try_pop_internal` finds nothing
ahead, a filler, or a record that passes both checks. -/
theorem popPass_stream (hs : Stream cap m.ring m.control.headPublish ahead m.control.tailPublish)
    (hlt : m.control.tailPublish < 2^64) (c : PopCall) :
    (ahead = [] ∧ popPass cap c m = .refuse) ∨
    (∃ d rest, ahead = d :: rest ∧ popPass cap c m = .skip (m.control.headPublish + d.length)) ∨
    ∃ r rest, ahead = .record r :: rest ∧
      popPass cap c m = .take (m.control.headPublish + recordSize r.payload.length)
        (readRecord cap m.ring c m.control.headPublish r.payload.length) := by
  cases ahead with
  | nil =>
    have hempty : m.control.headPublish = m.control.tailPublish := hs
    exact Or.inl ⟨rfl, by simp only [popPass, hempty, if_true]⟩
  | cons d rest =>
    obtain ⟨hfit, hat, hrest⟩ := hs
    have hle := hrest.le
    have hpos := hfit.length_pos
    have hne : m.control.headPublish ≠ m.control.tailPublish := by omega
    refine Or.inr ?_
    by_cases hshort : cap - m.control.headPublish % cap < 16
    · obtain ⟨-, hlen⟩ := hfit.of_short hshort
      refine Or.inl ⟨d, rest, rfl, ?_⟩
      simp only [popPass, hne, hshort, sizeofRecordHeader, if_true, if_false]
      rw [← hlen, u64_of_lt (by omega)]
    by_cases hflag : m.ring.load (m.control.headPublish % cap + 6) 2 &&& kWrapFlag = 0
    · obtain ⟨r, rfl⟩ := hat.of_not_wrapFlag hfit (not_lt.mp hshort) hflag
      have hsize := hat.record_size hfit
      have hend := hfit.add_length_le
      have havailable : sub64 m.control.tailPublish m.control.headPublish =
          m.control.tailPublish - m.control.headPublish := sub64_of_le (by omega) hlt
      simp only [Chunk.length] at hle hend
      refine Or.inr ⟨r, rest, rfl, ?_⟩
      simp only [popPass, hne, hshort, hflag, hsize, havailable, sizeofRecordHeader,
        if_false, ne_eq, not_true_eq_false]
      rw [if_neg (by omega), if_neg (by omega), u64_of_lt (by omega)]
    · obtain ⟨-, hlen⟩ := hat.of_wrapFlag hfit (not_lt.mp hshort) hflag
      refine Or.inl ⟨d, rest, rfl, ?_⟩
      simp only [popPass, hne, hshort, hflag, sizeofRecordHeader, if_true, if_false, ne_eq,
        not_false_eq_true]
      rw [← hlen, u64_of_lt (by omega)]

/-- There the further checks of `SharedRingBufferMPMC::try_pop` all pass, and it decides the
same. -/
theorem Mpmc.popPass_eq (hs : Stream cap m.ring m.control.headPublish ahead m.control.tailPublish)
    (hlt : m.control.tailPublish < 2^64) (hres : m.control.headReserve = m.control.headPublish)
    (c : PopCall) : popPass cap c m = LfRing.popPass cap c m := by
  unfold popPass LfRing.popPass
  rw [hres]
  dsimp only
  by_cases hempty : m.control.headPublish = m.control.tailPublish
  · rw [if_pos hempty, if_pos hempty]
  rw [if_neg hempty, if_neg hempty]
  obtain ⟨d, rest, rfl⟩ := hs.exists_cons hempty
  obtain ⟨hfit, hat, hrest⟩ := hs
  have hle := hrest.le
  have havailable : sub64 m.control.tailPublish m.control.headPublish =
      m.control.tailPublish - m.control.headPublish := sub64_of_le (by omega) hlt
  by_cases hshort : cap - m.control.headPublish % cap < sizeofRecordHeader
  · obtain ⟨-, hlen⟩ := hfit.of_short hshort
    rw [if_pos hshort, if_pos hshort, if_neg (by omega)]
  have hroom : 16 ≤ cap - m.control.headPublish % cap := not_lt.mp hshort
  have hheader : ¬ sub64 m.control.tailPublish m.control.headPublish < sizeofRecordHeader := by
    -- A chunk that starts where a header has room is at least that long.
    have hlen : 16 ≤ d.length := by
      cases d with
      | skip len =>
        obtain ⟨h1, -, h2⟩ := hfit
        omega
      | wrap len => exact hfit.2
      | record r => exact le_trans (Nat.le_add_right _ _) (le_recordSize hfit.2.1)
    unfold sizeofRecordHeader
    omega
  rw [if_neg hshort, if_neg hshort, if_neg hheader]
  by_cases hflag : m.ring.load (m.control.headPublish % cap + 6) 2 &&& kWrapFlag ≠ 0
  · obtain ⟨-, hlen⟩ := hat.of_wrapFlag hfit hroom hflag
    rw [if_pos hflag, if_pos hflag, if_neg (by omega)]
  · rw [if_neg hflag, if_neg hflag]

/-- So the whole loop does the same. -/
theorem Mpmc.pops_iff {c : PopCall} {m' : Shared} {res : Option Popped}
    (hs : Stream cap m.ring m.control.headPublish ahead m.control.tailPublish)
    (hlt : m.control.tailPublish < 2^64) (hres : m.control.headReserve = m.control.headPublish)
    (h : Pops (popPass cap c) m m' res) : Pops (LfRing.popPass cap c) m m' res := by
  induction h generalizing ahead with
  | refuse h => exact .refuse ((Mpmc.popPass_eq hs hlt hres c).symm.trans h)
  | skip h _ ih =>
    rw [Mpmc.popPass_eq hs hlt hres c] at h
    refine .skip h ?_
    rcases popPass_stream hs hlt c with ⟨-, hpass⟩ | ⟨d, rest, rfl, hpass⟩ | ⟨r, rest, rfl, hpass⟩
    · cases h.symm.trans hpass
    · cases h.symm.trans hpass
      exact ih hs.2.2 hlt rfl
    · cases h.symm.trans hpass
  | take h => exact .take ((Mpmc.popPass_eq hs hlt hres c).symm.trans h)

end Passes

/-! ## `SharedRingBuffer` and `SharedRingBufferMPMC` -/

/-- What both rings have between two calls: the same memory, after the same events. -/
def Together (cap : ℕ) (m₁ : Shared) (tr₁ : List CallEvent) (m₂ : Shared) (tr₂ : List CallEvent) :
    Prop :=
  m₁ = m₂ ∧ tr₁ = tr₂ ∧ ∃ q, Mpmc.Holds cap m₂ (takenBytes tr₂) q ∧ NonePending m₂

/-- Every call keeps them together. -/
theorem Together.step {cap : ℕ} {m₁ m₂ m₁' m₂' : Shared} {tr₁ tr₂ : List CallEvent} {call : Call}
    {choices₁ choices₂ : List Bool} {e₁ e₂ : CallEvent} (h : Together cap m₁ tr₁ m₂ tr₂)
    (hs₁ : (Mpsc.calls cap).step m₁ ⟨call, choices₁⟩ = some (m₁', e₁))
    (hs₂ : (Mpmc.calls cap).step m₂ ⟨call, choices₂⟩ = some (m₂', e₂))
    (hlt : takenBytes (tr₁ ++ [e₁]) < 2^64) :
    e₁ = e₂ ∧ Together cap m₁' (tr₁ ++ [e₁]) m₂' (tr₂ ++ [e₂]) := by
  obtain ⟨rfl, rfl, hholds⟩ := h
  suffices hsame : m₁' = m₂' ∧ e₁ = e₂ by
    obtain ⟨rfl, rfl⟩ := hsame
    exact ⟨rfl, rfl, rfl, (Mpmc.calls_settled cap).step hholds hs₂ hlt⟩
  cases call with
  | push a =>
    obtain ⟨⟨n₁, out₁⟩, hpush₁, heq₁⟩ := Option.map_eq_some_iff.mp hs₁
    obtain ⟨⟨n₂, out₂⟩, hpush₂, heq₂⟩ := Option.map_eq_some_iff.mp hs₂
    have hsame := (pushOutcome_of_pushCall hpush₁).symm.trans (pushOutcome_of_pushCall hpush₂)
    cases hsame
    cases heq₁
    cases heq₂
    exact ⟨rfl, rfl⟩
  | pop c =>
    obtain ⟨⟨n₁, res₁⟩, hpop₁, heq₁⟩ := Option.map_eq_some_iff.mp hs₁
    obtain ⟨⟨n₂, res₂⟩, hpop₂, heq₂⟩ := Option.map_eq_some_iff.mp hs₂
    obtain ⟨q, ⟨⟨es, pending, ahead, hh, -, hs, -⟩, hres⟩, -⟩ := hholds
    obtain ⟨rfl, rfl⟩ := (pops_of_popCall hpop₁).unique
      (Mpmc.pops_iff hs hh.tailPublish_lt hres (Mpmc.pops_of_popCall hpop₂))
    cases heq₁
    cases heq₂
    exact ⟨rfl, rfl⟩

/-- Every next call returns in both. -/
theorem Together.returns {cap : ℕ} {m₁ m₂ : Shared} {tr₁ tr₂ : List CallEvent}
    (h : Together cap m₁ tr₁ m₂ tr₂) (call : Call) :
    (∃ choices x, (Mpsc.calls cap).step m₁ ⟨call, choices⟩ = some x) ∧
      ∃ choices x, (Mpmc.calls cap).step m₂ ⟨call, choices⟩ = some x := by
  obtain ⟨rfl, rfl, q, hq, hnone⟩ := h
  cases call with
  | push a =>
    obtain ⟨choices, m', out, hpush⟩ :
        ∃ choices m' out, pushCall cap m₁ a choices = some (m', out) := by
      by_cases hrej : a.rejected cap
      · exact ⟨[], m₁, _, pushCall_rejected hrej m₁⟩
      · exact pushCall_returns hnone hrej
    exact ⟨⟨choices, _, Option.map_eq_some_iff.mpr ⟨_, hpush, rfl⟩⟩,
      ⟨choices, _, Option.map_eq_some_iff.mpr ⟨_, hpush, rfl⟩⟩⟩
  | pop c =>
    obtain ⟨choices₁, m₁', res₁, hpop₁⟩ := (Mpsc.calls_fifo cap).pop_returns hq.1 c
    obtain ⟨choices₂, m₂', res₂, hpop₂⟩ := (Mpmc.calls_fifo cap).pop_returns hq c
    exact ⟨⟨choices₁, _, Option.map_eq_some_iff.mpr ⟨_, hpop₁, rfl⟩⟩,
      ⟨choices₂, _, Option.map_eq_some_iff.mpr ⟨_, hpop₂, rfl⟩⟩⟩

/-- `SharedRingBuffer` and `SharedRingBufferMPMC` agree call by call. For every capacity that
`create` accepts, after the same calls, each run to completion before the next, with however many
spurious failures, and with less than `2^64` bytes taken in all, both have returned the same at
every call, with payloads, types and sequence numbers, and have the same control block and ring. And
every next call returns in both. -/
theorem agree_mpsc_mpmc {capacityBytes : ℕ} {file₁ file₂ : Mapping}
    (hcreate₁ : createMapping capacityBytes kFlagMPSC = .ok file₁)
    (hcreate₂ : createMapping capacityBytes kFlagMPMC = .ok file₂) {m₁ m₂ : Shared}
    {tr₁ tr₂ : List CallEvent} (hrun₁ : ((Mpsc.calls file₁.capacity).machine file₁).Reaches m₁ tr₁)
    (hrun₂ : ((Mpmc.calls file₂.capacity).machine file₂).Reaches m₂ tr₂)
    (hcalls : tr₁.map CallEvent.call = tr₂.map CallEvent.call) (hlt : takenBytes tr₁ < 2^64) :
    tr₁ = tr₂ ∧ m₁ = m₂ ∧
      ∀ call, (∃ choices x, (Mpsc.calls file₁.capacity).step m₁ ⟨call, choices⟩ = some x) ∧
        ∃ choices x, (Mpmc.calls file₂.capacity).step m₂ ⟨call, choices⟩ = some x := by
  have hcap : file₂.capacity = file₁.capacity := by
    rw [(createMapping_fields hcreate₁).1, (createMapping_fields hcreate₂).1]
  rw [hcap] at hrun₂ ⊢
  have hfresh : Together file₁.capacity file₁.shared [] file₂.shared [] := by
    rw [createMapping_shared hcreate₁, createMapping_shared hcreate₂]
    exact ⟨rfl, rfl, [], (Mpmc.calls_settled _).fresh⟩
  have hbound : ∀ tr e, takenBytes (tr ++ [e]) < 2^64 → takenBytes tr < 2^64 := by
    intro tr e hb
    rw [takenBytes_append] at hb
    omega
  obtain ⟨-, htogether⟩ := CallRing.agree (fun tr _ => takenBytes tr < 2^64)
    (fun tr₁ e₁ _ _ hb => hbound tr₁ e₁ hb) (Together file₁.capacity) hfresh
    (fun m₁ tr₁ m₂ tr₂ call choices₁ choices₂ m₁' e₁ m₂' e₂ h _ hs₁ hs₂ hb => by
      obtain ⟨hevent, h'⟩ := h.step hs₁ hs₂ hb
      exact ⟨congrArg _ hevent, h'⟩) hrun₁ hrun₂ hcalls hlt
  exact ⟨htogether.2.1, htogether.1, htogether.returns⟩

/-- Two messages of eight bytes are pushed and popped, and then one of sixteen bytes, for which the
end of the ring is padded. The pops, with their sequence numbers, go as the lists say. -/
def acrossWrap (pops : List Bool × List Bool × List Bool) : List CallLabel :=
  [⟨.push (zeros 8), List.replicate 19 false⟩,
    ⟨.push (zeros 8), List.replicate 19 false⟩, ⟨.pop ⟨[], true⟩, pops.1⟩,
    ⟨.pop ⟨[], true⟩, pops.2.1⟩, ⟨.push (zeros 16), List.replicate 31 false⟩,
    ⟨.pop ⟨[], true⟩, pops.2.2⟩]

/-- The two rings on that, with a compare-exchange in `SharedRingBufferMPMC` that fails
spuriously. -/
theorem agree_mpsc_mpmc_acrossWrap : ∃ file₁ file₂ m₁ m₂ tr₁ tr₂,
    createMapping 64 kFlagMPSC = .ok file₁ ∧ createMapping 64 kFlagMPMC = .ok file₂ ∧
    ((Mpsc.calls file₁.capacity).machine file₁).Reaches m₁ tr₁ ∧
    ((Mpmc.calls file₂.capacity).machine file₂).Reaches m₂ tr₂ ∧ tr₁.length = 6 ∧
    m₁.control.tailPublish = 96 ∧ tr₁ = tr₂ ∧ m₁ = m₂ := by
  obtain ⟨file₁, hfile₁⟩ : ∃ file, createMapping 64 kFlagMPSC = .ok file := ⟨_, rfl⟩
  obtain ⟨file₂, hfile₂⟩ : ∃ file, createMapping 64 kFlagMPMC = .ok file := ⟨_, rfl⟩
  obtain ⟨m₁, tr₁, hrun₁, hcalls₁, htest₁⟩ :=
    CallRing.exists_run (Mpsc.calls file₁.capacity) file₁ (fun _ _ _ => true)
      (fun _ _ _ _ => trivial)
      (acrossWrap (List.replicate 16 false, List.replicate 16 false, List.replicate 29 false))
      (fun m tr => decide (tr.length = 6 ∧ m.control.tailPublish = 96 ∧ takenBytes tr < 2^64))
      (by cases hfile₁; decide +kernel)
  obtain ⟨m₂, tr₂, hrun₂, hcalls₂, -⟩ :=
    CallRing.exists_run (Mpmc.calls file₂.capacity) file₂ (fun _ _ _ => true)
      (fun _ _ _ _ => trivial)
      (acrossWrap (List.replicate 4 false ++ true :: List.replicate 17 false,
        List.replicate 17 false, List.replicate 31 false)) (fun _ _ => true)
      (by cases hfile₂; decide +kernel)
  obtain ⟨hlen, htail, hlt⟩ := of_decide_eq_true htest₁
  obtain ⟨hsame, hmem, -⟩ := agree_mpsc_mpmc hfile₁ hfile₂ hrun₁ hrun₂
    (hcalls₁.trans hcalls₂.symm) hlt
  exact ⟨file₁, file₂, m₁, m₂, tr₁, tr₂, hfile₁, hfile₂, hrun₁, hrun₂, hlen, htail, hsame, hmem⟩

/-! ## `SharedRingBuffer` and `SharedRingBufferSPSC` -/

/-- Where fewer bytes than a header has are left behind the tail, a push finds no room even for
these, or room for the record behind them as well. -/
def WholeOrNothing (cap : ℕ) (m : Shared) (a : PushArgs) : Prop :=
  sizeofRecordHeader ≤ cap - m.control.tailPublish % cap ∨
    cap < m.control.tailPublish - m.control.headPublish + (cap - m.control.tailPublish % cap) ∨
    m.control.tailPublish - m.control.headPublish + (cap - m.control.tailPublish % cap) +
    a.recordSize ≤ cap

/-- The condition is a comparison of numbers. -/
instance (cap : ℕ) (m : Shared) (a : PushArgs) : Decidable (WholeOrNothing cap m a) :=
  inferInstanceAs (Decidable (_ ∨ _ ∨ _))

namespace Spsc

variable {cap : ℕ} {a : PushArgs} {m : Shared}

/-- The header with no number yet, and the payload. -/
theorem applyAll_chunkStores_record (ha : a.Accepted cap) (tail : ℕ) (ring : Memory) :
    Store.applyAll (chunkStores cap tail (.record (record a 0))) ring =
      Store.applyAll (RecordHeader.stores ⟨a.size, a.type, 0, 0⟩ (tail % cap) ++
        payloadStores (tail % cap) a.payload) ring := by
  have hlen : (record a 0).payload.length = a.size := ha.length_payload
  rw [chunkStores, Store.applyAll_flatMap_bytewise, Chunk.stores, hlen]
  rfl

/-- A record placed at the tail is what a reservation without padding comes to. -/
theorem carriedOut_record (ha : a.Accepted cap) :
    carriedOut cap a m (.record (record a 0)) =
      (⟨a, m.control.tailPublish, 0, false⟩ : Reservation).carriedOut cap m := by
  have hlen : ∀ n, (Chunk.record (record a n)).length = a.recordSize := length_record ha
  simp only [carriedOut, settled, numbered, Shared.storeAll, Shared.publishTail, Effect.apply, hlen,
    Reservation.carriedOut, Reservation.numbered, Reservation.total, Nat.zero_add, Shared.mk.injEq,
    true_and]
  rw [numberStores, Store.applyAll_bytewise, applyAll_chunkStores_record ha]
  rfl

/-- A filler and then the record, placed one after the other, are what a reservation with padding
comes to. -/
theorem carriedOut_padded (ha : a.Accepted cap) {len : ℕ} {w : Bool} {c : Chunk}
    (hkind : (c = .skip len ∧ w = false) ∨ (c = .wrap len ∧ w = true ∧ 16 ≤ len))
    (hlen : len = cap - m.control.tailPublish % cap) (hpos : 0 < len)
    (hlt : m.control.tailPublish + len < 2^64) :
    carriedOut cap a (carriedOut cap a m c) (.record (record a 0)) =
      (⟨a, m.control.tailPublish, len, w⟩ : Reservation).carriedOut cap m := by
  have hcap : 0 < cap := by omega
  have hzero : (m.control.tailPublish + len) % cap = 0 := by
    rw [hlen]
    exact add_sub_mod_self hcap
  have htail : u64 (m.control.tailPublish + len) = m.control.tailPublish + len := u64_of_lt hlt
  rw [carriedOut_record ha]
  rcases hkind with ⟨rfl, rfl⟩ | ⟨rfl, rfl, hheader⟩
  · have hstores : chunkStores cap m.control.tailPublish (.skip len) = [] := rfl
    simp only [carriedOut, settled, hstores, Shared.storeAll, Store.applyAll_nil,
      Shared.publishTail, Effect.apply, Chunk.length, htail, Reservation.carriedOut,
      Reservation.numbered, Reservation.total, Reservation.stores, Reservation.sequenceStore,
      Reservation.recordPos, hpos, hzero, Nat.lt_irrefl, if_true, if_false, Bool.false_eq_true,
      false_and, Nat.zero_add, Nat.add_assoc]
  · have hstores : chunkStores cap m.control.tailPublish (.wrap len) =
        (RecordHeader.stores ⟨0, 0, kWrapFlag, 0⟩ (m.control.tailPublish % cap)).flatMap
          Store.bytewise := rfl
    have hheader' : sizeofRecordHeader ≤ len := hheader
    simp only [carriedOut, settled, hstores, Shared.storeAll, Store.applyAll_flatMap_bytewise,
      Shared.publishTail, Effect.apply, Chunk.length, htail, Reservation.carriedOut,
      Reservation.numbered, Reservation.total, Reservation.stores, Reservation.sequenceStore,
      Reservation.recordPos, hpos, hzero, hheader', Nat.lt_irrefl, if_true, if_false,
      Bool.false_eq_true, false_and, and_self, Nat.zero_add, Nat.add_assoc, Store.applyAll_append,
      Store.applyAll_nil]

section Inversion

variable {m' : Shared} {out : PushResult}

/-- A pass that finds no room ends the call. -/
theorem Pushes.of_full (h : Pushes cap a m m' out)
    (hplace : place cap a m.control.headPublish m.control.tailPublish = none) :
    m' = m ∧ out = ⟨false, 0⟩ := by
  cases h with
  | full h' => exact ⟨rfl, rfl⟩
  | filler h' hfiller hrest => cases hplace.symm.trans h'
  | record h' => cases hplace.symm.trans h'

/-- A pass that places the record ends the call. -/
theorem Pushes.of_record (h : Pushes cap a m m' out)
    (hplace : place cap a m.control.headPublish m.control.tailPublish =
      some (.record (Spsc.record a 0))) :
    m' = carriedOut cap a m (.record (Spsc.record a 0)) ∧ out.accepted = true := by
  cases h with
  | full h' => cases hplace.symm.trans h'
  | filler h' hfiller hrest =>
    cases hplace.symm.trans h'
    cases hfiller
  | record h' => exact ⟨rfl, rfl⟩

/-- A pass that places a filler is followed by another one. -/
theorem Pushes.of_filler (h : Pushes cap a m m' out) {c : Chunk}
    (hplace : place cap a m.control.headPublish m.control.tailPublish = some c)
    (hnone : c.record? = none) :
    ∃ out', Pushes cap a (carriedOut cap a m c) m' out' ∧
      out = ⟨out'.accepted, c.length + out'.bytes⟩ := by
  cases h with
  | full h' => cases hplace.symm.trans h'
  | filler h' hfiller hrest =>
    cases hplace.symm.trans h'
    exact ⟨_, hrest, rfl⟩
  | record h' =>
    cases hplace.symm.trans h'
    cases hnone

end Inversion

section Pass

variable {head tail : ℕ}

/-- Behind a filler the record is placed at the start of the ring, if there is room for both. -/
theorem place_start {len : ℕ} (ha : a.Accepted cap) (hle : head ≤ tail)
    (hlen : len = cap - tail % cap) (hlt : tail + len < 2^64)
    (hroom : ¬ cap < u64 (tail - head + len + a.recordSize)) (hused : tail + len - head ≤ cap) :
    place cap a head (u64 (tail + len)) = some (.record (record a 0)) := by
  have hsize := a.le_recordSize
  have hcap := ha.recordSize_le
  have hzero : (tail + len) % cap = 0 := by
    rw [hlen]
    exact add_sub_mod_self (by omega)
  have hsum : tail + len - head = tail - head + len := by omega
  rw [u64_of_lt hlt]
  simp only [place, hzero, Nat.sub_zero, sizeofRecordHeader]
  rw [sub64_of_le (by omega) hlt, if_neg (by omega), if_neg (by omega), if_neg (by omega), hsum,
    if_neg hroom]

end Pass

section Push

variable {m₁ m₂ : Shared} {out₁ out₂ : PushResult}

/-- Where a filler and the record have room, both rings place both. -/
theorem agree_padded (ha : a.Accepted cap) (hle : m.control.headPublish ≤ m.control.tailPublish)
    {len : ℕ} {w : Bool} {c : Chunk}
    (hkind : (c = .skip len ∧ w = false) ∨ (c = .wrap len ∧ w = true ∧ 16 ≤ len))
    (hlen : len = cap - m.control.tailPublish % cap)
    (hroom : ¬ cap < u64 (m.control.tailPublish - m.control.headPublish + len + a.recordSize))
    (hused : m.control.tailPublish + len - m.control.headPublish ≤ cap)
    (hplace : place cap a m.control.headPublish m.control.tailPublish = some c)
    (h₂ : Pushes cap a m m₂ out₂) (hlt₂ : m.control.tailPublish + out₂.bytes < 2^64) :
    (⟨a, m.control.tailPublish, len, w⟩ : Reservation).carriedOut cap m = m₂ ∧
      out₂.accepted = true := by
  have hlength : c.length = len := by
    rcases hkind with ⟨rfl, -⟩ | ⟨rfl, -, -⟩ <;> rfl
  have hnone : c.record? = none := by
    rcases hkind with ⟨rfl, -⟩ | ⟨rfl, -, -⟩ <;> rfl
  have hmod : m.control.tailPublish % cap < cap := by
    have hsize := a.le_recordSize
    have hcap := ha.recordSize_le
    exact Nat.mod_lt _ (by omega)
  obtain ⟨out', hrest, rfl⟩ := h₂.of_filler hplace hnone
  rw [hlength] at hlt₂
  have hlt : m.control.tailPublish + len < 2^64 := by
    dsimp only at hlt₂
    omega
  have hcontrol : (carriedOut cap a m c).control.headPublish = m.control.headPublish ∧
      (carriedOut cap a m c).control.tailPublish = u64 (m.control.tailPublish + len) := by
    rcases hkind with ⟨rfl, -⟩ | ⟨rfl, -, -⟩ <;> exact ⟨rfl, rfl⟩
  have hsecond : place cap a (carriedOut cap a m c).control.headPublish
      (carriedOut cap a m c).control.tailPublish = some (.record (record a 0)) := by
    rw [hcontrol.1, hcontrol.2]
    exact place_start ha hle hlen hlt hroom hused
  obtain ⟨rfl, hacc⟩ := hrest.of_record hsecond
  exact ⟨(carriedOut_padded ha hkind hlen (by omega) hlt).symm, hacc⟩

/-- What `detail::try_push` does where no reservation is pending, by the reservation it finds room
for. -/
theorem reserved_of_pushOutcome (hrej : a.rejected cap = false) (hnone : NonePending m)
    (h : pushOutcome cap m a = some (m₁, out₁)) :
    (reserve cap a m.control.headPublish m.control.tailPublish = none ∧ m₁ = m ∧
        out₁ = ⟨false, 0⟩) ∨
      ∃ r, reserve cap a m.control.headPublish m.control.tailPublish = some r ∧
        m₁ = r.carriedOut cap m ∧ out₁ = ⟨true, r.total⟩ := by
  have hreserve : m.control.tailReserve = m.control.tailPublish := hnone
  rw [pushOutcome, hrej, hreserve] at h
  simp only [Bool.false_eq_true, if_false] at h
  cases hres : reserve cap a m.control.headPublish m.control.tailPublish with
  | none =>
    rw [hres] at h
    cases h
    exact Or.inl ⟨rfl, rfl, rfl⟩
  | some r =>
    rw [hres] at h
    dsimp only at h
    rw [if_pos (reserve_start hres).2.symm] at h
    cases h
    exact Or.inr ⟨r, rfl, rfl, rfl⟩

/-- Where `SharedRingBuffer` finds no room, a pass of `SharedRingBufferSPSC` finds none either, or
places a filler that is too short for a header. -/
theorem place_of_full {head tail : ℕ} {c : Chunk} (hres : reserve cap a head tail = none)
    (hc : place cap a head tail = some c) :
    c = .skip (cap - tail % cap) ∧ cap - tail % cap < 16 ∧
      cap < u64 (sub64 tail head + (cap - tail % cap + a.recordSize)) ∧
      u64 (sub64 tail head + (cap - tail % cap)) ≤ cap := by
  unfold reserve LfRing.place Reservation.total at hres
  unfold place at hc
  dsimp only at hres hc
  by_cases hfull : cap < sub64 tail head
  · rw [if_pos hfull] at hc
    cases hc
  rw [if_neg hfull] at hres hc
  by_cases hshort : cap - tail % cap < sizeofRecordHeader
  · rw [if_pos hshort] at hres hc
    dsimp only at hres
    split_ifs at hres hc with htotal hfiller
    cases hc
    exact ⟨rfl, hshort, htotal, not_lt.mp hfiller⟩
  rw [if_neg hshort] at hres hc
  -- Elsewhere the two make the same test.
  by_cases hwrap : cap - tail % cap < a.recordSize
  · rw [if_pos hwrap] at hres hc
    dsimp only at hres
    rw [Nat.add_assoc] at hc
    split_ifs at hres hc
  · rw [if_neg hwrap] at hres hc
    dsimp only at hres
    rw [Nat.zero_add] at hres
    split_ifs at hres hc

/-- Where `SharedRingBuffer` finds room, a pass of `SharedRingBufferSPSC` places the record, or the
filler that the reservation begins with. -/
theorem place_of_room {head tail : ℕ} {r : Reservation} (hres : reserve cap a head tail = some r)
    (hlt : sub64 tail head + r.total < 2^64) :
    (r = ⟨a, tail, 0, false⟩ ∧ place cap a head tail = some (.record (record a 0))) ∨
      ∃ c w, r = ⟨a, tail, cap - tail % cap, w⟩ ∧ place cap a head tail = some c ∧
        ((c = .skip (cap - tail % cap) ∧ w = false) ∨
          (c = .wrap (cap - tail % cap) ∧ w = true ∧ 16 ≤ cap - tail % cap)) := by
  unfold reserve at hres
  unfold place
  dsimp only at hres ⊢
  split_ifs at hres with hfull htotal
  simp only [Option.some.injEq] at hres
  subst hres
  rw [if_neg hfull]
  unfold LfRing.place Reservation.total at hlt htotal
  unfold LfRing.place
  dsimp only at hlt htotal ⊢
  by_cases hshort : cap - tail % cap < sizeofRecordHeader
  · -- The record has room behind the filler, so the filler has.
    rw [if_pos hshort] at hlt htotal
    simp only [if_pos hshort]
    dsimp only at hlt htotal
    rw [u64_of_lt hlt] at htotal
    rw [u64_of_lt (by omega), if_neg (by omega)]
    exact Or.inr ⟨_, _, rfl, rfl, Or.inl ⟨rfl, rfl⟩⟩
  rw [if_neg hshort] at hlt htotal
  simp only [if_neg hshort]
  by_cases hwrap : cap - tail % cap < a.recordSize
  · rw [if_pos hwrap] at htotal
    dsimp only at htotal
    simp only [if_pos hwrap]
    rw [Nat.add_assoc, if_neg htotal]
    exact Or.inr ⟨_, _, rfl, rfl, Or.inr ⟨rfl, rfl, not_lt.mp hshort⟩⟩
  · rw [if_neg hwrap] at htotal
    dsimp only at htotal
    rw [Nat.zero_add] at htotal
    rw [if_neg hwrap, if_neg hwrap, if_neg htotal]
    exact Or.inl ⟨rfl, rfl⟩

/-- A push that is not rejected does the same to both rings, if it places a filler that is too short
for a header only together with its record. -/
theorem agree_push (hrej : a.rejected cap = false) (hnone : NonePending m)
    (hle : m.control.headPublish ≤ m.control.tailPublish) (htail : m.control.tailPublish < 2^64)
    (hwhole : WholeOrNothing cap m a) (h₁ : pushOutcome cap m a = some (m₁, out₁))
    (h₂ : Pushes cap a m m₂ out₂) (hlt₁ : m.control.tailPublish + out₁.bytes < 2^64)
    (hlt₂ : m.control.tailPublish + out₂.bytes < 2^64) :
    m₁ = m₂ ∧ out₁.accepted = out₂.accepted := by
  have ha : a.Accepted cap := PushArgs.accepted_of_not_rejected (by simp [hrej])
  have hsub : sub64 m.control.tailPublish m.control.headPublish =
      m.control.tailPublish - m.control.headPublish := sub64_of_le hle htail
  rcases reserved_of_pushOutcome hrej hnone h₁ with ⟨hres, rfl, rfl⟩ | ⟨r, hres, rfl, rfl⟩
  · -- `SharedRingBuffer` refuses. A filler in the other ring would have found room alone.
    cases hplace : place cap a m₁.control.headPublish m₁.control.tailPublish with
    | none =>
      obtain ⟨rfl, rfl⟩ := h₂.of_full hplace
      exact ⟨rfl, rfl⟩
    | some c =>
      exfalso
      obtain ⟨rfl, hshort, htotal, hfiller⟩ := place_of_full hres hplace
      obtain ⟨out', -, rfl⟩ := h₂.of_filler hplace rfl
      simp only [Chunk.length] at hlt₂
      rw [hsub] at htotal hfiller
      rw [u64_of_lt (by omega)] at hfiller
      have htotal' := lt_of_lt_of_le htotal (Nat.mod_le _ _)
      unfold WholeOrNothing sizeofRecordHeader at hwhole
      omega
  · -- It accepts, so the sum in its space check has not wrapped.
    have hstop := (reserve_spec ha hres hle hlt₁).2
    dsimp only at hlt₁
    rcases place_of_room hres (by omega) with ⟨rfl, hplace⟩ | ⟨c, w, rfl, hplace, hkind⟩
    · obtain ⟨rfl, hacc⟩ := h₂.of_record hplace
      exact ⟨(carriedOut_record ha).symm, hacc.symm⟩
    · unfold Reservation.stop at hstop
      simp only [Reservation.total] at hlt₁ hstop
      obtain ⟨hmem, hacc⟩ := agree_padded ha hle hkind rfl
        (by rw [u64_of_lt (by omega)]; omega) (by omega) hplace h₂ hlt₂
      exact ⟨hmem, hacc.symm⟩

end Push

end Spsc

/-- What both rings have between two calls: the same memory, in which either finds its invariant. -/
structure Alike (cap : ℕ) (m₁ : Shared) (tr₁ : List CallEvent) (m₂ : Shared)
    (tr₂ : List CallEvent) :
    Prop where
  /-- The memories are equal. -/
  same : m₁ = m₂
  /-- What `SharedRingBuffer` holds, with no reservation pending. -/
  mpsc : ∃ q, Mpsc.Holds cap m₁ (takenBytes tr₁) q ∧ NonePending m₁
  /-- What `SharedRingBufferSPSC` holds. -/
  spsc : ∃ q, Spsc.Holds cap m₂ (takenBytes tr₂) q

/-- Every push that passes the first checks finds room for the filler and the record together, or
for neither. -/
def PushesWhole (cap : ℕ) (m : Shared) (_ : List CallEvent) (l : CallLabel) : Prop :=
  ∀ a, l.call = .push a → a.rejected cap = false → WholeOrNothing cap m a

/-- The test for that. -/
def pushesWhole (cap : ℕ) (m : Shared) (_ : List CallEvent) (l : CallLabel) : Bool :=
  match l.call with
  | .push a => a.rejected cap || decide (WholeOrNothing cap m a)
  | .pop _ => true

/-- The test is sound. -/
theorem pushesWhole_sound (cap : ℕ) (m : Shared) (tr : List CallEvent) (l : CallLabel)
    (h : pushesWhole cap m tr l = true) : PushesWhole cap m tr l := by
  intro a ha hrej
  rw [pushesWhole, ha] at h
  simpa [hrej] using h

/-- Every such call keeps the rings alike. -/
theorem Alike.step {cap : ℕ} {m₁ m₂ m₁' m₂' : Shared} {tr₁ tr₂ : List CallEvent} {call : Call}
    {choices₁ choices₂ : List Bool} {e₁ e₂ : CallEvent} (h : Alike cap m₁ tr₁ m₂ tr₂)
    (hok : PushesWhole cap m₁ tr₁ ⟨call, choices₁⟩)
    (hs₁ : (Mpsc.calls cap).step m₁ ⟨call, choices₁⟩ = some (m₁', e₁))
    (hs₂ : (Spsc.calls cap).step m₂ ⟨call, choices₂⟩ = some (m₂', e₂))
    (hlt₁ : takenBytes (tr₁ ++ [e₁]) < 2^64) (hlt₂ : takenBytes (tr₂ ++ [e₂]) < 2^64) :
    e₁.observed = e₂.observed ∧ Alike cap m₁' (tr₁ ++ [e₁]) m₂' (tr₂ ++ [e₂]) := by
  obtain ⟨rfl, hmpsc, hspsc⟩ := h
  suffices hsame : e₁.observed = e₂.observed ∧ m₁' = m₂' from
    ⟨hsame.1, hsame.2, (Mpsc.calls_settled cap).step hmpsc hs₁ hlt₁,
      (Spsc.calls_fifo cap).step hspsc hs₂ hlt₂⟩
  obtain ⟨-, ⟨es, pending, ahead, hh, hbytes, hs, -⟩, hnone⟩ := hmpsc
  obtain ⟨-, hinv, -⟩ := hspsc
  rw [takenBytes_append] at hlt₁ hlt₂
  cases call with
  | push a =>
    obtain ⟨⟨n₁, out₁⟩, hpush₁, heq₁⟩ := Option.map_eq_some_iff.mp hs₁
    obtain ⟨⟨n₂, out₂⟩, hpush₂, heq₂⟩ := Option.map_eq_some_iff.mp hs₂
    cases heq₁
    cases heq₂
    have houtcome := pushOutcome_of_pushCall hpush₁
    rcases Spsc.pushes_of_pushCall hpush₂ with ⟨hrej, rfl, rfl⟩ | ⟨hrej, hpushes⟩
    · rw [pushOutcome, if_pos hrej] at houtcome
      cases houtcome
      exact ⟨rfl, rfl⟩
    · -- No counter is ahead of the bytes taken.
      have htail₁ : m₁.control.tailPublish ≤ takenBytes tr₁ := by
        have hreserve : m₁.control.tailReserve = m₁.control.tailPublish := hnone
        rw [← hreserve, hh.bytes, hbytes]
      have htail₂ : m₁.control.tailPublish ≤ takenBytes tr₂ := hinv.bytes_le
      simp only [CallEvent.bytes] at hlt₁ hlt₂
      obtain ⟨hmem, hacc⟩ := Spsc.agree_push hrej hnone hs.le hh.tailPublish_lt (hok a rfl hrej)
        houtcome hpushes (by omega) (by omega)
      exact ⟨congrArg (Observed.pushed a) hacc, hmem⟩
  | pop c =>
    obtain ⟨⟨n₁, res₁⟩, hpop₁, heq₁⟩ := Option.map_eq_some_iff.mp hs₁
    obtain ⟨⟨n₂, res₂⟩, hpop₂, heq₂⟩ := Option.map_eq_some_iff.mp hs₂
    obtain ⟨rfl, rfl⟩ := (pops_of_popCall hpop₁).unique (pops_of_popCall hpop₂)
    cases heq₁
    cases heq₂
    exact ⟨rfl, rfl⟩

/-- Every next call returns in both, as long as no counter comes to `2^64`. -/
theorem Alike.returns {cap : ℕ} {m₁ m₂ : Shared} {tr₁ tr₂ : List CallEvent}
    (h : Alike cap m₁ tr₁ m₂ tr₂) (hlt : takenBytes tr₂ + cap < 2^64) (call : Call) :
    (∃ choices x, (Mpsc.calls cap).step m₁ ⟨call, choices⟩ = some x) ∧
      ∃ choices x, (Spsc.calls cap).step m₂ ⟨call, choices⟩ = some x := by
  obtain ⟨rfl, ⟨q₁, hq₁, hnone⟩, q₂, hq₂⟩ := h
  cases call with
  | push a =>
    by_cases hrej : a.rejected cap
    · exact ⟨⟨[], _, Option.map_eq_some_iff.mpr ⟨_, pushCall_rejected hrej m₁, rfl⟩⟩,
        ⟨[], _, Option.map_eq_some_iff.mpr ⟨_, Spsc.pushCall_rejected hrej m₁, rfl⟩⟩⟩
    · have htail : m₁.control.tailPublish ≤ takenBytes tr₂ := hq₂.1.bytes_le
      obtain ⟨choices₁, m₁', out₁, hpush₁⟩ := pushCall_returns hnone hrej
      obtain ⟨choices₂, m₂', out₂, hpush₂⟩ := Spsc.pushCall_returns (m := m₁) hrej (by omega)
      exact ⟨⟨choices₁, _, Option.map_eq_some_iff.mpr ⟨_, hpush₁, rfl⟩⟩,
        ⟨choices₂, _, Option.map_eq_some_iff.mpr ⟨_, hpush₂, rfl⟩⟩⟩
  | pop c =>
    obtain ⟨choices₁, m₁', res₁, hpop₁⟩ := (Mpsc.calls_fifo cap).pop_returns hq₁ c
    obtain ⟨choices₂, m₂', res₂, hpop₂⟩ := (Spsc.calls_fifo cap).pop_returns hq₂ c
    exact ⟨⟨choices₁, _, Option.map_eq_some_iff.mpr ⟨_, hpop₁, rfl⟩⟩,
      ⟨choices₂, _, Option.map_eq_some_iff.mpr ⟨_, hpop₂, rfl⟩⟩⟩

/-- `SharedRingBufferSPSC` agrees with `SharedRingBuffer` where pushes are whole. For every capacity
that `create` accepts, after the same calls, each run to completion before the next, and with less
than `2^64` bytes taken in either: if every push finds room for its filler and its record together
or for neither, both have returned the same at every call, with payloads, types and sequence
numbers, and have the same control block and ring. And every next call returns in both, as long as
the bytes cannot come to `2^64`. -/
theorem agree_mpsc_spsc {capacityBytes : ℕ} {file₁ file₂ : Mapping}
    (hcreate₁ : createMapping capacityBytes kFlagMPSC = .ok file₁)
    (hcreate₂ : createMapping capacityBytes kFlagSPSC = .ok file₂) {m₁ m₂ : Shared}
    {tr₁ tr₂ : List CallEvent}
    (hrun₁ : ((Mpsc.calls file₁.capacity).machine file₁).Run (PushesWhole file₁.capacity) m₁ tr₁)
    (hrun₂ : ((Spsc.calls file₂.capacity).machine file₂).Reaches m₂ tr₂)
    (hcalls : tr₁.map CallEvent.call = tr₂.map CallEvent.call) (hlt₁ : takenBytes tr₁ < 2^64)
    (hlt₂ : takenBytes tr₂ < 2^64) :
    tr₁.map CallEvent.observed = tr₂.map CallEvent.observed ∧ m₁ = m₂ ∧
      (takenBytes tr₂ + file₂.capacity < 2^64 → ∀ call,
        (∃ choices x, (Mpsc.calls file₁.capacity).step m₁ ⟨call, choices⟩ = some x) ∧
          ∃ choices x, (Spsc.calls file₂.capacity).step m₂ ⟨call, choices⟩ = some x) := by
  have hcap : file₂.capacity = file₁.capacity := by
    rw [(createMapping_fields hcreate₁).1, (createMapping_fields hcreate₂).1]
  rw [hcap] at hrun₂ ⊢
  have hfresh : Alike file₁.capacity file₁.shared [] file₂.shared [] := by
    rw [createMapping_shared hcreate₁, createMapping_shared hcreate₂]
    exact ⟨rfl, ⟨[], (Mpsc.calls_settled _).fresh⟩, [], (Spsc.calls_fifo _).fresh⟩
  have hbound : ∀ tr e, takenBytes (tr ++ [e]) < 2^64 → takenBytes tr < 2^64 := by
    intro tr e hb
    rw [takenBytes_append] at hb
    omega
  obtain ⟨hobserved, halike⟩ := CallRing.agree
    (fun tr₁ tr₂ => takenBytes tr₁ < 2^64 ∧ takenBytes tr₂ < 2^64)
    (fun tr₁ e₁ tr₂ e₂ hb => ⟨hbound tr₁ e₁ hb.1, hbound tr₂ e₂ hb.2⟩) (Alike file₁.capacity) hfresh
    (fun m₁ tr₁ m₂ tr₂ call choices₁ choices₂ m₁' e₁ m₂' e₂ h hok hs₁ hs₂ hb =>
      h.step hok hs₁ hs₂ hb.1 hb.2) hrun₁ hrun₂ hcalls ⟨hlt₁, hlt₂⟩
  exact ⟨hobserved, halike.same, halike.returns⟩

/-- A message of eight bytes and one of sixteen are pushed and popped, and a third of `n` bytes is
pushed and popped where eight bytes are left at the end of the ring. The calls take the steps that
the lists say. -/
def towardsEnd (n : ℕ) (pushes pops : ℕ × ℕ × ℕ) : List CallLabel :=
  [⟨.push (zeros 8), List.replicate pushes.1 false⟩,
    ⟨.pop ⟨[], true⟩, List.replicate pops.1 false⟩,
    ⟨.push (zeros 16), List.replicate pushes.2.1 false⟩,
    ⟨.pop ⟨[], true⟩, List.replicate pops.2.1 false⟩,
    ⟨.push (zeros n), List.replicate pushes.2.2 false⟩,
    ⟨.pop ⟨[], true⟩, List.replicate pops.2.2 false⟩]

/-- The two rings on that, with a message that has room behind the eight bytes. -/
theorem agree_mpsc_spsc_pastEnd : ∃ file₁ file₂ m₁ m₂ tr₁ tr₂,
    createMapping 64 kFlagMPSC = .ok file₁ ∧ createMapping 64 kFlagSPSC = .ok file₂ ∧
    ((Mpsc.calls file₁.capacity).machine file₁).Run (PushesWhole file₁.capacity) m₁ tr₁ ∧
    ((Spsc.calls file₂.capacity).machine file₂).Reaches m₂ tr₂ ∧ tr₁.length = 6 ∧
    m₁.control.tailPublish = 96 ∧ tr₁.map CallEvent.observed = tr₂.map CallEvent.observed ∧
    m₁ = m₂ := by
  obtain ⟨file₁, hfile₁⟩ : ∃ file, createMapping 64 kFlagMPSC = .ok file := ⟨_, rfl⟩
  obtain ⟨file₂, hfile₂⟩ : ∃ file, createMapping 64 kFlagSPSC = .ok file := ⟨_, rfl⟩
  obtain ⟨m₁, tr₁, hrun₁, hcalls₁, htest₁⟩ :=
    CallRing.exists_run (Mpsc.calls file₁.capacity) file₁ (pushesWhole file₁.capacity)
      (pushesWhole_sound file₁.capacity) (towardsEnd 16 (19, 27, 27) (16, 24, 28))
      (fun m tr => decide (tr.length = 6 ∧ m.control.tailPublish = 96 ∧ takenBytes tr < 2^64))
      (by cases hfile₁; decide +kernel)
  obtain ⟨m₂, tr₂, hrun₂, hcalls₂, htest₂⟩ :=
    CallRing.exists_run (Spsc.calls file₂.capacity) file₂ (fun _ _ _ => true)
      (fun _ _ _ _ => trivial) (towardsEnd 16 (37, 45, 49) (16, 24, 28))
      (fun _ tr => decide (takenBytes tr < 2^64)) (by cases hfile₂; decide +kernel)
  obtain ⟨hlen, htail, hlt₁⟩ := of_decide_eq_true htest₁
  obtain ⟨hsame, hmem, -⟩ := agree_mpsc_spsc hfile₁ hfile₂ hrun₁ hrun₂
    (hcalls₁.trans hcalls₂.symm) hlt₁ (of_decide_eq_true htest₂)
  exact ⟨file₁, file₂, m₁, m₂, tr₁, tr₂, hfile₁, hfile₂, hrun₁, hrun₂, hlen, htail, hsame, hmem⟩

/-- The same with a message that takes up the whole ring, and one more push of that message. -/
def wholeRing (pushes pops : ℕ × ℕ × ℕ) (again : ℕ) : List CallLabel :=
  towardsEnd 48 pushes pops ++ [⟨.push (zeros 48), List.replicate again false⟩]

/-- On that the two rings differ. Both refuse the message at first, but `SharedRingBufferSPSC` has
published the eight bytes, and its consumer moves over them. It accepts the message the next time,
and `SharedRingBuffer` refuses it again. -/
theorem accepts_more : ∃ file₁ file₂ m₁ m₂ tr₁ tr₂,
    createMapping 64 kFlagMPSC = .ok file₁ ∧ createMapping 64 kFlagSPSC = .ok file₂ ∧
    ((Mpsc.calls file₁.capacity).machine file₁).Reaches m₁ tr₁ ∧
    ((Spsc.calls file₂.capacity).machine file₂).Reaches m₂ tr₂ ∧
    tr₁.map CallEvent.call = tr₂.map CallEvent.call ∧ takenBytes tr₁ < 2^64 ∧
    takenBytes tr₂ < 2^64 ∧ tr₁.map CallEvent.observed ≠ tr₂.map CallEvent.observed := by
  obtain ⟨file₁, hfile₁⟩ : ∃ file, createMapping 64 kFlagMPSC = .ok file := ⟨_, rfl⟩
  obtain ⟨file₂, hfile₂⟩ : ∃ file, createMapping 64 kFlagSPSC = .ok file := ⟨_, rfl⟩
  obtain ⟨m₁, tr₁, hrun₁, hcalls₁, htest₁⟩ :=
    CallRing.exists_run (Mpsc.calls file₁.capacity) file₁ (fun _ _ _ => true)
      (fun _ _ _ _ => trivial)
      (wholeRing (19, 27, 2) (16, 24, 2) 2)
      (fun _ tr => decide (takenBytes tr < 2^64) &&
        (tr.map CallEvent.observed).getLast?.any fun o => !o.accepted)
      (by cases hfile₁; decide +kernel)
  obtain ⟨m₂, tr₂, hrun₂, hcalls₂, htest₂⟩ :=
    CallRing.exists_run (Spsc.calls file₂.capacity) file₂ (fun _ _ _ => true)
      (fun _ _ _ _ => trivial)
      (wholeRing (37, 45, 6) (16, 24, 6) 77)
      (fun _ tr => decide (takenBytes tr < 2^64) &&
        (tr.map CallEvent.observed).getLast?.any Observed.accepted)
      (by cases hfile₂; decide +kernel)
  obtain ⟨hlt₁, hlast₁⟩ := (Bool.and_eq_true _ _).mp htest₁
  obtain ⟨hlt₂, hlast₂⟩ := (Bool.and_eq_true _ _).mp htest₂
  refine ⟨file₁, file₂, m₁, m₂, tr₁, tr₂, hfile₁, hfile₂, hrun₁, hrun₂, hcalls₁.trans hcalls₂.symm,
    of_decide_eq_true hlt₁, of_decide_eq_true hlt₂, ?_⟩
  intro hsame
  rw [← hsame] at hlast₂
  cases hlast : (tr₁.map CallEvent.observed).getLast? with
  | none =>
    rw [hlast] at hlast₁
    cases hlast₁
  | some o =>
    rw [hlast] at hlast₁ hlast₂
    simp only [Option.any_some] at hlast₁ hlast₂
    rw [hlast₂] at hlast₁
    cases hlast₁

end LfRing

import LfRing.Ring.Drained

/-!
# What a complete call leaves

A call that has the shared memory to itself does what the memory says: how it goes, with however
many compare-exchanges that fail spuriously, makes no difference. Here that is said exactly, for any
contents of the control block and of the ring: which memory a complete call leaves, and what it
returns.

`pushOutcome` is `detail::try_push`, which the rings with many producers share. `Spsc.Pushes` is
`SharedRingBufferSPSC::try_push`, one pass of its loop after the other, and `Pops` is `try_pop`,
over the decisions of one pass: `popPass` of the rings with one consumer, and `Mpmc.popPass`.

Each is proved from the end of the call. What is left to do at each place of a call (`Leads`) is a
relation between the memory there and that at the end, and a step leads to what the place behind it
leads to.
-/

namespace LfRing

/-! ## `detail::try_push` -/

/-- The memory with all the stores made. -/
def Shared.storeAll (m : Shared) (todo : List Store) : Shared :=
  ⟨m.control, Store.applyAll todo m.ring⟩

/-- The memory with the next sequence number drawn and stored, and the reservation published. -/
def Reservation.numbered (cap : ℕ) (r : Reservation) (m : Shared) : Shared :=
  ⟨{ m.control with
      tailPublish := u64 (r.start + r.total)
      sequence := u64 (m.control.sequence + 1) },
    (r.sequenceStore cap (u64 (m.control.sequence + 1))).apply m.ring⟩

/-- The memory with the reservation made, filled and published. -/
def Reservation.carriedOut (cap : ℕ) (r : Reservation) (m : Shared) : Shared :=
  r.numbered cap (((Effect.tailReserve (u64 (r.start + r.total))).apply m).storeAll (r.stores cap))

/-- What a complete call of `detail::try_push` leaves and returns. Where `tail_publish` is not at
the reservation the call waits forever. -/
def pushOutcome (cap : ℕ) (m : Shared) (a : PushArgs) : Option (Shared × PushResult) :=
  if a.rejected cap then some (m, ⟨false, 0⟩)
  else match reserve cap a m.control.headPublish m.control.tailReserve with
    | none => some (m, ⟨false, 0⟩)
    | some r =>
      if m.control.tailPublish = r.start then some (r.carriedOut cap m, ⟨true, r.total⟩) else none

/-- The result of a call with these events. -/
def pushResult (es : List PushEvent) : PushResult := ⟨!(publications es).isEmpty, reservedBytes es⟩

/-- What a producer at this place leaves and returns. -/
def PushPc.Leads (cap : ℕ) (m m' : Shared) (out : PushResult) : PushPc → Prop
  | idle => m' = m ∧ out = ⟨false, 0⟩
  | loadHead a => a.rejected cap = false → pushOutcome cap m a = some (m', out)
  | loadTail a head => a.rejected cap = false → head = m.control.headPublish →
      pushOutcome cap m a = some (m', out)
  | cas r => r.args.rejected cap = false →
      LfRing.reserve cap r.args m.control.headPublish m.control.tailReserve = some r →
      pushOutcome cap m r.args = some (m', out)
  | store r st todo => m.control.tailPublish = r.start ∧
      m' = r.numbered cap (m.storeAll (st :: todo)) ∧ out = ⟨true, 0⟩
  | awaitTurn r => m.control.tailPublish = r.start ∧ m' = r.numbered cap m ∧ out = ⟨true, 0⟩
  | fetchSequence r => m' = r.numbered cap m ∧ out = ⟨true, 0⟩
  | storeSequence r n => m' = (Effect.tailPublish (u64 (r.start + r.total))).apply
      ((Effect.ring (r.sequenceStore cap n)).apply m) ∧ out = ⟨true, 0⟩
  | publish r _ => m' = (Effect.tailPublish (u64 (r.start + r.total))).apply m ∧ out = ⟨true, 0⟩

namespace PushPc

variable {cap : ℕ} {m m' : Shared} {pc pc' : PushPc} {l : PushLabel} {eff : Effect} {e : PushEvent}
  {es : List PushEvent} {out : PushResult}

/-- With the stores `todo` left. -/
theorem leads_storing {r : Reservation} {todo : List Store} :
    (storing r todo).Leads cap m m' out ↔ m.control.tailPublish = r.start ∧
      m' = r.numbered cap (m.storeAll todo) ∧ out = ⟨true, 0⟩ := by
  cases todo <;> rfl

/-- A step inside a call leads to what is behind it. -/
theorem Leads.step (hs : pc.step cap m l = some (eff, pc', e)) (hl : ∃ b, l = pushNext b)
    (h : pc'.Leads cap (eff.apply m) m' (pushResult es)) :
    pc.Leads cap m m' (pushResult (e :: es)) := by
  obtain ⟨b, rfl⟩ := hl
  cases PushPc.step_cases hs with
  | reject a => cases b <;> cases hs
  | call a hrej => cases b <;> cases hs
  | loadHead a => exact fun hrej => h hrej rfl
  | full a head =>
    rintro hrej rfl
    obtain ⟨hmem, hout⟩ := h
    have hres : LfRing.reserve cap a m.control.headPublish m.control.tailReserve = none := by
      cases b with
      | true => cases hs
      | false =>
        cases hres : LfRing.reserve cap a m.control.headPublish m.control.tailReserve with
        | none => rfl
        | some r =>
          rw [pushNext, PushPc.step, hres] at hs
          cases hs
    have hsame : pushResult (.refused :: es) = pushResult es := rfl
    rw [hsame, hout, hmem, pushOutcome, hrej, hres]
    rfl
  | room a head r hres =>
    rintro hrej rfl
    obtain ⟨rfl, -⟩ := reserve_start hres
    exact h hrej hres
  | reserve r htail =>
    intro hrej hres
    obtain ⟨hturn, rfl, hout⟩ := leads_storing.mp h
    have hbytes : pushResult (.reserved r :: es) =
        ⟨(pushResult es).accepted, r.total + (pushResult es).bytes⟩ := rfl
    have hstart : m.control.tailPublish = r.start := hturn
    rw [hbytes, hout, pushOutcome, hrej, hres]
    simp only [Bool.false_eq_true, if_false, if_pos hstart]
    rfl
  | retry r =>
    intro hrej hres
    exact h hrej
  | store r st todo =>
    have hrest := leads_storing.mp h
    exact hrest
  | wait r => exact h
  | turn r hturn => exact ⟨hturn, h⟩
  | fetch r => exact h
  | number r n => exact h
  | publish r n =>
    obtain ⟨rfl, hout⟩ := h
    have hpub : pushResult (.published r n :: es) = ⟨true, (pushResult es).bytes⟩ := rfl
    rw [hpub, hout]
    exact ⟨rfl, rfl⟩

end PushPc

/-- A complete call of `detail::try_push` leaves and returns what the memory says, whichever of its
compare-exchanges have failed. -/
theorem pushOutcome_of_pushCall {cap : ℕ} {m : Shared} {a : PushArgs} {choices : List Bool}
    {x : Shared × PushResult} (h : pushCall cap m a choices = some x) :
    pushOutcome cap m a = some x := by
  obtain ⟨⟨⟨m₁, pc⟩, es⟩, hcall, rfl⟩ := Option.map_eq_some_iff.mp h
  obtain ⟨⟨m₂, pc₂⟩, e, es', hfirst, rfl, hp, hidle⟩ := Machine.path_of_call hcall
  obtain ⟨eff, hstep, hmem⟩ := pushMachine_step hfirst
  have hend : pc.Leads cap m₁ m₁ (pushResult []) := by
    cases pc <;> first | exact ⟨rfl, rfl⟩ | cases hidle
  have hleads := hp.backward (fun s es => s.2.Leads cap s.1 m₁ (pushResult es)) (by
    intro s l s₁ e es hl hs hleads
    obtain ⟨eff', hstep', hmem'⟩ := pushMachine_step hs
    rw [hmem'] at hleads
    exact hleads.step hstep' hl) hend
  dsimp only at hmem hstep hleads
  rw [PushPc.step, PushPc.enter] at hstep
  split_ifs at hstep with hrej
  · cases hstep
    obtain ⟨rfl, hout⟩ := hleads
    have hsame : pushResult (.refused :: es') = pushResult es' := rfl
    rw [pushOutcome, if_pos hrej, ← hout, ← hsame, hmem]
    rfl
  · cases hstep
    rw [hmem] at hleads
    exact hleads (Bool.not_eq_true _ ▸ hrej)

/-- A push that the first checks refuse returns at once. -/
theorem pushCall_rejected {cap : ℕ} {a : PushArgs} (h : a.rejected cap = true) (m : Shared) :
    pushCall cap m a [] = some (m, ⟨false, 0⟩) := by
  have hstep : PushPc.step cap m .idle (.call a) = some (.none, .idle, .refused) := by
    rw [PushPc.step, PushPc.enter, if_pos h]
  have hfirst := pushMachine_of_step hstep
  simp only [pushCall, Machine.call, List.map_nil, Machine.exec, if_true, hfirst]
  rfl

/-! ## `SharedRingBufferSPSC::try_push` -/

/-- The memory with both tails stored. -/
def Shared.publishTail (m : Shared) (tail : ℕ) : Shared :=
  (Effect.tailPublish tail).apply ((Effect.tailReserve tail).apply m)

namespace Spsc

/-- The memory with the next sequence number drawn and stored behind the header at `tail`, and the
record published. -/
def numbered (cap : ℕ) (a : PushArgs) (tail : ℕ) (m : Shared) : Shared :=
  (((Effect.sequence (u64 (m.control.sequence + 1))).apply m).storeAll
    (numberStores cap tail (u64 (m.control.sequence + 1)))).publishTail
    (u64 (tail + (Chunk.record (record a (u64 (m.control.sequence + 1)))).length))

/-- The memory with the chunk published whose bytes have been stored at `tail`. -/
def settled (cap : ℕ) (a : PushArgs) (tail : ℕ) (m : Shared) : Chunk → Shared
  | .record _ => numbered cap a tail m
  | c => m.publishTail (u64 (tail + c.length))

/-- The memory with the chunk placed at `tail_publish`. -/
def carriedOut (cap : ℕ) (a : PushArgs) (m : Shared) (c : Chunk) : Shared :=
  settled cap a m.control.tailPublish (m.storeAll (chunkStores cap m.control.tailPublish c)) c

/-- What the loop of `try_push` leaves and returns, by the decisions of its passes. -/
inductive Pushes (cap : ℕ) (a : PushArgs) : Shared → Shared → PushResult → Prop
  /-- A pass finds no room. -/
  | full {m : Shared} (h : place cap a m.control.headPublish m.control.tailPublish = none) :
    Pushes cap a m m ⟨false, 0⟩
  /-- A pass places a filler, and another pass follows. -/
  | filler {m m' : Shared} {c : Chunk} {out : PushResult}
    (h : place cap a m.control.headPublish m.control.tailPublish = some c)
    (hfiller : c.record? = none)
    (hrest : Pushes cap a (carriedOut cap a m c) m' out) :
    Pushes cap a m m' ⟨out.accepted, c.length + out.bytes⟩
  /-- A pass places the record. -/
  | record {m : Shared}
    (h : place cap a m.control.headPublish m.control.tailPublish = some (.record (record a 0))) :
    Pushes cap a m (carriedOut cap a m (.record (record a 0)))
      ⟨true, (Chunk.record (record a 0)).length⟩

/-- The result of a call with these events. -/
def pushResult (es : List PushEvent) : PushResult := ⟨!(committedOf es).isEmpty, placedOf es⟩

/-- A step that commits and places nothing makes no difference to the result. -/
theorem pushResult_cons {e : PushEvent} (hnone : e.committed? = []) (hbytes : e.bytes = 0)
    (es : List PushEvent) : pushResult (e :: es) = pushResult es := by
  simp [pushResult, committedOf, placedOf, hnone, hbytes]

/-- What is left and returned once the chunk has been published: behind a record nothing is left to
do. -/
def Continues (cap : ℕ) (a : PushArgs) (m m' : Shared) (out : PushResult) : Chunk → Prop
  | .record _ => m' = m ∧ out = ⟨true, 0⟩
  | _ => Pushes cap a m m' out

/-- What the producer at this place leaves and returns. -/
def PushPc.Leads (cap : ℕ) (m m' : Shared) (out : PushResult) : PushPc → Prop
  | idle => m' = m ∧ out = ⟨false, 0⟩
  | loadHead a => Pushes cap a m m' out
  | loadTail a head => head = m.control.headPublish → Pushes cap a m m' out
  | store a tail c st todo =>
    Continues cap a (settled cap a tail (m.storeAll (st :: todo)) c) m' out c
  | fetchSequence a tail => m' = numbered cap a tail m ∧ out = ⟨true, 0⟩
  | storeSequence a tail n st todo =>
    m' = (m.storeAll (st :: todo)).publishTail (u64 (tail + (Chunk.record (record a n)).length)) ∧
      out = ⟨true, 0⟩
  | reserve a tail c => Continues cap a (m.publishTail (u64 (tail + c.length))) m' out c
  | publish a tail c =>
    Continues cap a ((Effect.tailPublish (u64 (tail + c.length))).apply m) m' out c
  | _ => True

namespace PushPc

variable {cap : ℕ} {a : PushArgs} {m m' : Shared} {pc pc' : PushPc} {eff : Effect} {e : PushEvent}
  {es : List PushEvent} {out : PushResult}

/-- With the bytes `todo` of a chunk left. -/
theorem leads_storing {tail : ℕ} {c : Chunk} {todo : List Store}
    (h : (storing a tail c todo).Leads cap m m' out) :
    Continues cap a (settled cap a tail (m.storeAll todo) c) m' out c := by
  cases todo with
  | cons st todo => exact h
  | nil => cases c <;> exact h

/-- With the bytes `todo` of a sequence number left. -/
theorem leads_numbering {tail n : ℕ} {todo : List Store}
    (h : (numbering a tail n todo).Leads cap m m' out) :
    m' = (m.storeAll todo).publishTail (u64 (tail + (Chunk.record (record a n)).length)) ∧
      out = ⟨true, 0⟩ := by
  cases todo with
  | cons st todo => exact h
  | nil => exact h

/-- A step inside a call leads to what is behind it. -/
theorem Leads.step (hs : pc.step cap m .run = some (eff, pc', e))
    (h : pc'.Leads cap (eff.apply m) m' (pushResult es)) :
    pc.Leads cap m m' (pushResult (e :: es)) := by
  cases PushPc.step_cases hs with
  | crash pc => exact absurd rfl (ne_crashed hs)
  | claim => trivial
  | claimLoad => trivial
  | claimed tail => trivial
  | reject b => cases hs
  | call b hrej => cases hs
  | loadHead b =>
    rw [pushResult_cons rfl rfl]
    exact h rfl
  | full b head =>
    rintro rfl
    obtain ⟨hmem, hout⟩ := h
    rw [pushResult_cons rfl rfl, hout, hmem]
    cases hplace : place cap b m.control.headPublish m.control.tailPublish with
    | none => exact .full hplace
    | some c =>
      rw [PushPc.step, hplace, PushPc.decided] at hs
      have hevent := (Prod.mk.inj (Prod.mk.inj (Option.some.inj hs)).2).2
      cases hevent
  | room b head c hplace =>
    rintro rfl
    have hcont := leads_storing h
    have hbytes : pushResult (.placed c :: es) =
        ⟨(pushResult es).accepted, c.length + (pushResult es).bytes⟩ := rfl
    rw [hbytes]
    rcases kind_of_place hplace with rfl | ⟨hnone, -⟩
    · obtain ⟨rfl, hout⟩ := hcont
      rw [hout]
      exact .record hplace
    · cases c with
      | record r => cases hnone
      | skip len => exact .filler hplace hnone hcont
      | wrap len => exact .filler hplace hnone hcont
  | store b tail c st todo =>
    have hcont := leads_storing h
    rw [pushResult_cons rfl rfl]
    exact hcont
  | fetch b tail =>
    have hrest := leads_numbering h
    rw [pushResult_cons rfl rfl]
    exact hrest
  | number b tail n st todo =>
    have hrest := leads_numbering h
    rw [pushResult_cons rfl rfl]
    exact hrest
  | reserve b tail c =>
    rw [pushResult_cons rfl rfl]
    exact h
  | publish b tail c =>
    cases c with
    | record r =>
      obtain ⟨hmem, hout⟩ := h
      have hpub : pushResult (.published (.record r) :: es) = ⟨true, 0 + (pushResult es).bytes⟩ :=
        rfl
      rw [hpub, hout]
      exact ⟨hmem, rfl⟩
    | skip len =>
      rw [pushResult_cons rfl rfl]
      exact h
    | wrap len =>
      rw [pushResult_cons rfl rfl]
      exact h

end PushPc

/-- A push that the first checks refuse returns at once. -/
theorem pushCall_rejected {cap : ℕ} {a : PushArgs} (h : a.rejected cap = true) (m : Shared) :
    pushCall cap m a [] = some (m, ⟨false, 0⟩) := by
  have hstep : PushPc.step cap m .idle (.call a) = some (.none, .idle, .refused) := by
    rw [PushPc.step, PushPc.enter, if_pos h]
  have hfirst := pushMachine_of_step hstep
  simp only [pushCall, Machine.call, List.map_nil, Machine.exec, if_true, hfirst]
  rfl

/-- A complete call of `try_push` leaves and returns what its passes say. -/
theorem pushes_of_pushCall {cap : ℕ} {m m' : Shared} {a : PushArgs} {choices : List Bool}
    {out : PushResult} (h : pushCall cap m a choices = some (m', out)) :
    (a.rejected cap = true ∧ m' = m ∧ out = ⟨false, 0⟩) ∨
      (a.rejected cap = false ∧ Pushes cap a m m' out) := by
  obtain ⟨⟨⟨m₁, pc⟩, es⟩, hcall, heq⟩ := Option.map_eq_some_iff.mp h
  obtain ⟨⟨m₂, pc₂⟩, e, es', hfirst, rfl, hp, hidle⟩ := Machine.path_of_call hcall
  obtain ⟨rfl, rfl⟩ := Prod.mk.inj heq
  obtain ⟨eff, hstep, hmem⟩ := pushMachine_step hfirst
  have hend : pc.Leads cap m₁ m₁ (pushResult []) := by
    cases pc <;> first | exact ⟨rfl, rfl⟩ | cases hidle
  have hleads := hp.backward (fun s es => s.2.Leads cap s.1 m₁ (pushResult es)) (by
    rintro s l s₁ e es ⟨-, rfl⟩ hs hleads
    obtain ⟨eff', hstep', hmem'⟩ := pushMachine_step hs
    rw [hmem'] at hleads
    exact hleads.step hstep') hend
  dsimp only at hmem hstep hleads
  rw [PushPc.step, PushPc.enter] at hstep
  split_ifs at hstep with hrej
  · cases hstep
    obtain ⟨hsame, hout⟩ := hleads
    exact Or.inl ⟨hrej, hsame.trans hmem, (pushResult_cons rfl rfl es').trans hout⟩
  · cases hstep
    rw [hmem, ← pushResult_cons (e := .internal) rfl rfl] at hleads
    exact Or.inr ⟨Bool.not_eq_true _ ▸ hrej, hleads⟩

end Spsc

/-! ## `try_pop` -/

/-- What a pass of the loop of `try_pop` decides. -/
inductive PopPass
  /-- To return false. -/
  | refuse
  /-- To move the head to the start of the ring, and try again. -/
  | skip (head : ℕ)
  /-- To move the head behind a record, and return it. -/
  | take (head : ℕ) (res : Popped)

/-- The memory with both heads stored. -/
def Shared.atHead (m : Shared) (head : ℕ) : Shared :=
  ⟨{ m.control with headReserve := head, headPublish := head }, m.ring⟩

/-- What a loop with these passes leaves and returns. -/
inductive Pops (pass : Shared → PopPass) : Shared → Shared → Option Popped → Prop
  /-- A pass returns false. -/
  | refuse {m : Shared} (h : pass m = .refuse) : Pops pass m m none
  /-- A pass skips the end of the ring, and another pass follows. -/
  | skip {m m' : Shared} {head : ℕ} {res : Option Popped} (h : pass m = .skip head)
    (hrest : Pops pass (m.atHead head) m' res) : Pops pass m m' res
  /-- A pass returns a record. -/
  | take {m : Shared} {head : ℕ} {p : Popped} (h : pass m = .take head p) :
    Pops pass m (m.atHead head) (some p)

/-- What a call does is settled. -/
theorem Pops.unique {pass : Shared → PopPass} {m m₁ m₂ : Shared} {res₁ res₂ : Option Popped}
    (h₁ : Pops pass m m₁ res₁) (h₂ : Pops pass m m₂ res₂) : m₁ = m₂ ∧ res₁ = res₂ := by
  induction h₁ with
  | refuse h =>
    cases h₂ with
    | refuse h' => exact ⟨rfl, rfl⟩
    | skip h' hrest => cases h.symm.trans h'
    | take h' => cases h.symm.trans h'
  | skip h _ ih =>
    cases h₂ with
    | refuse h' => cases h.symm.trans h'
    | skip h' hrest =>
      cases h.symm.trans h'
      exact ih hrest
    | take h' => cases h.symm.trans h'
  | take h =>
    cases h₂ with
    | refuse h' => cases h.symm.trans h'
    | skip h' hrest => cases h.symm.trans h'
    | take h' =>
      cases h.symm.trans h'
      exact ⟨rfl, rfl⟩

/-- The vector with `n` bytes of the payload copied, from byte `i` on. -/
def copyBytes (ring : Memory) (addr : ℕ) : ℕ → ℕ → List UInt8 → List UInt8
  | _, 0, out => out
  | i, n + 1, out => copyBytes ring addr (i + 1) n (out.set i (ring (addr + i)))

/-- What is returned for a record at `head`, with the payload already copied to `out`. -/
def readHeader (cap : ℕ) (ring : Memory) (c : PopCall) (head : ℕ) (out : List UInt8) : Popped :=
  ⟨out, ring.load (head % cap + 4) 2,
    if c.wantSequence then some (ring.load (head % cap + 8) 8) else none⟩

/-- What is returned for a record at `head` with a payload of `size` bytes. -/
def readRecord (cap : ℕ) (ring : Memory) (c : PopCall) (head size : ℕ) : Popped :=
  readHeader cap ring c head
    (copyBytes ring (head % cap + sizeofRecordHeader) 0 size (resized c.out size))

/-- The decisions of a pass of `try_pop_internal`. -/
def popPass (cap : ℕ) (c : PopCall) (m : Shared) : PopPass :=
  let head := m.control.headPublish
  let tail := m.control.tailPublish
  let remaining := cap - head % cap
  let size := m.ring.load (head % cap) 4
  if head = tail then .refuse
  else if remaining < sizeofRecordHeader then .skip (u64 (head + remaining))
  else if m.ring.load (head % cap + 6) 2 &&& kWrapFlag ≠ 0 then .skip (u64 (head + remaining))
  else if remaining < recordSize size then .refuse
  else if sub64 tail head < recordSize size then .refuse
  else .take (u64 (head + recordSize size)) (readRecord cap m.ring c head size)

/-- What follows the stores of the head leaves and returns. -/
def PopThen.Leads (pass : PopCall → Shared → PopPass) (m m' : Shared) (res : Option Popped) :
    PopThen → Prop
  | .again c => Pops (pass c) m m' res
  | .done _ p => m' = m ∧ res = some p

/-- The result of a call with these events. -/
def popResult (es : List PopEvent) : Option Popped := (returnedOf es).head?.map Prod.snd

/-- What the consumer at this place leaves and returns. -/
def PopPc.Leads (cap : ℕ) (m m' : Shared) (res : Option Popped) : PopPc → Prop
  | idle => m' = m ∧ res = none
  | loadTail c => Pops (popPass cap c) m m' res
  | loadHead c tail => tail = m.control.tailPublish → Pops (popPass cap c) m m' res
  | loadFlags c tail head => tail = m.control.tailPublish → head = m.control.headPublish →
      head ≠ tail → 16 ≤ cap - head % cap → Pops (popPass cap c) m m' res
  | loadSize c tail head => tail = m.control.tailPublish → head = m.control.headPublish →
      head ≠ tail → 16 ≤ cap - head % cap → m.ring.load (head % cap + 6) 2 &&& kWrapFlag = 0 →
      Pops (popPass cap c) m m' res
  | copy c head size i out => i < size → m' = m.atHead (u64 (head + recordSize size)) ∧
      res = some (readHeader cap m.ring c head
        (copyBytes m.ring (head % cap + sizeofRecordHeader) i (size - i) out))
  | loadType c head size out => m' = m.atHead (u64 (head + recordSize size)) ∧
      res = some (readHeader cap m.ring c head out)
  | loadSequence c head size out type => c.wantSequence = true →
      type = m.ring.load (head % cap + 4) 2 → m' = m.atHead (u64 (head + recordSize size)) ∧
      res = some (readHeader cap m.ring c head out)
  | publish head k last => (last = true → m.control.headReserve = head) →
      k.Leads (popPass cap) (m.atHead head) m' res
  | reserve head k last => (last = true → m.control.headPublish = head) →
      k.Leads (popPass cap) (m.atHead head) m' res

namespace PopPc

variable {order : HeadOrder} {cap : ℕ} {m m' : Shared} {pc pc' : PopPc} {eff : Effect}
  {e : PopEvent} {es : List PopEvent} {res : Option Popped}

/-- Whichever of the two stores comes first, both follow. -/
theorem leads_advance {head : ℕ} {k : PopThen} (h : (advance order head k).Leads cap m m' res) :
    k.Leads (popPass cap) (m.atHead head) m' res := by
  cases order <;> exact h (by simp)

/-- With `i` bytes of the payload copied. -/
theorem leads_copying {c : PopCall} {head size i : ℕ} {out : List UInt8} (hi : i ≤ size)
    (h : (copying c head size i out).Leads cap m m' res) :
    m' = m.atHead (u64 (head + recordSize size)) ∧ res = some (readHeader cap m.ring c head
      (copyBytes m.ring (head % cap + sizeofRecordHeader) i (size - i) out)) := by
  unfold copying at h
  split_ifs at h with hlt
  · exact h hlt
  · rw [Nat.sub_eq_zero_of_le (by omega), copyBytes]
    exact h

/-- The second of the two stores is made. -/
theorem leads_resume {k : PopThen} {consumes : Bool}
    (h : (resume consumes k).1.Leads cap m m' (popResult es)) :
    k.Leads (popPass cap) m m' (popResult ((resume consumes k).2 :: es)) := by
  cases k with
  | again c => exact h
  | done c p => exact ⟨h.1, rfl⟩

/-- The decision of a pass that has come to a size: to refuse it, or to take the record. -/
theorem leads_examineSize {c : PopCall} {tail head : ℕ} (htail : tail = m.control.tailPublish)
    (hhead : head = m.control.headPublish) (hne : head ≠ tail) (hroom : 16 ≤ cap - head % cap)
    (hflags : m.ring.load (head % cap + 6) 2 &&& kWrapFlag = 0)
    (h : (examineSize cap c tail head (m.ring.load (head % cap) 4)).1.Leads cap m m'
      (popResult es)) :
    Pops (popPass cap c) m m'
      (popResult ((examineSize cap c tail head (m.ring.load (head % cap) 4)).2 :: es)) := by
  subst htail hhead
  have hshort : ¬ cap - m.control.headPublish % cap < sizeofRecordHeader := not_lt.mpr hroom
  unfold examineSize at h ⊢
  split_ifs at h ⊢ with hremaining havailable
  · obtain ⟨rfl, hres⟩ := h
    have hpass : popPass cap c m' = .refuse := by
      simp only [popPass, hne, hshort, hflags, hremaining, if_true, if_false, ne_eq,
        not_true_eq_false]
    have hsame : popResult (.refused :: es) = popResult es := rfl
    rw [hsame, hres]
    exact .refuse hpass
  · obtain ⟨rfl, hres⟩ := h
    have hpass : popPass cap c m' = .refuse := by
      simp only [popPass, hne, hshort, hflags, hremaining, havailable, if_true, if_false, ne_eq,
        not_true_eq_false]
    have hsame : popResult (.refused :: es) = popResult es := rfl
    rw [hsame, hres]
    exact .refuse hpass
  · obtain ⟨rfl, hres⟩ := leads_copying (Nat.zero_le _) h
    have hsame : popResult (.internal :: es) = popResult es := rfl
    rw [hsame, hres]
    refine .take ?_
    simp only [popPass, hne, hshort, hflags, hremaining, havailable, if_false, ne_eq,
      not_true_eq_false]
    rfl

/-- A step inside a call leads to what is behind it. -/
theorem Leads.step (hs : pc.step order cap m .run = some (eff, pc', e))
    (h : pc'.Leads cap (eff.apply m) m' (popResult es)) :
    pc.Leads cap m m' (popResult (e :: es)) := by
  cases pc with
  | idle => cases hs
  | loadTail c =>
    cases hs
    exact h rfl
  | loadHead c tail =>
    rintro rfl
    cases PopPc.step_cases hs with
    | empty _ _ heq =>
      obtain ⟨hmem, hres⟩ := h
      have hsame : popResult (.refused :: es) = popResult es := rfl
      rw [hsame, hres, hmem]
      exact .refuse (by simp only [popPass, heq, if_true])
    | skip _ _ hne hshort =>
      have hrest := leads_advance h
      exact .skip (by simp only [popPass, hne, if_false, sizeofRecordHeader, hshort, if_true]) hrest
    | header _ _ hne hroom => exact h rfl rfl hne hroom
  | loadFlags c tail head =>
    rintro rfl rfl hne hroom
    have hshort : ¬ cap - m.control.headPublish % cap < sizeofRecordHeader := not_lt.mpr hroom
    cases PopPc.step_cases hs with
    | wrap _ _ _ hflag =>
      have hrest := leads_advance h
      exact .skip
        (by simp only [popPass, hne, if_false, hshort, hflag, ne_eq, not_false_eq_true, if_true])
        hrest
    | record _ _ _ hflag => exact h rfl rfl hne hroom hflag
  | loadSize c tail head =>
    intro htail hhead hne hroom hflags
    obtain ⟨rfl, heq⟩ := Prod.mk.inj (Option.some.inj hs)
    have hpc := congrArg Prod.fst heq
    have hevent := congrArg Prod.snd heq
    dsimp only at hpc hevent
    rw [← hpc] at h
    rw [← hevent]
    exact leads_examineSize htail hhead hne hroom hflags h
  | copy c head size i out =>
    cases hs
    intro hi
    obtain ⟨hmem, hres⟩ := leads_copying (Nat.succ_le_of_lt hi) h
    have hleft : size - i = (size - (i + 1)) + 1 := by omega
    rw [hleft, copyBytes]
    exact ⟨hmem, hres⟩
  | loadType c head size out =>
    cases PopPc.step_cases hs with
    | type _ _ _ _ hno =>
      obtain ⟨hmem, hres⟩ := leads_advance h
      have hheader : readHeader cap m.ring c head out =
          ⟨out, m.ring.load (head % cap + 4) 2, none⟩ := by
        simp only [readHeader, hno, Bool.false_eq_true, if_false]
      exact ⟨hmem, by rw [hheader]; exact hres⟩
    | typeThen _ _ _ _ hyes => exact h hyes rfl
  | loadSequence c head size out type =>
    cases hs
    rintro hyes rfl
    have hrest := leads_advance h
    simp only [readHeader, hyes, if_true]
    exact hrest
  | publish head k last =>
    intro hother
    cases last with
    | false =>
      cases hs
      have hrest := h fun _ => rfl
      cases k <;> exact hrest
    | true =>
      cases PopPc.step_cases hs
      have hmem : (Effect.headPublish head).apply m = m.atHead head := by
        rw [Shared.atHead, ← hother rfl]
        rfl
      rw [hmem] at h
      exact leads_resume h
  | reserve head k last =>
    intro hother
    cases last with
    | false =>
      cases hs
      have hrest := h fun _ => rfl
      exact hrest
    | true =>
      cases PopPc.step_cases hs
      have hmem : (Effect.headReserve head).apply m = m.atHead head := by
        rw [Shared.atHead, ← hother rfl]
        rfl
      rw [hmem] at h
      exact leads_resume h

end PopPc

/-- A complete call of `try_pop_internal` leaves and returns what its passes say. -/
theorem pops_of_popCall {order : HeadOrder} {cap : ℕ} {m m' : Shared} {c : PopCall}
    {choices : List Bool} {res : Option Popped}
    (h : popCall order cap m c choices = some (m', res)) :
    Pops (popPass cap c) m m' res := by
  obtain ⟨⟨⟨m₁, pc⟩, es⟩, hcall, heq⟩ := Option.map_eq_some_iff.mp h
  obtain ⟨s₁, e, es', hfirst, rfl, hp, hidle⟩ := Machine.path_of_call hcall
  obtain ⟨rfl, rfl⟩ := Prod.mk.inj heq
  cases hfirst
  have hend : pc.Leads cap m₁ m₁ (popResult []) := by
    cases pc <;> first | exact ⟨rfl, rfl⟩ | cases hidle
  exact hp.backward (fun s es => s.2.Leads cap s.1 m₁ (popResult es)) (by
    rintro s l s₁ e es ⟨-, rfl⟩ hs hleads
    obtain ⟨eff', hstep', hmem'⟩ := popMachine_step hs
    rw [hmem'] at hleads
    exact hleads.step hstep') hend

namespace Mpmc

/-- The decisions of a pass of `SharedRingBufferMPMC::try_pop`. -/
def popPass (cap : ℕ) (c : PopCall) (m : Shared) : PopPass :=
  let head := m.control.headReserve
  let tail := m.control.tailPublish
  let remaining := cap - head % cap
  let available := sub64 tail head
  let size := m.ring.load (head % cap) 4
  if head = tail then .refuse
  else if remaining < sizeofRecordHeader then
    if available < remaining then .refuse else .skip (u64 (head + remaining))
  else if available < sizeofRecordHeader then .refuse
  else if m.ring.load (head % cap + 6) 2 &&& kWrapFlag ≠ 0 then
    if available < remaining then .refuse else .skip (u64 (head + remaining))
  else if remaining < recordSize size then .refuse
  else if available < recordSize size then .refuse
  else .take (u64 (head + recordSize size)) (readRecord cap m.ring c head size)

/-- The result of a call with these events. -/
def popResult (es : List PopEvent) : Option Popped := (returnedOf es).head?.map fun p => p.2.2

/-- The decision that a compare-exchange is for. -/
def Claim.pass (cap : ℕ) (m : Shared) (head newHead : ℕ) : Claim → PopPass
  | .again _ => .skip newHead
  | .take c size => .take newHead (readRecord cap m.ring c head size)

/-- What a consumer at this place leaves and returns. -/
def Pc.Leads (cap : ℕ) (m m' : Shared) (res : Option Popped) : Pc → Prop
  | idle => m' = m ∧ res = none
  | loadTail c => Pops (popPass cap c) m m' res
  | loadHead c tail => tail = m.control.tailPublish → Pops (popPass cap c) m m' res
  | loadFlags c tail head => tail = m.control.tailPublish → head = m.control.headReserve →
      head ≠ tail → 16 ≤ cap - head % cap → 16 ≤ sub64 tail head → Pops (popPass cap c) m m' res
  | loadSize c tail head => tail = m.control.tailPublish → head = m.control.headReserve →
      head ≠ tail → 16 ≤ cap - head % cap → 16 ≤ sub64 tail head →
      m.ring.load (head % cap + 6) 2 &&& kWrapFlag = 0 → Pops (popPass cap c) m m' res
  | cas head newHead k => popPass cap k.call m = k.pass cap m head newHead →
      Pops (popPass cap k.call) m m' res
  | copy c head newHead size i out => i < size → m.control.headReserve = newHead →
      m' = m.atHead newHead ∧ res = some (readHeader cap m.ring c head
        (copyBytes m.ring (head % cap + sizeofRecordHeader) i (size - i) out))
  | loadType c head newHead out => m.control.headReserve = newHead →
      m' = m.atHead newHead ∧ res = some (readHeader cap m.ring c head out)
  | loadSequence c head newHead out type => m.control.headReserve = newHead →
      type = m.ring.load (head % cap + 4) 2 →
      m' = m.atHead newHead ∧ res = some (readHeader cap m.ring c head out)
  | awaitTurn _ newHead k => m.control.headReserve = newHead →
      k.Leads (popPass cap) (m.atHead newHead) m' res
  | publish _ newHead k => m.control.headReserve = newHead →
      k.Leads (popPass cap) (m.atHead newHead) m' res

namespace Pc

variable {cap : ℕ} {m m' : Shared} {pc pc' : Pc} {l : PopLabel} {eff : Effect} {e : PopEvent}
  {es : List PopEvent} {res : Option Popped}

/-- With `i` bytes of the payload copied. -/
theorem leads_copying {c : PopCall} {head newHead size i : ℕ} {out : List UInt8} (hi : i ≤ size)
    (hres : m.control.headReserve = newHead)
    (h : (copying c head newHead size i out).Leads cap m m' res) :
    m' = m.atHead newHead ∧ res = some (readHeader cap m.ring c head
      (copyBytes m.ring (head % cap + sizeofRecordHeader) i (size - i) out)) := by
  unfold copying at h
  split_ifs at h with hlt
  · exact h hlt hres
  · rw [Nat.sub_eq_zero_of_le (by omega), copyBytes]
    exact h hres

/-- A pass that refuses leaves the memory as it is. -/
theorem Leads.refused {c : PopCall} (hpass : popPass cap c m = .refuse)
    (h : idle.Leads cap m m' (popResult es)) :
    Pops (popPass cap c) m m' (popResult (.refused :: es)) := by
  obtain ⟨rfl, hres⟩ := h
  have hsame : popResult (.refused :: es) = popResult es := rfl
  rw [hsame, hres]
  exact .refuse hpass

/-- The decision of a pass behind the load of `head_reserve`. -/
theorem leads_compareHead {c : PopCall} {tail head : ℕ} (htail : tail = m.control.tailPublish)
    (hhead : head = m.control.headReserve)
    (h : (compareHead cap c tail head).1.Leads cap m m' (popResult es)) :
    Pops (popPass cap c) m m' (popResult ((compareHead cap c tail head).2 :: es)) := by
  subst htail hhead
  unfold compareHead at h ⊢
  dsimp only at h ⊢
  split_ifs at h ⊢ with hempty hshort havailable hheader
  · exact h.refused (by simp only [popPass, hempty, if_true])
  · exact h.refused (by simp only [popPass, hempty, hshort, havailable, if_true, if_false])
  · exact h (by simp only [popPass, Claim.call, Claim.pass, hempty, hshort, havailable,
      if_true, if_false])
  · exact h.refused (by simp only [popPass, hempty, hshort, hheader, if_true, if_false])
  · exact h rfl rfl hempty (not_lt.mp hshort) (not_lt.mp hheader)

/-- The decision of a pass behind the load of the flags. -/
theorem leads_examineFlags {c : PopCall} {tail head : ℕ} (htail : tail = m.control.tailPublish)
    (hhead : head = m.control.headReserve) (hne : head ≠ tail) (hroom : 16 ≤ cap - head % cap)
    (hthere : 16 ≤ sub64 tail head)
    (h : (examineFlags cap c tail head (m.ring.load (head % cap + 6) 2)).1.Leads cap m m'
      (popResult es)) :
    Pops (popPass cap c) m m'
      (popResult ((examineFlags cap c tail head (m.ring.load (head % cap + 6) 2)).2 :: es)) := by
  subst htail hhead
  have hshort : ¬ cap - m.control.headReserve % cap < sizeofRecordHeader := not_lt.mpr hroom
  have hheader : ¬ sub64 m.control.tailPublish m.control.headReserve < sizeofRecordHeader :=
    not_lt.mpr hthere
  unfold examineFlags at h ⊢
  dsimp only at h ⊢
  by_cases hflag : m.ring.load (m.control.headReserve % cap + 6) 2 &&& kWrapFlag = 0
  · rw [if_neg (not_not.mpr hflag)] at h ⊢
    exact h rfl rfl hne hroom hthere hflag
  · rw [if_pos hflag] at h ⊢
    split_ifs at h ⊢ with havailable
    · exact h.refused (by simp only [popPass, hne, hshort, hheader, hflag, havailable, ne_eq,
        not_false_eq_true, if_true, if_false])
    · exact h
        (by simp only [popPass, Claim.call, Claim.pass, hne, hshort, hheader, hflag, havailable,
        ne_eq, not_false_eq_true, if_true, if_false])

/-- The decision of a pass behind the load of the size. -/
theorem leads_examineSize {c : PopCall} {tail head : ℕ} (htail : tail = m.control.tailPublish)
    (hhead : head = m.control.headReserve) (hne : head ≠ tail) (hroom : 16 ≤ cap - head % cap)
    (hthere : 16 ≤ sub64 tail head) (hflag : m.ring.load (head % cap + 6) 2 &&& kWrapFlag = 0)
    (h : (examineSize cap c tail head (m.ring.load (head % cap) 4)).1.Leads cap m m'
      (popResult es)) :
    Pops (popPass cap c) m m'
      (popResult ((examineSize cap c tail head (m.ring.load (head % cap) 4)).2 :: es)) := by
  subst htail hhead
  have hshort : ¬ cap - m.control.headReserve % cap < sizeofRecordHeader := not_lt.mpr hroom
  have hheader : ¬ sub64 m.control.tailPublish m.control.headReserve < sizeofRecordHeader :=
    not_lt.mpr hthere
  unfold examineSize at h ⊢
  split_ifs at h ⊢ with hremaining havailable
  · exact h.refused (by simp only [popPass, hne, hshort, hheader, hflag, hremaining, ne_eq,
      not_true_eq_false, if_true, if_false])
  · exact h.refused
      (by simp only [popPass, hne, hshort, hheader, hflag, hremaining, havailable, ne_eq,
      not_true_eq_false, if_true, if_false])
  · exact h (by simp only [popPass, Claim.call, Claim.pass, hne, hshort, hheader, hflag, hremaining,
      havailable, ne_eq, not_true_eq_false, if_false])

/-- What a claim leads to. -/
theorem leads_claimed {head newHead : ℕ} {k : Claim}
    (hpass : popPass cap k.call m = k.pass cap m head newHead)
    (h : (claimed head newHead k).Leads cap ((Effect.headReserve newHead).apply m) m' res) :
    Pops (popPass cap k.call) m m' res := by
  cases k with
  | again c =>
    have hrest := h rfl
    exact .skip hpass hrest
  | take c size =>
    obtain ⟨rfl, rfl⟩ := leads_copying (Nat.zero_le _) rfl h
    exact .take hpass

/-- A step inside a call that does not fail leads to what is behind it. -/
theorem Leads.run (hs : pc.step cap m .run = some (eff, pc', e))
    (h : pc'.Leads cap (eff.apply m) m' (popResult es)) :
    pc.Leads cap m m' (popResult (e :: es)) := by
  cases pc with
  | idle => cases hs
  | loadTail c =>
    cases hs
    exact h rfl
  | loadHead c tail =>
    intro htail
    obtain ⟨rfl, hpc⟩ := Prod.mk.inj (Option.some.inj hs)
    obtain ⟨rfl, rfl⟩ := Prod.ext_iff.mp hpc
    exact leads_compareHead htail rfl h
  | loadFlags c tail head =>
    intro htail hhead hne hroom hthere
    obtain ⟨rfl, hpc⟩ := Prod.mk.inj (Option.some.inj hs)
    obtain ⟨rfl, rfl⟩ := Prod.ext_iff.mp hpc
    exact leads_examineFlags htail hhead hne hroom hthere h
  | loadSize c tail head =>
    intro htail hhead hne hroom hthere hflag
    obtain ⟨rfl, hpc⟩ := Prod.mk.inj (Option.some.inj hs)
    obtain ⟨rfl, rfl⟩ := Prod.ext_iff.mp hpc
    exact leads_examineSize htail hhead hne hroom hthere hflag h
  | cas head newHead k =>
    intro hpass
    simp only [Pc.step, exchange] at hs
    split_ifs at hs
    · cases hs
      exact leads_claimed hpass h
    · cases hs
      exact h
  | copy c head newHead size i out =>
    cases hs
    intro hi hres
    obtain ⟨hmem, hpopped⟩ := leads_copying (Nat.succ_le_of_lt hi) hres h
    have hleft : size - i = (size - (i + 1)) + 1 := by omega
    rw [hleft, copyBytes]
    exact ⟨hmem, hpopped⟩
  | loadType c head newHead out =>
    cases hs
    exact fun hres => h hres rfl
  | loadSequence c head newHead out type =>
    cases hs
    rintro hres rfl
    exact h hres
  | awaitTurn head newHead k =>
    intro hres
    simp only [Pc.step] at hs
    split_ifs at hs
    · cases hs
      exact h hres
    · cases hs
      exact h hres
  | publish head newHead k =>
    intro hres
    have hmem : (Effect.headPublish newHead).apply m = m.atHead newHead := by
      rw [Shared.atHead, ← hres]
      rfl
    cases k with
    | again c =>
      cases hs
      rw [hmem] at h
      exact h
    | done c p =>
      cases hs
      rw [hmem] at h
      exact ⟨h.1, rfl⟩

/-- A compare-exchange that fails spuriously leads to another pass, from the same memory. -/
theorem Leads.retry (hs : pc.step cap m .fail = some (eff, pc', e))
    (h : pc'.Leads cap (eff.apply m) m' (popResult es)) :
    pc.Leads cap m m' (popResult (e :: es)) := by
  cases pc with
  | cas head newHead k =>
    cases hs
    exact fun _ => h
  | _ => cases hs

end Pc

/-- A complete call of `try_pop` leaves and returns what its passes say, whichever of its
compare-exchanges have failed. -/
theorem pops_of_popCall {cap : ℕ} {m m' : Shared} {c : PopCall} {choices : List Bool}
    {res : Option Popped} (h : popCall cap m c choices = some (m', res)) :
    Pops (popPass cap c) m m' res := by
  obtain ⟨⟨⟨m₁, pc⟩, es⟩, hcall, heq⟩ := Option.map_eq_some_iff.mp h
  obtain ⟨s₁, e, es', hfirst, rfl, hp, hidle⟩ := Machine.path_of_call hcall
  obtain ⟨rfl, rfl⟩ := Prod.mk.inj heq
  cases hfirst
  have hend : pc.Leads cap m₁ m₁ (popResult []) := by
    cases pc <;> first | exact ⟨rfl, rfl⟩ | cases hidle
  exact hp.backward (fun s es => s.2.Leads cap s.1 m₁ (popResult es)) (by
    rintro s l s₁ e es ⟨b, rfl⟩ hs hleads
    obtain ⟨eff', hstep', hmem'⟩ := popMachine_step hs
    rw [hmem'] at hleads
    cases b with
    | false => exact hleads.run hstep'
    | true => exact hleads.retry hstep') hend

end Mpmc

end LfRing

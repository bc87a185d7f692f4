import LfRing.Ring.Alone
import LfRing.Ring.MpmcReader

/-!
# A call of the many consumers' `try_pop` that runs alone

What `Ring/Alone.lean` says of the single consumer's `try_pop`, for that of `SharedRingBufferMPMC`:
a consumer that is not disturbed finds `head_reserve` where `head_publish` is, its compare-exchange
fails at most spuriously, and it does not have to wait for its turn. So none of its checks but the
first can make it return false, its call returns, and it returns the first record ahead.
-/

namespace LfRing.Mpmc

/-- One consumer with the shared memory to itself. -/
def popMachine (cap : ℕ) (m : Shared) : Machine (Shared × Pc) PopLabel PopEvent where
  init := (m, .idle)
  step s l := (s.2.step cap s.1 l).map fun x => ((x.1.apply s.1, x.2.1), x.2.2)

/-- The steps of the consumer alone, taken apart. -/
theorem popMachine_step {cap : ℕ} {m₀ : Shared} {s s' : Shared × Pc} {l : PopLabel} {e : PopEvent}
    (h : (popMachine cap m₀).step s l = some (s', e)) :
    ∃ eff, s.2.step cap s.1 l = some (eff, s'.2, e) ∧ s'.1 = eff.apply s.1 := by
  obtain ⟨⟨eff, pc, pe⟩, hs, heq⟩ := Option.map_eq_some_iff.mp h
  cases heq
  exact ⟨eff, hs, rfl⟩

/-- The call that goes on behind a chunk. -/
def callOf : PopThen → PopCall
  | .again c => c
  | .done c _ => c

/-- The record at the head, and where it ends. -/
def RecordAhead (m : Shared) (ahead : List Chunk) (head newHead : ℕ) (r : Record) : Prop :=
  head = m.control.headPublish ∧ newHead = head + recordSize r.payload.length ∧
    ∃ rest, ahead = .record r :: rest

namespace Pc

/-- What a consumer knows that is alone inside the call `c`. -/
def Alone (cap : ℕ) (m : Shared) (ahead : List Chunk) (c : PopCall) : Pc → Prop
  | idle => False
  | loadTail d => d = c ∧ m.control.headReserve = m.control.headPublish
  | loadHead d tail => d = c ∧ m.control.headReserve = m.control.headPublish ∧
      tail = m.control.tailPublish
  | loadFlags d tail head => d = c ∧ m.control.headReserve = m.control.headPublish ∧
      tail = m.control.tailPublish ∧ head = m.control.headPublish ∧ head ≠ tail ∧
      16 ≤ cap - head % cap
  | loadSize d tail head => d = c ∧ m.control.headReserve = m.control.headPublish ∧
      tail = m.control.tailPublish ∧ head = m.control.headPublish ∧
      ∃ r rest, ahead = .record r :: rest
  | cas head newHead (.again d) => d = c ∧ m.control.headReserve = m.control.headPublish ∧
      head = m.control.headPublish ∧ (PopThen.again c).For m ahead newHead
  | cas head newHead (.take d size) => d = c ∧ m.control.headReserve = m.control.headPublish ∧
      ∃ r, RecordAhead m ahead head newHead r ∧ size = r.payload.length
  | copy d head newHead size i out => d = c ∧ m.control.headReserve = newHead ∧ i < size ∧
      ∃ r, RecordAhead m ahead head newHead r ∧ size = r.payload.length ∧
        out = r.payload.take i ++ (resized c.out size).drop i
  | loadType d head newHead out => d = c ∧ m.control.headReserve = newHead ∧
      ∃ r, RecordAhead m ahead head newHead r ∧ out = r.payload ++ c.out.drop r.payload.length
  | loadSequence d head newHead out type => d = c ∧ m.control.headReserve = newHead ∧
      ∃ r, RecordAhead m ahead head newHead r ∧ out = r.payload ++ c.out.drop r.payload.length ∧
        type = r.type
  | awaitTurn head newHead k => callOf k = c ∧ m.control.headReserve = newHead ∧
      head = m.control.headPublish ∧ k.For m ahead newHead
  | publish head newHead k => callOf k = c ∧ m.control.headReserve = newHead ∧
      head = m.control.headPublish ∧ k.For m ahead newHead

/-- The copy of a payload, with `i` bytes done. -/
theorem alone_copying {cap : ℕ} {m : Shared} {ahead : List Chunk} {c : PopCall} {r : Record}
    {head newHead i : ℕ} (hr : RecordAhead m ahead head newHead r)
    (hres : m.control.headReserve = newHead) (hi : i ≤ r.payload.length) :
    (copying c head newHead r.payload.length i
      (r.payload.take i ++ (resized c.out r.payload.length).drop i)).Alone cap m ahead c := by
  unfold copying
  split_ifs with hlt
  · exact ⟨rfl, hres, hlt, r, hr, rfl, rfl⟩
  · obtain rfl : i = r.payload.length := by omega
    exact ⟨rfl, hres, r, hr, take_append_drop_resized _ _⟩

/-- How many kinds of steps a pass has before it. -/
def rank : Pc → ℕ
  | idle => 0
  | publish _ _ _ => 1
  | awaitTurn _ _ _ => 2
  | loadSequence _ _ _ _ _ => 3
  | loadType _ _ _ _ => 4
  | copy _ _ _ _ _ _ => 5
  | cas _ _ _ => 6
  | loadSize _ _ _ => 7
  | loadFlags _ _ _ => 8
  | loadHead _ _ => 9
  | loadTail _ => 10

/-- How many bytes of the payload are left to copy. -/
def left : Pc → ℕ
  | copy _ _ _ size i _ => size - i
  | _ => 0

/-- A consumer inside a call has a step. -/
theorem enabled {pc : Pc} (cap : ℕ) (m : Shared) (h : pc ≠ .idle) :
    ∃ eff pc' e, pc.step cap m .run = some (eff, pc', e) := by
  cases pc <;> first | exact absurd rfl h | exact ⟨_, _, _, rfl⟩

end Pc

section Decisions

variable {cap : ℕ} {m : Shared} {ahead : List Chunk} {c : PopCall}

/-- What is at the head, if anything. -/
theorem ahead_at_head (hs : Stream cap m.ring m.control.headPublish ahead m.control.tailPublish)
    (hlt : m.control.tailPublish < 2^64) (hne : m.control.headPublish ≠ m.control.tailPublish) :
    ∃ d rest, ahead = d :: rest ∧ d.Fits cap m.control.headPublish ∧
      d.At cap m.ring m.control.headPublish ∧
      u64 (m.control.headPublish + d.length) = m.control.headPublish + d.length ∧
      d.length ≤ sub64 m.control.tailPublish m.control.headPublish := by
  obtain ⟨d, rest, rfl⟩ := hs.exists_cons hne
  obtain ⟨hfit, hat, hrest⟩ := hs
  have hle := hrest.le
  refine ⟨d, rest, rfl, hfit, hat, u64_of_lt (by omega), ?_⟩
  rw [sub64_of_le (by omega) hlt]
  omega

/-- The load of `head_reserve` by a consumer that is alone. -/
theorem compareHead_alone
    (hs : Stream cap m.ring m.control.headPublish ahead m.control.tailPublish)
    (hlt : m.control.tailPublish < 2^64)
    (hres : m.control.headReserve = m.control.headPublish) :
    (ahead = [] ∧ Pc.compareHead cap c m.control.tailPublish m.control.headPublish =
        (.idle, .refused)) ∨
      ∃ pc, Pc.compareHead cap c m.control.tailPublish m.control.headPublish = (pc, .internal) ∧
        pc.Alone cap m ahead c ∧ pc.rank < 9 := by
  unfold Pc.compareHead
  dsimp only
  split_ifs with hempty hshort hfew hfew
  · rw [← hempty] at hs
    exact Or.inl ⟨hs.eq_nil, rfl⟩
  · -- The end of the ring is a skip, and so all of it is available.
    obtain ⟨d, rest, rfl, hfit, -, -, hle⟩ := ahead_at_head hs hlt hempty
    rw [← (hfit.of_short hshort).2] at hfew
    omega
  · obtain ⟨d, rest, rfl, hfit, -, hu, -⟩ := ahead_at_head hs hlt hempty
    obtain ⟨hnone, hlen⟩ := hfit.of_short hshort
    refine Or.inr ⟨_, rfl, ⟨rfl, hres, rfl, d, rest, rfl, hnone, ?_⟩, by simp [Pc.rank]⟩
    rw [← hlen]
    exact hu
  · -- A chunk with a header is at least as long as the header.
    obtain ⟨d, rest, rfl, hfit, -, -, hle⟩ := ahead_at_head hs hlt hempty
    have hlong : 16 ≤ d.length := by
      cases d with
      | skip len =>
        have h1 := hfit.1
        have h2 := hfit.2.2
        exact absurd (show cap - m.control.headPublish % cap < 16 by omega) hshort
      | wrap len => exact hfit.2
      | record r => exact le_trans (Nat.le_add_right _ _) (le_recordSize hfit.2.1)
    have hshort' : sub64 m.control.tailPublish m.control.headPublish < 16 := hfew
    omega
  · exact Or.inr ⟨_, rfl, ⟨rfl, hres, rfl, rfl, hempty, not_lt.mp hshort⟩, by simp [Pc.rank]⟩

/-- The load of the flags by a consumer that is alone. -/
theorem examineFlags_alone
    (hs : Stream cap m.ring m.control.headPublish ahead m.control.tailPublish)
    (hlt : m.control.tailPublish < 2^64)
    (hres : m.control.headReserve = m.control.headPublish)
    (hne : m.control.headPublish ≠ m.control.tailPublish)
    (hroom : 16 ≤ cap - m.control.headPublish % cap) :
    ∃ pc, Pc.examineFlags cap c m.control.tailPublish m.control.headPublish
        (m.ring.load (m.control.headPublish % cap + 6) 2) = (pc, .internal) ∧
      pc.Alone cap m ahead c ∧ pc.rank < 8 := by
  obtain ⟨d, rest, rfl, hfit, hat, hu, hle⟩ := ahead_at_head hs hlt hne
  unfold Pc.examineFlags
  dsimp only
  split_ifs with hflag hfew
  · obtain ⟨-, hlen⟩ := hat.of_wrapFlag hfit hroom hflag
    omega
  · obtain ⟨hnone, hlen⟩ := hat.of_wrapFlag hfit hroom hflag
    refine ⟨_, rfl, ⟨rfl, hres, rfl, d, rest, rfl, hnone, ?_⟩, by simp [Pc.rank]⟩
    rw [← hlen]
    exact hu
  · obtain ⟨r, rfl⟩ := hat.of_not_wrapFlag hfit hroom (not_not.mp hflag)
    exact ⟨_, rfl, ⟨rfl, hres, rfl, rfl, r, rest, rfl⟩, by simp [Pc.rank]⟩

/-- The load of the size by a consumer that is alone. -/
theorem examineSize_alone {r : Record} {rest : List Chunk} (ha : ahead = .record r :: rest)
    (hs : Stream cap m.ring m.control.headPublish ahead m.control.tailPublish)
    (hlt : m.control.tailPublish < 2^64)
    (hres : m.control.headReserve = m.control.headPublish) :
    ∃ pc, Pc.examineSize cap c m.control.tailPublish m.control.headPublish
        (m.ring.load (m.control.headPublish % cap) 4) = (pc, .internal) ∧
      pc.Alone cap m ahead c ∧ pc.rank < 7 := by
  subst ha
  obtain ⟨hfit, hat, hrest⟩ := hs
  have hle : m.control.headPublish + recordSize r.payload.length ≤ m.control.tailPublish :=
    hrest.le
  have hroom := hfit.1
  rw [hat.record_size hfit]
  unfold Pc.examineSize
  rw [if_neg (by omega), sub64_of_le (by omega) hlt, if_neg (by omega), u64_of_lt (by omega)]
  exact ⟨_, rfl, ⟨rfl, hres, r, ⟨rfl, rfl, rest, rfl⟩, rfl⟩, by simp [Pc.rank]⟩

end Decisions

/-! ## What a call does -/

/-- The results that a list of events returns, with the positions of their records. -/
def returnedOf (es : List PopEvent) : List (ℕ × PopCall × Popped) := es.flatMap PopEvent.returned?

/-- One more event adds the result that it returns, if it returns one. -/
@[simp] theorem returnedOf_append (es : List PopEvent) (e : PopEvent) :
    returnedOf (es ++ [e]) = returnedOf es ++ e.returned? := by
  simp [returnedOf]

/-- A step of a consumer inside a call. -/
def Inside (l : PopLabel) : Prop := l = .run ∨ l = .fail

/-- A call `c` in progress, or at its end, that began on the memory `m₀` with `ahead₀` ahead. -/
structure Popping (cap : ℕ) (c : PopCall) (m₀ : Shared) (ahead₀ : List Chunk) (m : Shared) (pc : Pc)
    (es : List PopEvent) (ahead : List Chunk) : Prop where
  /-- What the producers see of the call. -/
  view : ConsumerView m₀ m
  /-- The ring has what is ahead. -/
  stream : Stream cap m.ring m.control.headPublish ahead m.control.tailPublish
  /-- The tail has not wrapped. -/
  tail_lt : m.control.tailPublish < 2^64
  /-- Inside the call no record has been passed. At its end the first record ahead has been
  returned, or there was none. -/
  result : (pc.Alone cap m ahead c ∧ returnedOf es = [] ∧ records ahead = records ahead₀) ∨
    pc = .idle ∧ m.control.headReserve = m.control.headPublish ∧
      ((returnedOf es = [] ∧ records ahead₀ = [] ∧ ahead = []) ∨
        ∃ head r res, returnedOf es = [(head, c, res)] ∧ res.Of c r ∧
          records ahead₀ = r :: records ahead)

namespace Popping

variable {cap : ℕ} {c : PopCall} {m₀ m : Shared} {ahead₀ ahead : List Chunk} {pc pc' : Pc}
  {es : List PopEvent} {e : PopEvent}

/-- The start of a call. -/
theorem start (hs : Stream cap m.ring m.control.headPublish ahead m.control.tailPublish)
    (hlt : m.control.tailPublish < 2^64) (hres : m.control.headReserve = m.control.headPublish)
    (c : PopCall) : Popping cap c m ahead m (.loadTail c) [] ahead :=
  ⟨.refl hs.le, hs, hlt, Or.inl ⟨⟨rfl, hres⟩, rfl, rfl⟩⟩

/-- A step inside the call that has no effect on the shared memory. -/
theorem of_silent (h : Popping cap c m₀ ahead₀ m pc es ahead) (hret : returnedOf es = [])
    (hrec : records ahead = records ahead₀) (hpc : pc'.Alone cap m ahead c) :
    Popping cap c m₀ ahead₀ m pc' (es ++ [.internal]) ahead := by
  refine ⟨h.view, h.stream, h.tail_lt, Or.inl ⟨hpc, ?_, hrec⟩⟩
  rw [returnedOf_append, hret]
  rfl

/-- The compare-exchange that claims the chunk ahead. -/
theorem of_claim {newHead : ℕ} (h : Popping cap c m₀ ahead₀ m pc es ahead)
    (hret : returnedOf es = []) (hrec : records ahead = records ahead₀)
    (hpc : pc'.Alone cap ((Effect.headReserve newHead).apply m) ahead c) :
    Popping cap c m₀ ahead₀ ((Effect.headReserve newHead).apply m) pc'
      (es ++ [.internal]) ahead := by
  obtain ⟨h1, h2, h3, h4, h5, h6⟩ := h.view
  refine ⟨⟨h1, h2, h3, h4, h5, h6⟩, h.stream, h.tail_lt, Or.inl ⟨hpc, ?_, hrec⟩⟩
  rw [returnedOf_append, hret]
  rfl

/-- The store of `head_publish` behind the chunk ahead. -/
theorem of_publish {head newHead : ℕ} {k : PopThen}
    (h : Popping cap c m₀ ahead₀ m (.publish head newHead k) es ahead)
    (hret : returnedOf es = []) (hrec : records ahead = records ahead₀)
    (hpc : (Pc.publish head newHead k).Alone cap m ahead c) :
    ∃ ahead', Popping cap c m₀ ahead₀ ((Effect.headPublish newHead).apply m) (Pc.published head k).1
      (es ++ [(Pc.published head k).2]) ahead' := by
  obtain ⟨hc, hres, -, hfor⟩ := hpc
  obtain ⟨hlt, hle⟩ := PopThen.For.lt hfor h.stream
  have hs := h.stream
  have h1 := h.view.le_headPublish
  have h3 := h.view.tailPublish_eq
  have hview : ConsumerView m₀ ((Effect.headPublish newHead).apply m) :=
    ⟨le_trans h1 (le_of_lt hlt), hle.trans (le_of_eq h3), h3, h.view.tailReserve_eq,
      h.view.sequence_eq, h.view.ring_eq⟩
  cases k with
  | again d =>
    -- The chunk passed has no record, so the next pass looks for the same one.
    obtain ⟨f, rest, rfl, hnone, hnew⟩ := hfor
    refine ⟨rest, hview, ?_, h.tail_lt, Or.inl ⟨⟨hc, hres⟩, ?_, ?_⟩⟩
    · change Stream cap m.ring newHead rest m.control.tailPublish
      rw [hnew]
      exact hs.2.2
    · rw [returnedOf_append, hret]
      rfl
    · rw [← hrec]
      cases f with
      | record r => cases hnone
      | _ => rfl
  | done d res =>
    obtain ⟨r, rest, rfl, hof, hnew⟩ := hfor
    obtain rfl : d = c := hc
    refine ⟨rest, hview, ?_, h.tail_lt, Or.inr ⟨rfl, hres, Or.inr ⟨head, r, res, ?_, hof, ?_⟩⟩⟩
    · change Stream cap m.ring newHead rest m.control.tailPublish
      rw [hnew]
      exact hs.2.2
    · rw [returnedOf_append, hret]
      rfl
    · rw [← hrec]
      rfl

/-- The record at the head, with its bytes. -/
theorem record_at {head newHead : ℕ} {r : Record} (h : Popping cap c m₀ ahead₀ m pc es ahead)
    (hr : RecordAhead m ahead head newHead r) :
    (Chunk.record r).Fits cap head ∧ (Chunk.record r).At cap m.ring head := by
  obtain ⟨rfl, -, rest, rfl⟩ := hr
  exact ⟨h.stream.1, h.stream.2.1⟩

/-- Every step inside the call keeps what is known of it. -/
theorem step {l : PopLabel} {eff : Effect} (h : Popping cap c m₀ ahead₀ m pc es ahead)
    (hl : Inside l) (hs : pc.step cap m l = some (eff, pc', e)) :
    ∃ ahead', Popping cap c m₀ ahead₀ (eff.apply m) pc' (es ++ [e]) ahead' := by
  -- The consumer is inside the call, as it has a step.
  obtain ⟨hpc, hret, hrec⟩ :
      pc.Alone cap m ahead c ∧ returnedOf es = [] ∧ records ahead = records ahead₀ := by
    rcases h.result with hin | ⟨rfl, -⟩
    · exact hin
    · rcases hl with rfl | rfl <;> cases hs
  have hsilent : ∀ pc : Pc, pc.Alone cap m ahead c →
      ∃ ahead', Popping cap c m₀ ahead₀ m pc (es ++ [.internal]) ahead' :=
    fun pc hpc => ⟨ahead, h.of_silent hret hrec hpc⟩
  cases pc with
  | idle => exact hpc.elim
  | loadTail d =>
    rcases hl with rfl | rfl <;> cases hs
    exact hsilent _ ⟨hpc.1, hpc.2, rfl⟩
  | loadHead d tail =>
    obtain ⟨rfl, hres, rfl⟩ := hpc
    rcases hl with rfl | rfl
    · rw [Pc.step, hres] at hs
      rcases compareHead_alone h.stream h.tail_lt hres with ⟨hnil, heq⟩ | ⟨pc, heq, hpc, -⟩
      · rw [heq] at hs
        cases hs
        refine ⟨ahead, h.view, h.stream, h.tail_lt, Or.inr ⟨rfl, hres, Or.inl ⟨?_, ?_, hnil⟩⟩⟩
        · rw [returnedOf_append, hret]
          rfl
        · rw [← hrec, hnil]
          rfl
      · rw [heq] at hs
        cases hs
        exact hsilent _ hpc
    · cases hs
  | loadFlags d tail head =>
    obtain ⟨rfl, hres, rfl, rfl, hne, hroom⟩ := hpc
    rcases hl with rfl | rfl
    · obtain ⟨pc, heq, hpc, -⟩ := examineFlags_alone h.stream h.tail_lt hres hne hroom
      rw [Pc.step, heq] at hs
      cases hs
      exact hsilent _ hpc
    · cases hs
  | loadSize d tail head =>
    obtain ⟨rfl, hres, rfl, rfl, r, rest, ha⟩ := hpc
    rcases hl with rfl | rfl
    · obtain ⟨pc, heq, hpc, -⟩ := examineSize_alone ha h.stream h.tail_lt hres
      rw [Pc.step, heq] at hs
      cases hs
      exact hsilent _ hpc
    · cases hs
  | cas head newHead k =>
    cases k with
    | again d =>
      obtain ⟨rfl, hres, rfl, hfor⟩ := hpc
      rcases hl with rfl | rfl
      · rw [Pc.step, Pc.exchange, if_pos hres] at hs
        cases hs
        exact ⟨ahead, h.of_claim hret hrec ⟨rfl, rfl, rfl, hfor⟩⟩
      · cases hs
        exact hsilent _ ⟨rfl, hres⟩
    | take d size =>
      obtain ⟨rfl, hres, r, hr, rfl⟩ := hpc
      rcases hl with rfl | rfl
      · rw [Pc.step, Pc.exchange, if_pos (hres.trans hr.1.symm)] at hs
        cases hs
        exact ⟨ahead, h.of_claim hret hrec
          (Pc.alone_copying (i := 0) hr rfl (Nat.zero_le _))⟩
      · cases hs
        exact hsilent _ ⟨rfl, hres⟩
  | copy d head newHead size i out =>
    obtain ⟨rfl, hres, hi, r, hr, rfl, rfl⟩ := hpc
    rcases hl with rfl | rfl <;> cases hs
    obtain ⟨-, hat⟩ := h.record_at hr
    have hlen : i < (resized d.out r.payload.length).length := by simp [resized]; omega
    change ∃ ahead', Popping cap d m₀ ahead₀ m (.copying d head newHead r.payload.length (i + 1)
      ((r.payload.take i ++ (resized d.out r.payload.length).drop i).set i
        (m.ring (head % cap + 16 + i)))) (es ++ [.internal]) ahead'
    rw [hat.record_byte hi, set_copied hi hlen]
    exact hsilent _ (Pc.alone_copying hr hres hi)
  | loadType d head newHead out =>
    obtain ⟨rfl, hres, r, hr, hout⟩ := hpc
    rcases hl with rfl | rfl <;> cases hs
    obtain ⟨hfit, hat⟩ := h.record_at hr
    exact hsilent _ ⟨rfl, hres, r, hr, hout, hat.record_type hfit⟩
  | loadSequence d head newHead out type =>
    obtain ⟨rfl, hres, r, hr, rfl, rfl⟩ := hpc
    rcases hl with rfl | rfl <;> cases hs
    obtain ⟨hfit, hat⟩ := h.record_at hr
    obtain ⟨rfl, hnew, rest, ha⟩ := hr
    rw [hat.record_sequence hfit]
    exact hsilent _ ⟨rfl, hres, rfl, r, rest, ha, ⟨rfl, rfl, rfl⟩, hnew⟩
  | awaitTurn head newHead k =>
    obtain ⟨hc, hres, hhead, hfor⟩ := hpc
    rcases hl with rfl | rfl
    · rw [Pc.step, if_pos hhead.symm] at hs
      cases hs
      exact hsilent _ ⟨hc, hres, hhead, hfor⟩
    · cases hs
  | publish head newHead k =>
    rcases hl with rfl | rfl
    · obtain ⟨ahead', hpub⟩ := h.of_publish hret hrec hpc
      obtain ⟨rfl, heq⟩ := Prod.mk.inj (Option.some.inj hs)
      rw [heq] at hpub
      exact ⟨ahead', hpub⟩
    · cases hs

/-- What is known of a call at the end of a path inside it. -/
theorem of_path {m₁ m' : Shared}
    (hs : Stream cap m.ring m.control.headPublish ahead m.control.tailPublish)
    (hlt : m.control.tailPublish < 2^64) (hres : m.control.headReserve = m.control.headPublish)
    (hp : (popMachine cap m₁).Path Inside (m, .loadTail c) es (m', pc')) :
    ∃ ahead', Popping cap c m ahead m' pc' es ahead' := by
  refine hp.invariant (fun s es => ∃ ahead', Popping cap c m ahead s.1 s.2 es ahead') ?_
    ⟨ahead, start hs hlt hres c⟩
  rintro s es l s' e hl ⟨ahead', hpop⟩ hstep
  obtain ⟨eff, hpc, heq⟩ := popMachine_step hstep
  rw [heq]
  exact hpop.step hl hpc

end Popping

/-! ## A call returns -/

namespace Pc

/-- The measure of a consumer at a distance from the tail. -/
def measure (pc : Pc) (distance : ℕ) : ℕ ×ₗ ℕ := popMeasure distance pc.rank pc.left

/-- The copy of the payload has rank 5, or is done. -/
theorem rank_copying_le (c : PopCall) (head newHead size i : ℕ) (out : List UInt8) :
    (copying c head newHead size i out).rank ≤ 5 := by
  unfold copying
  split_ifs
  · exact le_rfl
  · exact Nat.le_succ 4

/-- What a consumer that is alone finds: its compare-exchange does not fail, it does not copy beyond
the payload, and it is its turn at once. -/
def Unhindered (m : Shared) : Pc → Prop
  | idle => False
  | cas head _ _ => m.control.headReserve = head
  | copy _ _ _ size i _ => i < size
  | awaitTurn head _ _ => m.control.headPublish = head
  | _ => True

/-- Every step of a call that runs alone makes the measure smaller, if the store of `head_publish`
brings the head nearer to the tail. -/
theorem measure_lt {cap : ℕ} {m : Shared} {pc pc' : Pc} {eff : Effect} {e : PopEvent}
    (d : ControlBlock → ℕ) (hreserve : ∀ v, d { m.control with headReserve := v } = d m.control)
    (hpc : pc.Unhindered m)
    (hpublish : ∀ head newHead k, pc = publish head newHead k →
      d { m.control with headPublish := newHead } < d m.control)
    (hs : pc.step cap m .run = some (eff, pc', e)) :
    pc'.measure (d (eff.apply m).control) < pc.measure (d m.control) := by
  cases Pc.step_cases hs with
  | call c => exact hpc.elim
  | refuse pc =>
    refine popMeasure_lt_of_rank ?_
    cases pc with
    | idle => exact hpc.elim
    | _ => simp [rank]
  | claim head newHead k heq =>
    change (claimed head newHead k).measure (d { m.control with headReserve := newHead }) < _
    rw [hreserve newHead]
    refine popMeasure_lt_of_rank ?_
    cases k with
    | again d => simp [claimed, rank]
    | take d size => exact Nat.lt_succ_of_le (rank_copying_le _ _ _ _ _ _)
  | retry head newHead k =>
    -- Nobody else moves `head_reserve`, so the compare-exchange does not fail.
    have hstill : m.control.headReserve = head := hpc
    rw [step, exchange, if_pos hstill] at hs
    cases hs
  | copy d head newHead size i out =>
    have hi : i < size := hpc
    -- The place in the pass stays as long as bytes are left, but there are fewer.
    unfold copying
    split_ifs with hlt
    · exact popMeasure_lt_of_left (Nat.sub_succ_lt_self _ _ hi)
    · exact popMeasure_lt_of_rank (Nat.lt_succ_self 4)
  | wait head newHead k =>
    have hturn : m.control.headPublish = head := hpc
    rw [step, if_pos hturn] at hs
    cases hs
  | publish head newHead k =>
    have hlt := hpublish head newHead k rfl
    have hrank : (published head k).1.rank < (publish head newHead k).rank + 11 := by
      cases k <;> simp [published, rank]
    exact popMeasure_lt_of_distance hlt hrank
  | _ => exact popMeasure_lt_of_rank (by simp [rank])

/-- A consumer that is alone inside a call is not hindered. -/
theorem Alone.unhindered {cap : ℕ} {m : Shared} {ahead : List Chunk} {c : PopCall} {pc : Pc}
    (h : pc.Alone cap m ahead c) : pc.Unhindered m := by
  cases pc with
  | idle => exact h
  | cas head newHead k =>
    cases k with
    | again d =>
      obtain ⟨-, hres, rfl, -⟩ := h
      exact hres
    | take d size =>
      obtain ⟨-, hres, r, ⟨rfl, -⟩, -⟩ := h
      exact hres
  | copy d head newHead size i out => exact h.2.2.1
  | awaitTurn head newHead k => exact h.2.2.1.symm
  | _ => trivial

/-- Every step of a call that runs alone makes the measure smaller. -/
theorem Alone.measure_lt {cap : ℕ} {m : Shared} {ahead : List Chunk} {c : PopCall} {pc pc' : Pc}
    {eff : Effect} {e : PopEvent} (hpc : pc.Alone cap m ahead c)
    (hst : Stream cap m.ring m.control.headPublish ahead m.control.tailPublish)
    (hs : pc.step cap m .run = some (eff, pc', e)) :
    pc'.measure (eff.apply m).distance < pc.measure m.distance := by
  refine Pc.measure_lt (fun c => c.tailPublish - c.headPublish) (fun _ => rfl) hpc.unhindered ?_ hs
  rintro head newHead k rfl
  obtain ⟨-, -, -, hfor⟩ := hpc
  obtain ⟨hlt, hle⟩ := PopThen.For.lt hfor hst
  dsimp only
  omega

end Pc

/-- A consumer that runs alone comes to the end of its call. -/
theorem pop_returns {cap : ℕ} {m : Shared} {ahead : List Chunk} (m₀ : Shared)
    (hs : Stream cap m.ring m.control.headPublish ahead m.control.tailPublish)
    (hlt : m.control.tailPublish < 2^64) (hres : m.control.headReserve = m.control.headPublish)
    (c : PopCall) :
    ∃ es m', (popMachine cap m₀).Path Inside (m, .loadTail c) es (m', .idle) := by
  have hend : ∃ es s', (popMachine cap m₀).Path Inside (m, .loadTail c) es s' ∧ s'.2 = .idle ∧
      ∃ ahead', Popping cap c m ahead s'.1 s'.2 es ahead' := by
    refine Machine.exists_path (fun s : Shared × Pc => s.2.measure s.1.distance)
      (fun s es => ∃ ahead', Popping cap c m ahead s.1 s.2 es ahead') _ ?_
      ⟨ahead, .start hs hlt hres c⟩
    rintro ⟨m, pc⟩ es ⟨ahead', hpop⟩ hne
    obtain ⟨eff, pc', e, hstep⟩ := Pc.enabled cap m hne
    refine ⟨.run, (eff.apply m, pc'), e, Or.inl rfl, by simp [popMachine, hstep],
      hpop.step (Or.inl rfl) hstep, ?_⟩
    rcases hpop.result with ⟨hpc, -⟩ | ⟨hidle, -⟩
    · exact hpc.measure_lt hpop.stream hstep
    · exact absurd hidle hne
  obtain ⟨es, ⟨m', pc'⟩, hp, rfl, -⟩ := hend
  exact ⟨es, m', hp⟩

end LfRing.Mpmc

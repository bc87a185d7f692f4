import Mathlib.Data.Prod.Lex
import LfRing.Library.Machine
import LfRing.Ring.Reader

/-!
# A call of `try_pop` that runs alone

A consumer that is not disturbed gets its call done. Every pass of the loop of `try_pop_internal`
brings `head_publish` nearer to `tail_publish` or ends the call, so the call returns (`popMeasure`).
It returns false if no record is ahead, and otherwise the first record ahead.

`popMachine` is the consumer and the memory with nobody else. `ReaderInv.finish` says that a call
comes to its end there, and `ReaderInv.pop_result` what any call has done that has come to its end.
-/

namespace LfRing

/-- The single consumer with the shared memory to itself. -/
def popMachine (order : HeadOrder) (cap : ℕ) (m : Shared) :
    Machine (Shared × PopPc) PopLabel PopEvent where
  init := (m, .idle)
  step s l := (s.2.step order cap s.1 l).map fun x => ((x.1.apply s.1, x.2.1), x.2.2)

/-- The steps of the consumer alone, taken apart. -/
theorem popMachine_step {order : HeadOrder} {cap : ℕ} {m₀ : Shared} {s s' : Shared × PopPc}
    {l : PopLabel} {e : PopEvent} (h : (popMachine order cap m₀).step s l = some (s', e)) :
    ∃ eff, s.2.step order cap s.1 l = some (eff, s'.2, e) ∧ s'.1 = eff.apply s.1 := by
  obtain ⟨⟨eff, pc, pe⟩, hs, heq⟩ := Option.map_eq_some_iff.mp h
  cases heq
  exact ⟨eff, hs, rfl⟩

namespace PopPc

/-- How many kinds of steps a pass has before it. The store of `head_reserve` as the second one
comes behind that of `head_publish`, which has moved the head already. -/
def rank : PopPc → ℕ
  | idle => 0
  | publish _ _ true => 1
  | publish _ _ false => 2
  | reserve _ _ false => 2
  | loadSequence _ _ _ _ _ => 3
  | loadType _ _ _ _ => 4
  | copy _ _ _ _ _ => 5
  | loadSize _ _ _ => 6
  | loadFlags _ _ _ => 7
  | loadHead _ _ => 8
  | loadTail _ => 9
  | reserve _ _ true => 10

/-- How many bytes of the payload are left to copy. -/
def left : PopPc → ℕ
  | copy _ _ size i _ => size - i
  | _ => 0

/-- The first store of the new head has rank 2, whichever of the two counters it is to. -/
@[simp] theorem rank_advance (order : HeadOrder) (head : ℕ) (k : PopThen) :
    (advance order head k).rank = 2 := by
  cases order <;> rfl

/-- The copy of the payload has rank 5, or is done. -/
theorem rank_copying_le (c : PopCall) (head size i : ℕ) (out : List UInt8) :
    (copying c head size i out).rank ≤ 5 := by
  unfold copying
  split_ifs
  · exact le_rfl
  · exact Nat.le_succ 4

/-- A consumer inside a call has a step. -/
theorem enabled {pc : PopPc} (order : HeadOrder) (cap : ℕ) (m : Shared) (h : pc ≠ .idle) :
    ∃ eff pc' e, pc.step order cap m .run = some (eff, pc', e) := by
  cases pc <;> first | exact absurd rfl h | exact ⟨_, _, _, rfl⟩

/-- A step inside a call ends it, with false or with a result, or it goes on with the same call. -/
theorem end_step {order : HeadOrder} {cap : ℕ} {m : Shared} {pc pc' : PopPc} {eff : Effect}
    {e : PopEvent} {c : PopCall} (hc : pc.call? = some c)
    (hs : pc.step order cap m .run = some (eff, pc', e)) :
    (pc' = .idle ∧ (e = .refused ∨ ∃ res b, e = .returned c res b)) ∨
      pc'.call? = some c ∧ e ≠ .refused ∧ e.returned? = [] := by
  cases step_cases hs with
  | call c => cases hs
  | empty _ tail h => exact Or.inl ⟨rfl, Or.inl rfl⟩
  | badSize _ tail head h => exact Or.inl ⟨rfl, Or.inl rfl⟩
  | publish head k last =>
    cases k <;> cases last <;> cases hc
    · exact Or.inr ⟨rfl, by rintro ⟨⟩, rfl⟩
    · exact Or.inr ⟨rfl, by rintro ⟨⟩, rfl⟩
    · exact Or.inr ⟨rfl, by rintro ⟨⟩, rfl⟩
    · exact Or.inl ⟨rfl, Or.inr ⟨_, _, rfl⟩⟩
  | reserve head k last =>
    cases k <;> cases last <;> cases hc
    · exact Or.inr ⟨rfl, by rintro ⟨⟩, rfl⟩
    · exact Or.inr ⟨rfl, by rintro ⟨⟩, rfl⟩
    · exact Or.inr ⟨rfl, by rintro ⟨⟩, rfl⟩
    · exact Or.inl ⟨rfl, Or.inr ⟨_, _, rfl⟩⟩
  -- Behind a branch the call is still the one that the branch was taken for.
  | skip d tail h h' => exact Or.inr ⟨(call?_advance_again _ _ _).trans hc, by rintro ⟨⟩, rfl⟩
  | wrap d tail head h => exact Or.inr ⟨(call?_advance_again _ _ _).trans hc, by rintro ⟨⟩, rfl⟩
  | size d tail head => exact Or.inr ⟨(call?_copying _ _ _ _ _).trans hc, by rintro ⟨⟩, rfl⟩
  | copy d head size i out => exact Or.inr ⟨(call?_copying _ _ _ _ _).trans hc, by rintro ⟨⟩, rfl⟩
  | type d head size out h =>
    exact Or.inr ⟨(call?_advance_done _ _ _ _).trans hc, by rintro ⟨⟩, rfl⟩
  | sequence d head size out type =>
    exact Or.inr ⟨(call?_advance_done _ _ _ _).trans hc, by rintro ⟨⟩, rfl⟩
  | _ => exact Or.inr ⟨hc, by rintro ⟨⟩, rfl⟩

end PopPc

/-- The distance from the head to the tail. -/
def Shared.distance (m : Shared) : ℕ := m.control.tailPublish - m.control.headPublish

/-- What gets smaller with every step of a call of `try_pop`: the distance from the head to the
tail, weighted so that a pass counts less, then the place in the pass, then the bytes left to
copy. -/
def popMeasure (distance rank left : ℕ) : ℕ ×ₗ ℕ := toLex (11 * distance + rank, left)

/-- It does on the way through a pass ... -/
theorem popMeasure_lt_of_rank {distance rank rank' left left' : ℕ} (h : rank' < rank) :
    popMeasure distance rank' left' < popMeasure distance rank left := by
  rw [popMeasure, popMeasure, Prod.Lex.toLex_lt_toLex]
  exact Or.inl (Nat.add_lt_add_left h _)

/-- ... with every byte that is copied ... -/
theorem popMeasure_lt_of_left {distance rank left left' : ℕ} (h : left' < left) :
    popMeasure distance rank left' < popMeasure distance rank left := by
  rw [popMeasure, popMeasure, Prod.Lex.toLex_lt_toLex]
  exact Or.inr ⟨rfl, h⟩

/-- ... and where the head comes nearer to the tail, with a pass that starts over. -/
theorem popMeasure_lt_of_distance {distance distance' rank rank' left left' : ℕ}
    (h : distance' < distance) (hrank : rank' < rank + 11) :
    popMeasure distance' rank' left' < popMeasure distance rank left := by
  rw [popMeasure, popMeasure, Prod.Lex.toLex_lt_toLex]
  refine Or.inl ?_
  change 11 * distance' + rank' < 11 * distance + rank
  omega

namespace PopPc

/-- The measure of a consumer at that distance. -/
def measure (pc : PopPc) (distance : ℕ) : ℕ ×ₗ ℕ := popMeasure distance pc.rank pc.left

/-- Every step of a call makes the measure smaller, if the store of `head_publish` brings the head
nearer to the tail and no byte is copied beyond the payload. Other stores leave the distance as it
is. -/
theorem measure_lt {order : HeadOrder} {cap : ℕ} {m : Shared} {pc pc' : PopPc} {eff : Effect}
    {e : PopEvent} (d : ControlBlock → ℕ)
    (hreserve : ∀ v, d { m.control with headReserve := v } = d m.control)
    (hcopy : ∀ c head size i out, pc = copy c head size i out → i < size)
    (hpublish : ∀ head k last, pc = publish head k last →
      d { m.control with headPublish := head } < d m.control)
    (hs : pc.step order cap m .run = some (eff, pc', e)) :
    pc'.measure (d (eff.apply m).control) < pc.measure (d m.control) := by
  cases step_cases hs with
  | call c => cases hs
  | skip c tail hne hshort =>
    exact popMeasure_lt_of_rank (by rw [rank_advance]; simp [rank])
  | wrap c tail head hflag =>
    exact popMeasure_lt_of_rank (by rw [rank_advance]; simp [rank])
  | type c head size out hwant =>
    exact popMeasure_lt_of_rank (by rw [rank_advance]; simp [rank])
  | sequence c head size out type =>
    exact popMeasure_lt_of_rank (by rw [rank_advance]; simp [rank])
  | size c tail head => exact popMeasure_lt_of_rank (Nat.lt_succ_of_le (rank_copying_le _ _ _ _ _))
  | copy c head size i out =>
    have hi := hcopy c head size i out rfl
    -- The place in the pass stays as long as bytes are left, but there are fewer.
    unfold copying
    split_ifs with hlt
    · exact popMeasure_lt_of_left (Nat.sub_succ_lt_self _ _ hi)
    · exact popMeasure_lt_of_rank (Nat.lt_succ_self 4)
  | publish head k last =>
    have hlt := hpublish head k last rfl
    have hrank : (published head k last).1.rank < (publish head k last).rank + 11 := by
      cases last <;> cases k <;> simp [published, resume, rank]
    exact popMeasure_lt_of_distance hlt hrank
  | reserve head k last =>
    have hrank : (reserved head k last).1.rank < (reserve head k last).rank := by
      cases last <;> cases k <;> simp [reserved, resume, rank]
    change (reserved head k last).1.measure (d { m.control with headReserve := head }) < _
    rw [hreserve head]
    exact popMeasure_lt_of_rank hrank
  | _ => exact popMeasure_lt_of_rank (by simp [rank])

end PopPc

/-- The store of a new head brings it nearer to the tail. -/
theorem PopThen.For.lt {m : Shared} {cap head : ℕ} {ahead : List Chunk} {k : PopThen}
    (h : k.For m ahead head)
    (hs : Stream cap m.ring m.control.headPublish ahead m.control.tailPublish) :
    m.control.headPublish < head ∧ head ≤ m.control.tailPublish := by
  cases k with
  | again c =>
    obtain ⟨d, rest, rfl, -, rfl⟩ := h
    have hpos := hs.1.length_pos
    exact ⟨by omega, hs.2.2.le⟩
  | done c res =>
    obtain ⟨r, rest, rfl, -, rfl⟩ := h
    have hpos : 0 < recordSize r.payload.length := hs.1.length_pos
    exact ⟨by omega, hs.2.2.le⟩

namespace ReaderInv

variable {order : HeadOrder} {cap : ℕ} {m m' m₀ : Shared} {pc pc' : PopPc}
  {passed ahead seen : List Chunk} {consumed : List (PopCall × Popped)} {eff : Effect}
  {e : PopEvent}

/-- Every step of a call makes the measure smaller. -/
theorem measure_lt (h : ReaderInv cap m pc passed ahead seen consumed)
    (hs : pc.step order cap m .run = some (eff, pc', e)) :
    pc'.measure (eff.apply m).distance < pc.measure m.distance := by
  have hok := h.ok
  refine PopPc.measure_lt (fun c => c.tailPublish - c.headPublish) (fun _ => rfl) ?_ ?_ hs
  · rintro c head size i out rfl
    exact hok.2.1
  · rintro head k last rfl
    obtain ⟨hlt, hle⟩ := PopThen.For.lt hok h.stream
    dsimp only
    omega

end ReaderInv

/-! ## What a call does -/

/-- The results that a list of events consumes. -/
def consumedOf (es : List PopEvent) : List (PopCall × Popped) := es.flatMap PopEvent.consumed?

/-- The results that a list of events returns. -/
def returnedOf (es : List PopEvent) : List (PopCall × Popped) := es.flatMap PopEvent.returned?

/-- One more event adds the result that it consumes, if it consumes one. -/
@[simp] theorem consumedOf_append (es : List PopEvent) (e : PopEvent) :
    consumedOf (es ++ [e]) = consumedOf es ++ e.consumed? := by
  simp [consumedOf]

/-- One more event adds the result that it returns, if it returns one. -/
@[simp] theorem returnedOf_append (es : List PopEvent) (e : PopEvent) :
    returnedOf (es ++ [e]) = returnedOf es ++ e.returned? := by
  simp [returnedOf]

/-- A call `c` in progress, or at its end, that began on the memory `m₀`, on a stream that was
`stream` then and of which `consumed` had been consumed. -/
structure Popping (cap : ℕ) (c : PopCall) (m₀ : Shared) (stream : List Chunk)
    (consumed : List (PopCall × Popped)) (m : Shared) (pc : PopPc) (es : List PopEvent)
    (passed ahead seen : List Chunk) : Prop where
  /-- What the producers see of the call. -/
  view : ConsumerView m₀ m
  /-- The stream is the same. -/
  stream_eq : passed ++ ahead = stream
  /-- The consumer's invariant. -/
  reader : ReaderInv cap m pc passed ahead seen (consumed ++ consumedOf es)
  /-- The tail does not wrap. -/
  tail_lt : m.control.tailPublish < 2^64
  /-- What the consumer compares with is the whole stream. -/
  seen_eq : pc.comparing = true → seen = stream
  /-- What is consumed has been returned, or is just about to be. -/
  consumed_eq : consumedOf es = returnedOf es ++ pc.unreturned
  /-- Inside the call nothing has been returned. At its end a result has, or nothing is left
  ahead. -/
  result : (pc.call? = some c ∧ returnedOf es = []) ∨
    pc = .idle ∧ ((∃ res, returnedOf es = [(c, res)]) ∨ returnedOf es = [] ∧ ahead = [])

/-- The start of a call. -/
theorem Popping.start {cap : ℕ} {m : Shared} {passed ahead seen : List Chunk}
    {consumed : List (PopCall × Popped)} (h : ReaderInv cap m .idle passed ahead seen consumed)
    (hlt : m.control.tailPublish < 2^64) (c : PopCall) :
    Popping cap c m (passed ++ ahead) consumed m (.loadTail c) [] passed ahead seen :=
  ⟨.refl h.stream.le, rfl, ⟨h.stream, by simpa [consumedOf] using h.consumed, trivial⟩,
    hlt, by rintro ⟨⟩, rfl, Or.inl ⟨rfl, rfl⟩⟩

/-- Every step of a call keeps what is known of it. -/
theorem Popping.step {order : HeadOrder} {cap : ℕ} {c : PopCall} {m₀ : Shared} {stream : List Chunk}
    {consumed : List (PopCall × Popped)} {m : Shared} {pc pc' : PopPc} {es : List PopEvent}
    {passed ahead seen : List Chunk} {eff : Effect} {e : PopEvent}
    (h : Popping cap c m₀ stream consumed m pc es passed ahead seen)
    (hs : pc.step order cap m .run = some (eff, pc', e)) :
    ∃ passed' ahead' seen',
      Popping cap c m₀ stream consumed (eff.apply m) pc' (es ++ [e]) passed' ahead' seen' := by
  obtain ⟨passed', ahead', hsplit, hr, hview, href⟩ := h.reader.step h.tail_lt hs
  obtain ⟨hcomp, hcomp', -⟩ := PopPc.comparing_step hs
  -- The consumer is inside the call, as it has a step.
  obtain ⟨hcall, hret⟩ : pc.call? = some c ∧ returnedOf es = [] := by
    rcases h.result with hin | ⟨rfl, -⟩
    · exact hin
    · cases hs
  refine ⟨passed', ahead', e.seen (passed ++ ahead) seen, h.view.trans hview,
    hsplit.trans h.stream_eq, ?_, ?_, ?_, ?_, ?_⟩
  · rw [consumedOf_append, ← List.append_assoc]
    exact hr
  · rw [hview.tailPublish_eq]
    exact h.tail_lt
  · intro hc
    rcases (hcomp hc).2 with rfl | ⟨hne, hold⟩
    · exact h.stream_eq
    · have hseen : e.seen (passed ++ ahead) seen = seen := by
        cases e <;> first | rfl | exact absurd rfl hne
      rw [hseen]
      exact h.seen_eq hold
  · rw [consumedOf_append, returnedOf_append, h.consumed_eq, List.append_assoc,
      PopPc.unreturned_step hs, List.append_assoc]
  · rw [returnedOf_append, hret, List.nil_append]
    rcases PopPc.end_step hcall hs with ⟨rfl, rfl | ⟨res, b, rfl⟩⟩ | ⟨hcall', -, hnone⟩
    · -- All that the consumer saw is passed, and it saw everything.
      have hahead : passed ++ ahead = passed := by
        rw [h.stream_eq, ← h.seen_eq (hcomp' rfl)]
        exact href rfl
      have hnil : ahead = [] := List.append_cancel_left (hahead.trans (List.append_nil _).symm)
      have hhead : m.control.headPublish = m.control.tailPublish := by
        have := h.reader.stream
        rwa [hnil] at this
      refine Or.inr ⟨rfl, Or.inr ⟨rfl, ?_⟩⟩
      have h1 := hview.le_headPublish
      have h2 := hview.headPublish_le
      have h3 := hview.tailPublish_eq
      have hstream := hr.stream
      have heq : (eff.apply m).control.tailPublish = (eff.apply m).control.headPublish := by omega
      rw [heq] at hstream
      exact hstream.eq_nil
    · exact Or.inr ⟨rfl, Or.inl ⟨res, rfl⟩⟩
    · exact Or.inl ⟨hcall', hnone⟩

/-- What a call that has come to its end has done: it has returned the first record ahead, or false
if there was none. -/
theorem Popping.result_eq {cap : ℕ} {c : PopCall} {m₀ : Shared} {passed₀ ahead₀ : List Chunk}
    {consumed : List (PopCall × Popped)} {m : Shared} {es : List PopEvent}
    {passed ahead seen : List Chunk}
    (h : Popping cap c m₀ (passed₀ ++ ahead₀) consumed m .idle es passed ahead seen)
    (hconsumed : consumed.length = (records passed₀).length) :
    (returnedOf es = [] ∧ records ahead₀ = [] ∧ ahead = []) ∨
      ∃ r res, records ahead₀ = r :: records ahead ∧ returnedOf es = [(c, res)] ∧ res.Of c r := by
  have heq : records passed ++ records ahead = records passed₀ ++ records ahead₀ := by
    rw [← records_append, ← records_append, h.stream_eq]
  have hcons := h.reader.consumed
  have hunret : consumedOf es = returnedOf es := by
    rw [h.consumed_eq]
    exact List.append_nil _
  rw [hunret] at hcons
  have hlen := hcons.length_eq
  rw [List.length_append, hconsumed] at hlen
  -- The records passed now are those passed before and the one returned, if any.
  have htotal := congrArg List.length heq
  rw [List.length_append, List.length_append] at htotal
  rcases h.result with ⟨hcall, -⟩ | ⟨-, ⟨res, hres⟩ | ⟨hnone, hnil⟩⟩
  · cases hcall
  · rw [hres] at hcons hlen
    obtain ⟨rs, hrs⟩ : ∃ rs, records passed = records passed₀ ++ rs := by
      rcases List.append_eq_append_iff.mp heq with ⟨rs, h1, -⟩ | ⟨rs, h1, -⟩
      · have := congrArg List.length h1
        rw [List.length_append] at this
        simp only [List.length_singleton] at hlen
        omega
      · exact ⟨rs, h1⟩
    rw [hrs] at hcons heq
    rw [hrs, List.length_append, List.length_singleton] at hlen
    obtain ⟨r, rfl⟩ : ∃ r, rs = [r] := List.length_eq_one_iff.mp (by omega)
    refine Or.inr ⟨r, res, ?_, hres, ?_⟩
    · rw [List.append_assoc] at heq
      exact (List.append_cancel_left heq).symm
    · have hlast := List.forall₂_drop_append _ _ _ hcons
      rw [← hconsumed, List.drop_left] at hlast
      exact (List.forall₂_cons.mp hlast).1
  · rw [hnone] at hlen
    rw [hnil] at heq htotal
    refine Or.inl ⟨hnone, ?_, hnil⟩
    simp only [List.length_nil, Nat.add_zero, records_nil] at hlen htotal
    exact List.length_eq_zero_iff.mp (by omega)

namespace ReaderInv

variable {order : HeadOrder} {cap : ℕ} {m m₀ : Shared} {passed ahead seen : List Chunk}
  {consumed : List (PopCall × Popped)}

variable (order m₀) in
/-- A consumer that runs alone comes to the end of its call, wherever it is in it. -/
theorem finish {pc : PopPc} (h : ReaderInv cap m pc passed ahead seen consumed)
    (hlt : m.control.tailPublish < 2^64) :
    ∃ es m' passed' ahead' seen',
      (popMachine order cap m₀).Path (· = .run) (m, pc) es (m', .idle) ∧
      passed' ++ ahead' = passed ++ ahead ∧ m'.control.tailPublish < 2^64 ∧
      ReaderInv cap m' .idle passed' ahead' seen' (consumed ++ consumedOf es) := by
  have hend : ∃ es s', (popMachine order cap m₀).Path (· = .run) (m, pc) es s' ∧ s'.2 = .idle ∧
      ∃ passed' ahead' seen', passed' ++ ahead' = passed ++ ahead ∧
        s'.1.control.tailPublish < 2^64 ∧
        ReaderInv cap s'.1 s'.2 passed' ahead' seen' (consumed ++ consumedOf es) := by
    refine Machine.exists_path (fun s : Shared × PopPc => s.2.measure s.1.distance)
      (fun s es => ∃ passed' ahead' seen', passed' ++ ahead' = passed ++ ahead ∧
        s.1.control.tailPublish < 2^64 ∧
        ReaderInv cap s.1 s.2 passed' ahead' seen' (consumed ++ consumedOf es)) _ ?_
      ⟨passed, ahead, seen, rfl, hlt, by simpa [consumedOf] using h⟩
    rintro ⟨m, pc⟩ es ⟨passed', ahead', seen', heq, hlt', hinv⟩ hne
    obtain ⟨eff, pc', e, hs⟩ := PopPc.enabled order cap m hne
    obtain ⟨passed'', ahead'', heq', hinv', hview, -⟩ := hinv.step hlt' hs
    refine ⟨.run, (eff.apply m, pc'), e, rfl, by simp [popMachine, hs],
      ⟨passed'', ahead'', e.seen (passed' ++ ahead') seen', heq'.trans heq, ?_, ?_⟩,
      hinv.measure_lt hs⟩
    · rw [hview.tailPublish_eq]
      exact hlt'
    · rw [consumedOf_append, ← List.append_assoc]
      exact hinv'
  obtain ⟨es, ⟨m', pc'⟩, hp, hidle, passed', ahead', seen', heq, hlt', hinv⟩ := hend
  obtain rfl : pc' = .idle := hidle
  exact ⟨es, m', passed', ahead', seen', hp, heq, hlt', hinv⟩

/-- What a call has done that ran alone and has come to its end: it has returned the first record
ahead of it, or false if there was none, and the consumer's invariant holds again. -/
theorem pop_result (h : ReaderInv cap m .idle passed ahead seen consumed)
    (hlt : m.control.tailPublish < 2^64) {c : PopCall} {es : List PopEvent} {m' : Shared}
    (hp : (popMachine order cap m₀).Path (· = .run) (m, .loadTail c) es (m', .idle)) :
    ∃ passed' ahead' seen', passed' ++ ahead' = passed ++ ahead ∧ ConsumerView m m' ∧
      m'.control.tailPublish < 2^64 ∧
      ReaderInv cap m' .idle passed' ahead' seen' (consumed ++ consumedOf es) ∧
      consumedOf es = returnedOf es ∧
      ((returnedOf es = [] ∧ records ahead = [] ∧ ahead' = []) ∨
        ∃ r res, records ahead = r :: records ahead' ∧ returnedOf es = [(c, res)] ∧
        res.Of c r) := by
  obtain ⟨passed', ahead', seen', hpop⟩ := hp.invariant
    (fun s es => ∃ passed' ahead' seen',
      Popping cap c m (passed ++ ahead) consumed s.1 s.2 es passed' ahead' seen')
    (by
      rintro s es l s' e rfl ⟨passed', ahead', seen', hpop⟩ hs
      obtain ⟨eff, hstep, heq⟩ := popMachine_step hs
      rw [heq]
      exact hpop.step hstep)
    ⟨passed, ahead, seen, Popping.start h hlt c⟩
  refine ⟨passed', ahead', seen', hpop.stream_eq, hpop.view, hpop.tail_lt, hpop.reader, ?_,
    hpop.result_eq h.consumed.length_eq⟩
  rw [hpop.consumed_eq]
  exact List.append_nil _

/-- A consumer that calls `try_pop` with empty vectors. -/
def CallsWithEmpty : PopLabel → Prop
  | .call c => c.out = []
  | .run => True

variable (order m₀) in
/-- A consumer that runs alone can pop all that is ahead of it. -/
theorem drain (h : ReaderInv cap m .idle passed ahead seen consumed)
    (hlt : m.control.tailPublish < 2^64) :
    ∃ es m', (popMachine order cap m₀).Path CallsWithEmpty (m, .idle) es (m', .idle) ∧
      List.Forall₂ (fun p r => p.2.Of p.1 r) (consumed ++ consumedOf es)
        (records (passed ++ ahead)) := by
  -- By induction on the number of records ahead, with one call for each.
  induction hn : (records ahead).length generalizing m passed ahead seen consumed with
  | zero =>
    refine ⟨[], m, .refl, ?_⟩
    rw [records_append, List.length_eq_zero_iff.mp hn, List.append_nil]
    simpa [consumedOf] using h.consumed
  | succ n ih =>
    have hcall : (popMachine order cap m₀).Path CallsWithEmpty (m, .idle) [.internal]
        (m, .loadTail ⟨[], false⟩) := .single (.call ⟨[], false⟩) rfl rfl
    have hopen : ReaderInv cap m (.loadTail ⟨[], false⟩) passed ahead seen consumed :=
      ⟨h.stream, h.consumed, trivial⟩
    obtain ⟨es, m₁, -, -, -, hp, -, -, -⟩ := hopen.finish order m₀ hlt
    obtain ⟨passed₁, ahead₁, seen₁, heq, -, hlt₁, hinv₁, -, hres⟩ := h.pop_result hlt hp
    obtain ⟨r, hrecords⟩ : ∃ r, records ahead = r :: records ahead₁ := by
      rcases hres with ⟨-, hnone, -⟩ | ⟨r, -, hrecords, -⟩
      · rw [hnone] at hn
        cases hn
      · exact ⟨r, hrecords⟩
    rw [hrecords, List.length_cons, Nat.add_right_cancel_iff] at hn
    obtain ⟨es', m', hp', hall⟩ := ih hinv₁ hlt₁ hn
    have hrun : (popMachine order cap m₀).Path CallsWithEmpty (m, .loadTail ⟨[], false⟩) es
        (m₁, .idle) := hp.mono (by rintro l rfl; trivial)
    refine ⟨[.internal] ++ es ++ es', m', (hcall.trans hrun).trans hp', ?_⟩
    rw [heq, List.append_assoc] at hall
    have hsplit : consumedOf ([.internal] ++ es ++ es') = consumedOf es ++ consumedOf es' := by
      simp [consumedOf, PopEvent.consumed?]
    rw [hsplit]
    exact hall

end ReaderInv

end LfRing

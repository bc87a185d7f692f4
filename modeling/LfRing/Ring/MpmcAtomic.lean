import LfRing.Ring.Atomic
import LfRing.Ring.Mpmc
import LfRing.Ring.Numbering

/-!
# `SharedRingBufferMPMC` is an atomic queue while `head_reserve` is loaded as it should be

With many consumers a pop takes effect at its compare-exchange on `head_reserve`. What it will
return is settled then, but it has not yet looked at a byte of the payload: other consumers, and
producers behind them, go on while it copies. So the state of the calls cannot be read off the
consumers' places alone, and `Pc.Reflects` says which record of the stream the claimed position
holds.

Messages come out in the order in which they were published, also where the consumers' copies
overlap and their returns are in another order. A pop may return false although the queue is not
empty: if messages come in behind the tail it has loaded while other consumers claim all before that
tail, or if a chunk is claimed under its hands and a check refuses what it then reads.
-/

namespace LfRing.Mpmc

/-- What `try_pop` returns for a record. -/
def resultFor (c : PopCall) (r : Record) : Popped :=
  ⟨r.payload ++ c.out.drop r.payload.length, r.type,
    if c.wantSequence then some r.sequence else none⟩

/-- That is what it must return. -/
theorem of_resultFor (c : PopCall) (r : Record) : (resultFor c r).Of c r := ⟨rfl, rfl, rfl⟩

/-- What a consumer sees of its step. -/
def popActions (i : ℕ) : PopLabel → PopEvent → List (Action Process RingOp RingResult)
  | .call c, _ => [.invoke (.consumer i) (.pop c)]
  | _, .refused => [.respond (.consumer i) (.popped none)]
  | _, .returned _ _ res => [.respond (.consumer i) (.popped (some res))]
  | _, _ => []

/-- What the parties see of a step. -/
def actions : Label → Event → List (Action Process RingOp RingResult)
  | .producer i l, .producer _ e => pushActions i l e
  | .consumer i l, .consumer _ e => popActions i l e
  | _, _ => []

/-- How far a consumer's call is, in a ring where the stream has been published. With its chunk
claimed it has had its effect, and what it will return is the record at that position. -/
def Pc.Reflects (stream : List Chunk) : Pc → Pending RingOp RingResult → Prop
  | idle, p => p = .none
  | loadTail c, p => p = .invoked (.pop c)
  | loadHead c _, p => p = .invoked (.pop c)
  | loadFlags c _ _, p => p = .invoked (.pop c)
  | loadSize c _ _, p => p = .invoked (.pop c)
  | cas _ _ k, p => p = .invoked (.pop k.call)
  | copy c head _ _ _ _, p =>
    ∃ r, (head, r) ∈ recordsAt 0 stream ∧ p = .effected (.popped (some (resultFor c r)))
  | loadType c head _ _, p =>
    ∃ r, (head, r) ∈ recordsAt 0 stream ∧ p = .effected (.popped (some (resultFor c r)))
  | loadSequence c head _ _ _, p =>
    ∃ r, (head, r) ∈ recordsAt 0 stream ∧ p = .effected (.popped (some (resultFor c r)))
  | awaitTurn _ _ (.again c), p => p = .invoked (.pop c)
  | awaitTurn _ _ (.done _ res), p => p = .effected (.popped (some res))
  | publish _ _ (.again c), p => p = .invoked (.pop c)
  | publish _ _ (.done _ res), p => p = .effected (.popped (some res))

/-- The records that were published and not claimed yet. -/
def waiting (s : State) (tr : List Event) : List Record :=
  ((recordsAt 0 (publishedChunks (pushes tr))).filter (s.mem.control.headReserve ≤ ·.1)).map
    Prod.snd

/-- A state of the queue fits the ring: the calls are as far as the parties' places say, and the
queue has what is published and not claimed. -/
structure Follows (s : State) (tr : List Event)
    (a : AtomicState Process (List Record) RingOp RingResult) :
    Prop where
  /-- The producers' calls. -/
  producers : ∀ i, a.pending (.producer i) = (s.procs i).pending
  /-- The consumers' calls. -/
  consumers : ∀ i, (s.consumers i).Reflects (publishedChunks (pushes tr)) (a.pending (.consumer i))
  /-- The queue. -/
  state : a.state = waiting s tr
  /-- Every chunk of the stream takes space, so that no two records are at the same position. -/
  length_pos : ∀ c ∈ publishedChunks (pushes tr), 0 < c.length

/-! ## Positions -/

/-- The chunks of a stream take space. -/
theorem length_pos_of_stream {cap o e : ℕ} {ring : Memory} {cs : List Chunk}
    (h : Stream cap ring o cs e) :
    ∀ c ∈ cs, 0 < c.length := by
  induction cs generalizing o with
  | nil => simp
  | cons c cs ih =>
    intro d hd
    rcases List.mem_cons.mp hd with rfl | hd
    · exact h.1.length_pos
    · exact ih h.2.2 d hd

/-- The record at a position is the only one there. -/
theorem record_unique {o p : ℕ} {cs : List Chunk} {r r' : Record} (hpos : ∀ c ∈ cs, 0 < c.length)
    (h : (p, r) ∈ recordsAt o cs) (h' : (p, r') ∈ recordsAt o cs) : r = r' := by
  induction cs generalizing o with
  | nil => simp [recordsAt] at h
  | cons c cs ih =>
    -- What is behind the first chunk is not at its position.
    have hbehind : ∀ x, (o, x) ∉ recordsAt (o + c.length) cs := by
      intro x hx
      have hle := (recordsAt_within hx).1
      have := hpos c List.mem_cons_self
      dsimp only at hle
      omega
    simp only [recordsAt, List.mem_append, List.mem_map, Option.mem_toList, Prod.mk.injEq] at h h'
    rcases h with ⟨x, hx, rfl, rfl⟩ | h
    · rcases h' with ⟨x', hx', -, rfl⟩ | h'
      · rw [hx] at hx'
        exact Option.some.inj hx'
      · exact absurd h' (hbehind r')
    · rcases h' with ⟨x', hx', rfl, rfl⟩ | h'
      · exact absurd h (hbehind r)
      · exact ih (fun d hd => hpos d (List.mem_cons_of_mem c hd)) h h'

/-- The records with positions are those of the stream's chunks. -/
theorem mem_of_recordsAt {o : ℕ} {cs : List Chunk} {p : ℕ × Record} (h : p ∈ recordsAt o cs) :
    Chunk.record p.2 ∈ cs := by
  have hr : p.2 ∈ records cs := by
    rw [← map_snd_recordsAt o]
    exact List.mem_map_of_mem h
  obtain ⟨c, hc, hrec⟩ := List.mem_filterMap.mp hr
  cases c with
  | record r =>
    cases hrec
    exact hc
  | _ => cases hrec

/-- The records from a position on are those of the chunks behind it. -/
theorem filter_recordsAt {pre post : List Chunk} (hpos : ∀ c ∈ pre ++ post, 0 < c.length) :
    ((recordsAt 0 (pre ++ post)).filter (span pre ≤ ·.1)).map Prod.snd = records post := by
  have hpre : (recordsAt 0 pre).filter (span pre ≤ ·.1) = [] := by
    rw [List.filter_eq_nil_iff]
    intro p hp
    have hle := (recordsAt_within hp).2
    have hlen : 0 < (Chunk.record p.2).length := hpos _ (List.mem_append_left _ ?_)
    · simp only [decide_eq_true_eq, not_le]
      omega
    · exact mem_of_recordsAt hp
  have hpost : (recordsAt (span pre) post).filter (span pre ≤ ·.1) = recordsAt (span pre) post := by
    rw [List.filter_eq_self]
    intro p hp
    exact decide_eq_true (recordsAt_within hp).1
  rw [recordsAt_append, Nat.zero_add, List.filter_append, hpre, hpost, List.nil_append,
    map_snd_recordsAt]

/-- More chunks in the stream change nothing for the calls. -/
theorem Pc.Reflects.append {stream : List Chunk} {pc : Pc} {p : Pending RingOp RingResult}
    (h : pc.Reflects stream p) (new : List Chunk) : pc.Reflects (stream ++ new) p := by
  have hmem : ∀ {q : ℕ × Record}, q ∈ recordsAt 0 stream → q ∈ recordsAt 0 (stream ++ new) := by
    intro q hq
    rw [recordsAt_append]
    exact List.mem_append_left _ hq
  cases pc with
  | copy c head newHead size i out =>
    obtain ⟨r, hr, hp⟩ := h
    exact ⟨r, hmem hr, hp⟩
  | loadType c head newHead out =>
    obtain ⟨r, hr, hp⟩ := h
    exact ⟨r, hmem hr, hp⟩
  | loadSequence c head newHead out type =>
    obtain ⟨r, hr, hp⟩ := h
    exact ⟨r, hmem hr, hp⟩
  | awaitTurn head newHead k => cases k <;> exact h
  | publish head newHead k => cases k <;> exact h
  | _ => exact h

/-- A consumer that copies the payload of a claimed record. -/
theorem Pc.reflects_copying {stream : List Chunk} {c : PopCall} {head newHead size i : ℕ}
    {out : List UInt8} {r : Record} (hr : (head, r) ∈ recordsAt 0 stream) :
    (copying c head newHead size i out).Reflects stream
      (.effected (.popped (some (resultFor c r)))) := by
  unfold copying
  split
  · exact ⟨r, hr, rfl⟩
  · exact ⟨r, hr, rfl⟩

/-- A call that is about to return false has had no effect yet. -/
theorem Pc.Reflects.of_refused {cap : ℕ} {m : Shared} {stream : List Chunk} {pc pc' : Pc}
    {p : Pending RingOp RingResult} {eff : Effect} (h : pc.Reflects stream p)
    (hs : pc.step cap m .run = some (eff, pc', .refused)) : ∃ c, p = .invoked (.pop c) := by
  cases pc with
  | loadHead c tail => exact ⟨c, h⟩
  | loadFlags c tail head => exact ⟨c, h⟩
  | loadSize c tail head => exact ⟨c, h⟩
  | publish head newHead k => cases k <;> cases hs
  | _ => cases hs

section Steps

variable {cap i : ℕ} {s : State} {tr : List Event} {pending : List Reservation}
  {passed claimed ahead : List Chunk} {a : AtomicState Process (List Record) RingOp RingResult}

/-- The chunks before `head_reserve` are those passed and claimed. -/
theorem Inv.span_eq (h : Inv cap s tr pending passed claimed ahead) :
    span (passed ++ claimed) = s.mem.control.headReserve := by
  rw [span_append, h.pool.span_passed]
  exact h.pool.stream_claimed.eq_add_span.symm

/-- What waits is what lies behind `head_reserve`. -/
theorem waiting_of_split {pre post : List Chunk}
    (hsplit : pre ++ post = publishedChunks (pushes tr))
    (hspan : span pre = s.mem.control.headReserve)
    (hpos : ∀ c ∈ publishedChunks (pushes tr), 0 < c.length) : waiting s tr = records post := by
  unfold waiting
  rw [← hsplit] at hpos
  rw [← hsplit, ← hspan]
  exact filter_recordsAt hpos

/-- A claimed record is in the stream, at its position. -/
theorem Inv.mem_of_owns (h : Inv cap s tr pending passed claimed ahead) {head newHead : ℕ}
    {r : Record} (ho : Owns s.mem claimed head newHead (.record r)) :
    (head, r) ∈ recordsAt 0 (publishedChunks (pushes tr)) := by
  obtain ⟨pre, post, rfl, rfl, -⟩ := ho
  have hmem : (s.mem.control.headPublish + span pre, r) ∈
      recordsAt (s.mem.control.headPublish + span pre) (.record r :: post) := by
    simp [recordsAt, Chunk.record?]
  rw [← h.split, recordsAt_append, recordsAt_append, recordsAt_append, h.pool.span_passed,
    Nat.zero_add]
  exact List.mem_append_right _ (List.mem_append_left _ (List.mem_append_right _ hmem))

/-- The queue follows a step of consumer `i` whose call is as far as `p` then. -/
theorem Follows.consumer (h : Follows s tr a) {m : Shared} {pc : Pc} {e : PopEvent}
    {p : Pending RingOp RingResult} (hp : pc.Reflects (publishedChunks (pushes tr)) p) :
    Follows { s with mem := m, consumers := Function.update s.consumers i pc }
      (tr ++ [.consumer i e]) ⟨Function.update a.pending (.consumer i) p,
        waiting { s with mem := m, consumers := Function.update s.consumers i pc }
          (tr ++ [.consumer i e])⟩ := by
  refine ⟨?_, ?_, rfl, ?_⟩
  · intro j
    show Function.update a.pending (.consumer i) p (.producer j) = _
    rw [Function.update_of_ne (by simp)]
    exact h.producers j
  · intro j
    rw [pushes_consumer]
    show (Function.update s.consumers i pc j).Reflects _
        (Function.update a.pending (.consumer i) p _)
    by_cases hj : j = i
    · subst hj
      rw [Function.update_self, Function.update_self]
      exact hp
    · rw [Function.update_of_ne hj, Function.update_of_ne (by simpa using hj)]
      exact h.consumers j
  · rw [pushes_consumer]
    exact h.length_pos

/-- The compare-exchange takes the oldest record out of the queue, or passes the end of the ring. -/
theorem Follows.claim (h : Follows s tr a) (hinv : Inv cap s tr pending passed claimed ahead)
    {head newHead : ℕ} {k : Claim} (hpc : s.consumers i = .cas head newHead k)
    (heq : s.mem.control.headReserve = head) :
    ∃ a', (messageRules fun _ => True).object.Moves a [] a' ∧
      Follows
        { s with
          mem := (Effect.headReserve newHead).apply s.mem
          consumers := Function.update s.consumers i (.claimed head newHead k) }
        (tr ++ [.consumer i .internal]) a' := by
  have hcall : a.pending (.consumer i) = .invoked (.pop k.call) := by
    have hrefl := h.consumers i
    rw [hpc] at hrefl
    exact hrefl
  have hok := hinv.pool.ok i
  rw [hpc] at hok
  have hstate : a.state = records ahead := by
    rw [h.state]
    exact waiting_of_split (by rw [List.append_assoc]; exact hinv.split) hinv.span_eq h.length_pos
  -- Behind the exchange the queue has what is behind the chunk.
  have hrest : ∀ d rest, ahead = d :: rest → newHead = head + d.length →
      waiting
        { s with
          mem := (Effect.headReserve newHead).apply s.mem
          consumers := Function.update s.consumers i (.claimed head newHead k) }
        (tr ++ [.consumer i .internal]) = records rest := by
    rintro d rest rfl rfl
    have hsplit : passed ++ claimed ++ [d] ++ rest =
        publishedChunks (pushes (tr ++ [.consumer i .internal])) := by
      rw [pushes_consumer, ← hinv.split]
      simp
    refine waiting_of_split hsplit ?_ ?_
    · rw [span_append, hinv.span_eq, heq, span_cons, span_nil]
      rfl
    · rw [pushes_consumer]
      exact h.length_pos
  cases k with
  | again c =>
    obtain ⟨d, rest, ha, hnone, hnew⟩ := hok.2 heq
    have hsame : records ahead = records rest := by
      rw [ha, records, List.filterMap_cons_none hnone]
      rfl
    refine ⟨_, ?_, h.consumer (p := .invoked (.pop c)) rfl⟩
    rw [hrest d rest ha hnew, ← hsame, ← hstate]
    exact .inside hcall
  | take c size =>
    obtain ⟨r, rest, ha, rfl, hnew⟩ := hok.2 heq
    have hmem : (head, r) ∈ recordsAt 0 (publishedChunks (pushes tr)) := by
      rw [← hinv.split, ← List.append_assoc, recordsAt_append, hinv.span_eq, Nat.zero_add, heq, ha]
      exact List.mem_append_right _ (by simp [recordsAt, Chunk.record?])
    have hcons : records ahead = r :: records rest := by
      rw [ha]
      rfl
    refine ⟨_, ?_, h.consumer (Pc.reflects_copying hmem)⟩
    rw [hrest (.record r) rest ha hnew]
    refine .effect (Process.consumer i) (FifoOp.pop c) _ _ .refl hcall ?_
    rw [hstate, hcons]
    exact FifoEffect.pop (of_resultFor c r)

/-- A step of a consumer, as the queue sees it. -/
theorem Follows.pop (h : Follows s tr a) (hinv : Inv cap s tr pending passed claimed ahead)
    {l : PopLabel} {eff : Effect} {pc : Pc} {e : PopEvent}
    (hs : (s.consumers i).step cap s.mem l = some (eff, pc, e)) :
    ∃ a', (messageRules fun _ => True).object.Moves a (popActions i l e) a' ∧
      Follows { s with mem := eff.apply s.mem, consumers := Function.update s.consumers i pc }
        (tr ++ [.consumer i e]) a' := by
  have hrefl := h.consumers i
  have hok := hinv.pool.ok i
  -- Apart from the compare-exchange, no step changes what waits.
  have hwaiting : (eff.apply s.mem).control.headReserve = s.mem.control.headReserve →
      waiting { s with mem := eff.apply s.mem, consumers := Function.update s.consumers i pc }
        (tr ++ [.consumer i e]) = a.state := by
    intro hsame
    rw [h.state]
    unfold waiting
    rw [pushes_consumer]
    show ((recordsAt 0 _).filter ((eff.apply s.mem).control.headReserve ≤ ·.1)).map Prod.snd = _
    rw [hsame]
  have hinside : (eff.apply s.mem).control.headReserve = s.mem.control.headReserve →
      pc.Reflects (publishedChunks (pushes tr)) (a.pending (.consumer i)) → popActions i l e = [] →
      ∃ a', (messageRules fun _ => True).object.Moves a (popActions i l e) a' ∧
        Follows { s with mem := eff.apply s.mem, consumers := Function.update s.consumers i pc }
          (tr ++ [.consumer i e]) a' := by
    intro hsame hnext hact
    refine ⟨_, ?_, h.consumer hnext⟩
    rw [hact, hwaiting hsame]
    exact .inside rfl
  have hrefused : (eff.apply s.mem).control.headReserve = s.mem.control.headReserve →
      l = .run → pc = .idle → e = .refused →
      ∃ a', (messageRules fun _ => True).object.Moves a (popActions i l e) a' ∧
        Follows { s with mem := eff.apply s.mem, consumers := Function.update s.consumers i pc }
          (tr ++ [.consumer i e]) a' := by
    rintro hsame rfl rfl rfl
    obtain ⟨c, hc⟩ := hrefl.of_refused hs
    refine ⟨_, ?_, h.consumer rfl⟩
    rw [hwaiting hsame]
    exact .effect_respond hc (FifoEffect.miss trivial)
  generalize hpc : s.consumers i = pc₀ at hs hrefl hok
  cases l with
  | call c =>
    cases pc₀ with
    | idle =>
      cases hs
      refine ⟨_, ?_, h.consumer rfl⟩
      rw [hwaiting rfl]
      exact .invoke (Process.consumer i) (FifoOp.pop c) .refl hrefl
    | _ => cases hs
  | fail =>
    cases pc₀ with
    | cas head newHead k =>
      cases hs
      exact hinside rfl hrefl rfl
    | _ => cases hs
  | run =>
    cases Pc.step_cases hs with
    | call c => cases hs
    | refuse pc => exact hrefused rfl rfl rfl rfl
    | claim head newHead k heq => exact h.claim hinv hpc heq
    | copy c head newHead size j out =>
      obtain ⟨r, hr, hp⟩ := hrefl
      refine hinside rfl ?_ rfl
      rw [hp]
      exact Pc.reflects_copying hr
    | sequence c head newHead out type =>
      -- The record that was claimed is the one whose bytes were read.
      obtain ⟨r, hr, hp⟩ := hrefl
      obtain ⟨r', hown, rfl, rfl⟩ := hok
      obtain ⟨hfit, hat⟩ := hinv.pool.at_of_owns hown
      obtain rfl : r = r' := record_unique h.length_pos hr (hinv.mem_of_owns hown)
      refine hinside rfl ?_ rfl
      rw [hp, hat.record_sequence hfit]
      rfl
    | wait head newHead k => exact hinside rfl (by cases k <;> exact hrefl) rfl
    | turn head newHead k heq => exact hinside rfl (by cases k <;> exact hrefl) rfl
    | publish head newHead k =>
      cases k with
      | again c => exact hinside rfl hrefl rfl
      | done c res =>
        refine ⟨_, ?_, h.consumer rfl⟩
        rw [hwaiting rfl]
        exact .respond (Process.consumer i) (FifoResult.popped (some res)) .refl hrefl
    | _ => exact hinside rfl hrefl rfl

/-- A step of a producer, as the queue sees it. -/
theorem Follows.push (h : Follows s tr a) (hinv : Inv cap s tr pending passed claimed ahead)
    {l : PushLabel} {eff : Effect} {pc : PushPc} {e : PushEvent}
    (hs : (s.procs i).step cap s.mem l = some (eff, pc, e))
    (hlt : reservedBytes (pushes tr ++ [e]) < 2^64) :
    ∃ a', (messageRules fun _ => True).object.Moves a (pushActions i l e) a' ∧
      Follows { s with mem := eff.apply s.mem, procs := Function.update s.procs i pc }
        (tr ++ [.producer i e]) a' := by
  obtain ⟨pending', -, hview⟩ := hinv.writer.step hs hlt
  have hpublished : publishedChunks (pushes (tr ++ [.producer i e])) =
      publishedChunks (pushes tr) ++ e.newChunks := by
    rw [pushes_producer, publishedChunks_append, publishedChunks_singleton]
  have hpos : ∀ c ∈ publishedChunks (pushes (tr ++ [.producer i e])), 0 < c.length := by
    rw [hpublished]
    intro c hc
    rcases List.mem_append.mp hc with hc | hc
    · exact h.length_pos c hc
    · exact length_pos_of_stream hview.stream c hc
  have hstate : waiting { s with mem := eff.apply s.mem, procs := Function.update s.procs i pc }
      (tr ++ [.producer i e]) = a.state ++ records e.newChunks := by
    have hbefore : a.state = records ahead := by
      rw [h.state]
      exact waiting_of_split (by rw [List.append_assoc]; exact hinv.split) hinv.span_eq h.length_pos
    have hsplit : passed ++ claimed ++ (ahead ++ e.newChunks) =
        publishedChunks (pushes (tr ++ [.producer i e])) := by
      rw [hpublished, ← hinv.split]
      simp
    rw [hbefore, ← records_append]
    exact waiting_of_split hsplit (hinv.span_eq.trans hview.headReserve_eq.symm) hpos
  refine ⟨_, PushPc.moves hs (h.producers i), ?_, ?_, hstate.symm, hpos⟩
  · intro j
    show Function.update a.pending (.producer i) pc.pending (.producer j) =
      (Function.update s.procs i pc j).pending
    by_cases hj : j = i
    · subst hj
      rw [Function.update_self, Function.update_self]
    · rw [Function.update_of_ne hj, Function.update_of_ne (by simpa using hj)]
      exact h.producers j
  · intro j
    rw [hpublished]
    show (s.consumers j).Reflects _
        (Function.update a.pending (.producer i) pc.pending (.consumer j))
    rw [Function.update_of_ne (by simp)]
    exact (h.consumers j).append e.newChunks

end Steps

/-- Two messages are pushed. Consumer 0 claims the first and stops. Consumer 1 claims the second,
copies it and waits for its turn. Then consumer 0 goes on, and consumer 1 returns after it. -/
def overlappingPops : List Label :=
  .producer 0 (.call (.ofBytes (some [1, 2]) 7)) :: List.replicate 13 (.producer 0 .run) ++
    (.producer 1 (.call (.ofBytes none 5)) :: List.replicate 11 (.producer 1 .run)) ++
    (.consumer 0 (.call ⟨[], true⟩) :: List.replicate 5 (.consumer 0 .run)) ++
    (.consumer 1 (.call ⟨[], true⟩) :: List.replicate 9 (.consumer 1 .run)) ++
    List.replicate 6 (.consumer 0 .run) ++ List.replicate 2 (.consumer 1 .run)

/-- What the parties see of that run. -/
def overlappingHistory : List (Action Process RingOp RingResult) :=
  [.invoke (.producer 0) (.push (.ofBytes (some [1, 2]) 7)), .respond (.producer 0) (.pushed true),
    .invoke (.producer 1) (.push (.ofBytes none 5)), .respond (.producer 1) (.pushed true),
    .invoke (.consumer 0) (.pop ⟨[], true⟩), .invoke (.consumer 1) (.pop ⟨[], true⟩),
    .respond (.consumer 0) (.popped (some ⟨[1, 2], 7, some 1⟩)),
    .respond (.consumer 1) (.popped (some ⟨[], 5, some 2⟩))]

end LfRing.Mpmc

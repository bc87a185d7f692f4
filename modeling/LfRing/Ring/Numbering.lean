import Mathlib.Algebra.BigOperators.Group.List.Basic
import LfRing.Ring.Calls
import LfRing.Ring.Mpsc
import LfRing.Ring.Producers

/-!
# Sequence numbers

A producer draws its sequence number from `control.sequence` when its turn to publish has come, and
the wait for `tail_publish` lets one producer at a time do so. `Counted` says what follows for the
counter: while no producer holds a number it counts the reservations published, and a number that
is held is the next one. `OnRing` is the other half, that the ring has what is published until it is
consumed.

`sequence_follows_order` puts the two together, for producers beside any consumers and for the
results of the single consumer of a `SharedRingBuffer`. Both rest on the counters not wrapping:
`sequence_wraps` is the run in which the counter of sequence numbers does.
-/

namespace LfRing

/-! ## The counter -/

/-- The sequence number that a producer has drawn and not yet published. -/
def PushPc.drawn? : PushPc → Option ℕ
  | storeSequence _ n => some n
  | publish _ n => some n
  | _ => none

/-- A producer that makes its stores has drawn no number yet. -/
@[simp] theorem PushPc.drawn?_storing (r : Reservation) (todo : List Store) :
    (storing r todo).drawn? = none := by
  cases todo <;> rfl

/-- How often an effect touches `control.sequence`. -/
def Effect.draws : Effect → ℕ
  | sequence _ => 1
  | _ => 0

/-- A producer that holds a number is the one whose turn it is. -/
theorem WriterInv.turn_of_drawn {cap : ℕ} {m : Shared} {procs : ℕ → PushPc}
    {pending : List Reservation} (h : WriterInv cap m procs pending) {i n : ℕ}
    (hi : (procs i).drawn? = some n) :
    ∃ r, (procs i).reservation? = some r ∧ r.start = m.control.tailPublish := by
  have hok := h.ok i
  generalize procs i = pc at hok hi
  cases pc with
  | storeSequence r n => exact ⟨r, rfl, hok.2.2.1⟩
  | publish r n => exact ⟨r, rfl, hok.2.2⟩
  | _ => cases hi

/-- No producer but the one whose turn it is holds a number. -/
theorem WriterInv.eq_of_turn {cap : ℕ} {m : Shared} {procs : ℕ → PushPc}
    {pending : List Reservation} (h : WriterInv cap m procs pending) {i j n : ℕ} {r : Reservation}
    (hr : (procs i).reservation? = some r) (hturn : r.start = m.control.tailPublish)
    (hj : (procs j).drawn? = some n) : j = i := by
  obtain ⟨r', hr', hturn'⟩ := h.turn_of_drawn hj
  exact h.distinct j i r' r hr' hr (hturn'.trans hturn.symm)

/-- The counter `control.sequence` and the numbers drawn from it, when the reservations `ps` have
been published. -/
structure Counted (m : Shared) (procs : ℕ → PushPc) (ps : List (Reservation × ℕ)) : Prop where
  /-- The reservations are numbered in the order in which they are published. -/
  numbers : ps.map Prod.snd = List.range' 1 ps.length
  /-- While no producer holds a number, the counter counts what is published. -/
  counter : (∀ i, (procs i).drawn? = none) → m.control.sequence = ps.length
  /-- A number that a producer holds is the next one, and the last one drawn. -/
  drawn : ∀ i n, (procs i).drawn? = some n →
    n = ps.length + 1 ∧ m.control.sequence = ps.length + 1

namespace Counted

variable {cap : ℕ} {m m' : Shared} {procs : ℕ → PushPc} {ps : List (Reservation × ℕ)}
  {pending : List Reservation} {i : ℕ} {pc' : PushPc}

/-- A fresh ring with all producers idle. -/
theorem fresh : Counted Shared.fresh (fun _ => .idle) [] :=
  ⟨rfl, fun _ => rfl, by rintro _ _ ⟨⟩⟩

/-- The consumers do not touch the counter. -/
theorem of_eq (h : Counted m procs ps) (hseq : m'.control.sequence = m.control.sequence) :
    Counted m' procs ps :=
  ⟨h.numbers, fun hn => hseq.trans (h.counter hn), fun i n hi =>
    ⟨(h.drawn i n hi).1, hseq.trans (h.drawn i n hi).2⟩⟩

/-- The counter is never more than one ahead of what is published. -/
theorem sequence_bounds (h : Counted m procs ps) :
    ps.length ≤ m.control.sequence ∧ m.control.sequence ≤ ps.length + 1 := by
  by_cases hnone : ∀ i, (procs i).drawn? = none
  · have := h.counter hnone
    omega
  · obtain ⟨i, hi⟩ := not_forall.mp hnone
    obtain ⟨n, hn⟩ := Option.ne_none_iff_exists'.mp hi
    have := (h.drawn i n hn).2
    omega

/-- A producer's step that neither draws nor publishes. -/
theorem of_quiet (h : Counted m procs ps) (hseq : m'.control.sequence = m.control.sequence)
    (hpc : pc'.drawn? = (procs i).drawn?) : Counted m' (Function.update procs i pc') ps := by
  have hsame : ∀ j, (Function.update procs i pc' j).drawn? = (procs j).drawn? := by
    intro j
    by_cases hj : j = i
    · rw [hj, Function.update_self, hpc]
    · rw [Function.update_of_ne hj]
  refine (Counted.mk h.numbers ?_ ?_ : Counted m _ ps).of_eq hseq
  · intro hn
    exact h.counter fun j => (hsame j).symm.trans (hn j)
  · intro j n hj
    exact h.drawn j n ((hsame j).symm.trans hj)

/-- The draw. Nobody holds a number, as the turn is the drawing producer's. -/
theorem of_fetch (h : Counted m procs ps) (hw : WriterInv cap m procs pending)
    (hlt : ps.length + 1 < 2^64) {r : Reservation} (hpc : procs i = .fetchSequence r) :
    Counted ((Effect.sequence (u64 (m.control.sequence + 1))).apply m)
        (Function.update procs i (.storeSequence r (u64 (m.control.sequence + 1)))) ps ∧
      u64 (m.control.sequence + 1) = m.control.sequence + 1 := by
  have hok := hw.ok i
  rw [hpc] at hok
  have hnone : ∀ j, (procs j).drawn? = none := by
    intro j
    by_contra hne
    obtain ⟨n, hn⟩ := Option.ne_none_iff_exists'.mp hne
    obtain rfl : j = i := hw.eq_of_turn (by rw [hpc]; rfl) hok.2.2 hn
    rw [hpc] at hn
    cases hn
  have hseq := h.counter hnone
  have hu : u64 (m.control.sequence + 1) = ps.length + 1 := by rw [hseq, u64_of_lt hlt]
  refine ⟨⟨h.numbers, ?_, ?_⟩, by rw [hu, hseq]⟩
  · intro hn
    have := hn i
    rw [Function.update_self] at this
    cases this
  · intro j n hj
    refine ⟨?_, hu⟩
    by_cases hji : j = i
    · subst hji
      rw [Function.update_self] at hj
      exact (Option.some.inj hj).symm.trans hu
    · rw [Function.update_of_ne hji, hnone j] at hj
      cases hj

/-- The publication of the number that was drawn. -/
theorem of_publish (h : Counted m procs ps) (hw : WriterInv cap m procs pending)
    {r : Reservation} {n : ℕ} (hpc : procs i = .publish r n)
    (hseq : m'.control.sequence = m.control.sequence) :
    Counted m' (Function.update procs i .idle) (ps ++ [(r, n)]) := by
  have hok := hw.ok i
  rw [hpc] at hok
  obtain ⟨hn, hcount⟩ := h.drawn i n (by rw [hpc]; rfl)
  have hlen : (ps ++ [(r, n)]).length = ps.length + 1 := by simp
  refine ⟨?_, ?_, ?_⟩
  · rw [List.map_append, h.numbers, hlen, List.range'_1_concat, hn, Nat.add_comm 1]
    rfl
  · intro _
    rw [hseq, hcount, hlen]
  · -- A producer that still held a number would have the same turn.
    intro j k hj
    by_cases hji : j = i
    · rw [hji, Function.update_self] at hj
      cases hj
    · rw [Function.update_of_ne hji] at hj
      exact absurd (hw.eq_of_turn (by rw [hpc]; rfl) hok.2.2 hj) hji

/-- Every step of a producer keeps the numbers in order, and moves the counter by its draw. -/
theorem step (h : Counted m procs ps) (hw : WriterInv cap m procs pending)
    (hlt : ps.length + pending.length < 2^64) {l : PushLabel} {eff : Effect} {e : PushEvent}
    (hs : (procs i).step cap m l = some (eff, pc', e)) :
    Counted (eff.apply m) (Function.update procs i pc') (ps ++ e.published?) ∧
      (eff.apply m).control.sequence = m.control.sequence + eff.draws := by
  have hok := hw.ok i
  generalize hpc : procs i = pc at hs hok
  have hquiet : ∀ {m' pc'}, m'.control.sequence = m.control.sequence → pc'.drawn? = pc.drawn? →
      Counted m' (Function.update procs i pc') (ps ++ []) := by
    intro m' pc' hseq hdrawn
    rw [List.append_nil]
    exact h.of_quiet hseq (by rw [hdrawn, hpc])
  cases PushPc.step_cases hs with
  | reserve r htail => exact ⟨hquiet rfl (PushPc.drawn?_storing r _), rfl⟩
  | store r st todo => exact ⟨hquiet rfl (PushPc.drawn?_storing r _), rfl⟩
  | fetch r =>
    -- The reservation that is about to be numbered is pending, which leaves room for its number.
    have hpos := List.length_pos_of_mem hok.1
    obtain ⟨hcounted, hu⟩ := h.of_fetch hw (by omega) hpc
    rw [← List.append_nil ps] at hcounted
    exact ⟨hcounted, hu⟩
  | publish r n => exact ⟨h.of_publish hw hpc rfl, rfl⟩
  | _ => exact ⟨hquiet rfl rfl, rfl⟩

/-- The records published are numbered from one on. -/
theorem sequence_eq {es : List PushEvent} (h : Counted m procs (publications es)) {k : ℕ}
    {r : Record} (hr : (records (publishedChunks es))[k]? = some r) : r.sequence = k + 1 := by
  rw [records_publishedChunks, List.getElem?_map, Option.map_eq_some_iff] at hr
  obtain ⟨⟨r', n⟩, hget, rfl⟩ := hr
  have hnum : (List.range' 1 (publications es).length)[k]? = some n := by
    rw [← h.numbers, List.getElem?_map, hget]
    rfl
  obtain ⟨hlt, heq⟩ := List.getElem?_eq_some_iff.mp hnum
  rw [List.getElem_range'] at heq
  change n = k + 1
  omega

end Counted

/-- Every reservation takes at least one byte. -/
theorem WriterHistory.length_le {cap : ℕ} {m : Shared} {procs : ℕ → PushPc} {es : List PushEvent}
    {pending : List Reservation} (h : WriterHistory cap m procs es pending) :
    (publications es).length + pending.length ≤ reservedBytes es := by
  have hlen : (reservations es).length = (publications es).length + pending.length := by
    rw [h.reservations_eq, List.length_append, List.length_map]
  have hle : ((reservations es).map Reservation.total).length ≤ reservedBytes es := by
    refine List.length_le_sum_of_one_le _ ?_
    intro n hn
    obtain ⟨r, -, rfl⟩ := List.mem_map.mp hn
    exact le_trans (by decide) (Reservation.Placed.total_pos r)
  rw [List.length_map] at hle
  omega

/-! ## The ring -/

/-- A record of a stream lies between the ends of the stream. -/
theorem recordsAt_within {o : ℕ} {cs : List Chunk} {p : ℕ × Record} (hp : p ∈ recordsAt o cs) :
    o ≤ p.1 ∧ p.1 + (Chunk.record p.2).length ≤ o + span cs := by
  induction cs generalizing o with
  | nil => simp [recordsAt] at hp
  | cons c cs ih =>
    rw [span_cons]
    rcases List.mem_append.mp hp with hp | hp
    · obtain ⟨r, hr, rfl⟩ := List.mem_map.mp hp
      cases c with
      | record r' =>
        obtain rfl : r = r' := by simpa [Chunk.record?] using hr
        exact ⟨le_rfl, Nat.add_le_add_left (Nat.le_add_right _ _) o⟩
      | _ => simp [Chunk.record?] at hr
    · have := ih hp
      omega

/-- The ring has the records of its streams. -/
theorem Stream.record_at {cap : ℕ} {ring : Memory} {o e : ℕ} {cs : List Chunk} {p : ℕ × Record}
    (h : Stream cap ring o cs e) (hp : p ∈ recordsAt o cs) :
    (Chunk.record p.2).Fits cap p.1 ∧ (Chunk.record p.2).At cap ring p.1 := by
  induction cs generalizing o with
  | nil => simp [recordsAt] at hp
  | cons c cs ih =>
    rcases List.mem_append.mp hp with hp | hp
    · obtain ⟨r, hr, rfl⟩ := List.mem_map.mp hp
      cases c with
      | record r' =>
        obtain rfl : r = r' := by simpa [Chunk.record?] using hr
        exact ⟨h.1, h.2.1⟩
      | _ => simp [Chunk.record?] at hr
    · exact ih h.2.2 hp

/-- The stream `cs` has been published, and the ring has every record of it that `head_publish` has
not passed. -/
structure OnRing (cap : ℕ) (m : Shared) (cs : List Chunk) : Prop where
  /-- `tail_publish` is the length of the stream. -/
  tail : m.control.tailPublish = span cs
  /-- The records from `head_publish` on are in the ring. -/
  record : ∀ p ∈ recordsAt 0 cs, m.control.headPublish ≤ p.1 →
    (Chunk.record p.2).Fits cap p.1 ∧ (Chunk.record p.2).At cap m.ring p.1

namespace OnRing

variable {cap : ℕ} {m m' : Shared} {cs new : List Chunk}

/-- Nothing is published in a fresh ring. -/
theorem fresh (cap : ℕ) : OnRing cap Shared.fresh [] := ⟨rfl, by simp [recordsAt]⟩

/-- A producer's step leaves what is published, and puts what it publishes behind it. -/
theorem publish (h : OnRing cap m cs) (hview : ProducerView cap m m' new) :
    OnRing cap m' (cs ++ new) := by
  refine ⟨by rw [hview.stream.eq_add_span, h.tail, span_append], ?_⟩
  intro p hp hhead
  rw [recordsAt_append, Nat.zero_add, ← h.tail] at hp
  rw [hview.headPublish_eq] at hhead
  rcases List.mem_append.mp hp with hp | hp
  · obtain ⟨hfit, hat⟩ := h.record p hp hhead
    have hle := (recordsAt_within hp).2
    rw [Nat.zero_add, ← h.tail] at hle
    exact ⟨hfit, hat.frame hfit (hview.agree.mono hhead hle)⟩
  · exact hview.stream.record_at hp

/-- The consumers leave what they have not passed. -/
theorem advance (h : OnRing cap m cs) (hle : m.control.headPublish ≤ m'.control.headPublish)
    (htail : m'.control.tailPublish = m.control.tailPublish) (hring : m'.ring = m.ring) :
    OnRing cap m' cs := by
  refine ⟨htail.trans h.tail, ?_⟩
  intro p hp hhead
  rw [hring]
  exact h.record p hp (le_trans hle hhead)

end OnRing

/-! ## Producers beside any consumers -/

namespace Producers

/-- The events of the producers. -/
def Event.push? : Event → List PushEvent
  | .producer _ _ e => [e]
  | .advanced _ => []

/-- How often a step touches `control.sequence`. -/
def Event.draws : Event → ℕ
  | .producer _ eff _ => eff.draws
  | .advanced _ => 0

/-- The events of the producers, oldest first. -/
def pushes (tr : List Event) : List PushEvent := tr.flatMap Event.push?

/-- How often `control.sequence` has been touched. -/
def draws (tr : List Event) : ℕ := (tr.map Event.draws).sum

/-- The events of the producers in two parts of a run, one after the other. -/
@[simp] theorem pushes_append (tr tr' : List Event) :
    pushes (tr ++ tr') = pushes tr ++ pushes tr' := by
  simp [pushes]

/-- The accesses of `control.sequence` in two parts of a run add up. -/
@[simp] theorem draws_append (tr tr' : List Event) : draws (tr ++ tr') = draws tr + draws tr' := by
  simp [draws]

/-- The bytes reserved, read off the events of the producers. -/
theorem reservedBytes_pushes (tr : List Event) :
    LfRing.reservedBytes (pushes tr) = reservedBytes tr := by
  induction tr with
  | nil => rfl
  | cons e tr ih =>
    have hcons : e :: tr = [e] ++ tr := rfl
    have hbytes : LfRing.reservedBytes (pushes [e]) = e.bytes := by
      cases e with
      | advanced head => rfl
      | producer i eff e => simp [pushes, Event.push?, Event.bytes_producer]
    rw [hcons, pushes_append, LfRing.reservedBytes_append, ih, hbytes]
    simp [reservedBytes]

/-- Numbers and records, at every moment of a run. -/
structure Numbered (cap : ℕ) (s : State) (tr : List Event) : Prop where
  /-- The producers' history. -/
  writer : ∃ pending, WriterHistory cap s.mem s.procs (pushes tr) pending
  /-- The counter and the numbers. -/
  counted : Counted s.mem s.procs (publications (pushes tr))
  /-- The records in the ring. -/
  ring : OnRing cap s.mem (publishedChunks (pushes tr))
  /-- The counter counts how often it is touched. -/
  touched : s.mem.control.sequence = draws tr

/-- Every step keeps the numbers in order and the records in the ring. -/
theorem Numbered.step {cap : ℕ} {s s' : State} {tr : List Event} {l : Label} {e : Event}
    (h : Numbered cap s tr) (hs : Producers.step cap s l = some (s', e))
    (hlt : reservedBytes (tr ++ [e]) < 2^64) : Numbered cap s' (tr ++ [e]) := by
  obtain ⟨pending, hw⟩ := h.writer
  rw [← reservedBytes_pushes, pushes_append] at hlt
  cases l with
  | advance head =>
    simp only [Producers.step] at hs
    split_ifs at hs with hhead
    cases hs
    have hpushes : pushes (tr ++ [.advanced head]) = pushes tr := by simp [pushes, Event.push?]
    refine ⟨⟨pending, ?_⟩, ?_, ?_, ?_⟩
    · rw [hpushes]
      exact hw.advance hhead.1 hhead.2 rfl rfl rfl
    · rw [hpushes]
      exact h.counted.of_eq rfl
    · rw [hpushes]
      exact h.ring.advance hhead.1 rfl rfl
    · rw [draws_append]
      exact h.touched
  | producer i l =>
    obtain ⟨eff, pc, pe, hstep, rfl, rfl⟩ := step_producer hs
    have hpushes : pushes [.producer i eff pe] = [pe] := by simp [pushes, Event.push?]
    rw [hpushes] at hlt
    obtain ⟨pending', hw', hview⟩ := hw.step hstep hlt
    have hlen := hw.length_le
    rw [LfRing.reservedBytes_append] at hlt
    obtain ⟨hcounted, hseq⟩ := h.counted.step hw.inv (by omega) hstep
    refine ⟨⟨pending', ?_⟩, ?_, ?_, ?_⟩
    · rw [pushes_append, hpushes]
      exact hw'
    · rw [pushes_append, hpushes, publications_append]
      simpa [publications] using hcounted
    · rw [pushes_append, hpushes, publishedChunks_append, publishedChunks_singleton]
      exact h.ring.publish hview
    · rw [draws_append, ← h.touched]
      simpa [draws, Event.draws] using hseq

/-- Numbers and records are in order in every run that does not make the reservation counter
wrap. -/
theorem numbered_of_reaches {cap : ℕ} {s : State} {tr : List Event}
    (h : (machine cap).Reaches s tr) (hlt : reservedBytes tr < 2^64) : Numbered cap s tr := by
  refine h.invariant_of (fun tr => reservedBytes tr < 2^64) ?_ (Numbered cap) ?_ ?_ hlt
  · intro tr e hb
    rw [reservedBytes_append] at hb
    omega
  · exact ⟨⟨[], .fresh cap⟩, .fresh, .fresh cap, rfl⟩
  · intro s tr l s' e _ hb hinv hs
    exact hinv.step hs hb

/-- The k-th record published has the number `k + 1`, and so has its header in the ring until
`head_publish` passes it. -/
theorem Numbered.header {cap : ℕ} {s : State} {tr : List Event} (h : Numbered cap s tr) {k o : ℕ}
    {r : Record} (hr : (recordsAt 0 (publishedChunks (pushes tr)))[k]? = some (o, r)) :
    r.sequence = k + 1 ∧
      (s.mem.control.headPublish ≤ o → s.mem.ring.load (o % cap + 8) 8 = k + 1) := by
  have hseq : r.sequence = k + 1 := by
    refine h.counted.sequence_eq ?_
    rw [← map_snd_recordsAt 0, List.getElem?_map, hr]
    rfl
  refine ⟨hseq, ?_⟩
  intro hhead
  obtain ⟨hfit, hat⟩ := h.ring.record _ (List.mem_of_getElem? hr) hhead
  exact (hat.record_sequence hfit).trans hseq

/-- Between two publications the counter is touched at most once. -/
theorem draws_le_one {cap : ℕ} {s : State} {pre mid post : List Event}
    (h : (machine cap).Reaches s (pre ++ mid ++ post))
    (hlt : reservedBytes (pre ++ mid ++ post) < 2^64) (hmid : publications (pushes mid) = []) :
    draws mid ≤ 1 := by
  have hbytes : reservedBytes (pre ++ mid ++ post) =
      reservedBytes pre + reservedBytes mid + reservedBytes post := by
    simp only [reservedBytes, List.map_append, List.sum_append]
  have hbytes' : reservedBytes (pre ++ mid) = reservedBytes pre + reservedBytes mid := by
    simp only [reservedBytes, List.map_append, List.sum_append]
  obtain ⟨s₂, h₂⟩ := h.front
  obtain ⟨s₁, h₁⟩ := h₂.front
  have hn₁ := numbered_of_reaches h₁ (by omega)
  have hn₂ := numbered_of_reaches h₂ (by omega)
  -- The counter is at most one ahead of the publications, of which there are no more than before.
  have hlow := hn₁.counted.sequence_bounds.1
  have hhigh := hn₂.counted.sequence_bounds.2
  rw [hn₁.touched] at hlow
  rw [hn₂.touched, pushes_append, publications_append, hmid, List.append_nil, draws_append] at hhigh
  omega

end Producers

/-! ## The single consumer -/

namespace Mpsc

/-- The results returned in two parts of a run. -/
theorem returned_append (tr tr' : List Event) :
    returned (tr ++ tr') = returned tr ++ returned tr' := by
  simp [returned, pops]

/-- The numbers are in order in every run of a `SharedRingBuffer` that does not make the reservation
counter wrap. -/
theorem counted_of_run {mapping : Mapping} {s : State} {tr : List Event}
    (hfresh : mapping.shared = Shared.fresh) (h : (machine mapping).Reaches s tr)
    (hlt : reservedBytes (pushes tr) < 2^64) :
    ∃ pending passed ahead seen, Inv mapping.capacity s tr pending passed ahead seen ∧
      Counted s.mem s.procs (publications (pushes tr)) := by
  refine h.invariant_of (fun tr => reservedBytes (pushes tr) < 2^64) ?_
    (fun s tr => ∃ pending passed ahead seen,
      Inv mapping.capacity s tr pending passed ahead seen ∧
        Counted s.mem s.procs (publications (pushes tr))) ?_ ?_ hlt
  · exact fun tr e => reservedBytes_lt_of_append Event.push? tr [e]
  · refine ⟨[], [], [], [], ?_⟩
    simp only [machine, hfresh]
    exact ⟨Inv.fresh _, .fresh⟩
  · rintro s tr l s' e - hb ⟨pending, passed, ahead, seen, hinv, hcounted⟩ hs
    cases l with
    | producer i l =>
      obtain ⟨eff, pc, pe, hstep, rfl, rfl⟩ := step_producer hs
      rw [pushes_producer] at hb
      obtain ⟨pending', ahead', hinv'⟩ := hinv.producer hstep hb
      refine ⟨pending', passed, ahead', seen, hinv', ?_⟩
      have hlen := hinv.writer.length_le
      rw [reservedBytes_append] at hb
      rw [pushes_producer, publications_append]
      simpa [publications] using (hcounted.step hinv.writer.inv (by omega) hstep).1
    | consumer l =>
      obtain ⟨eff, pc, pe, hstep, rfl, rfl⟩ := step_consumer hs
      obtain ⟨passed', ahead', seen', hinv'⟩ := hinv.consumer hstep
      refine ⟨pending, passed', ahead', seen', hinv', ?_⟩
      obtain ⟨-, -, -, -, hview, -⟩ := hinv.reader.step hinv.writer.tailPublish_lt hstep
      rw [pushes_consumer]
      exact hcounted.of_eq hview.sequence_eq

/-- The k-th result returned has the number `k + 1`, if a number was asked for. -/
theorem returned_sequence {mapping : Mapping} {s : State} {tr : List Event}
    (hfresh : mapping.shared = Shared.fresh) (h : (machine mapping).Reaches s tr)
    (hlt : reservedBytes (pushes tr) < 2^64) {k : ℕ} {c : PopCall} {res : Popped}
    (hres : (returned tr)[k]? = some (c, res)) :
    res.sequence = if c.wantSequence then some (k + 1) else none := by
  obtain ⟨pending, passed, ahead, seen, hinv, hcounted⟩ := counted_of_run hfresh h hlt
  have hcons : (consumed tr)[k]? = some (c, res) := by
    obtain ⟨hk, -⟩ := List.getElem?_eq_some_iff.mp hres
    rw [hinv.consumed_eq, List.getElem?_append_left hk, hres]
  obtain ⟨hk, hget⟩ := List.getElem?_eq_some_iff.mp hcons
  -- The result is that of the k-th record passed, which is the k-th published.
  have hk' : k < (records passed).length := hinv.reader.consumed.length_eq ▸ hk
  have hof := hinv.reader.consumed.get hk hk'
  rw [List.get_eq_getElem, hget] at hof
  have hseq : ((records passed).get ⟨k, hk'⟩).sequence = k + 1 := by
    refine hcounted.sequence_eq ?_
    rw [← hinv.split, records_append, List.getElem?_append_left hk']
    exact List.getElem?_eq_getElem hk'
  rw [hof.2.2, hseq]

end Mpsc

/-- Sequence numbers follow the order of the ring without gaps, while fewer than `2^64` bytes are
reserved. For any number of producers on a fresh ring, beside consumers that move `head_publish`
forward and not past `tail_publish`, in every interleaving of single accesses:

* the records published are numbered 1, 2, 3, ... in the order of their positions, and the header of
  each has its number from the publication until `head_publish` passes the record;
* between two publications `control.sequence` is touched at most once.

And the results of the single consumer of a `SharedRingBuffer` that `create` has made are numbered
1, 2, 3, ... in the order in which they are popped. -/
theorem sequence_follows_order :
    (∀ {cap : ℕ} {s : Producers.State} {tr : List Producers.Event},
      (Producers.machine cap).Reaches s tr → Producers.reservedBytes tr < 2^64 →
      (∀ k o r, (recordsAt 0 (publishedChunks (Producers.pushes tr)))[k]? = some (o, r) →
        r.sequence = k + 1 ∧
          (s.mem.control.headPublish ≤ o → s.mem.ring.load (o % cap + 8) 8 = k + 1)) ∧
      ∀ pre mid post, tr = pre ++ mid ++ post → publications (Producers.pushes mid) = [] →
        Producers.draws mid ≤ 1) ∧
    ∀ {capacityBytes : ℕ} {mapping : Mapping} {s : Mpsc.State} {tr : List Mpsc.Event},
      createMapping capacityBytes kFlagMPSC = .ok mapping → (Mpsc.machine mapping).Reaches s tr →
      reservedBytes (Mpsc.pushes tr) < 2^64 →
      ∀ k c res, (Mpsc.returned tr)[k]? = some (c, res) →
        res.sequence = if c.wantSequence then some (k + 1) else none := by
  constructor
  · intro cap s tr hrun hbytes
    constructor
    · intro k o r hr
      exact (Producers.numbered_of_reaches hrun hbytes).header hr
    · rintro pre mid post rfl hmid
      exact Producers.draws_le_one hrun hbytes hmid
  · intro capacityBytes mapping s tr hcreate hrun hbytes k c res hres
    exact Mpsc.returned_sequence (createMapping_shared hcreate) hrun hbytes hres

/-- Two producers that push three bytes each, one behind the other. -/
def twoPushes : List Producers.Label :=
  let a : PushArgs := .ofBytes (some [1, 2, 3]) 7
  .producer 0 (.call a) :: List.replicate 14 (.producer 0 .run) ++
    .producer 1 (.call a) :: List.replicate 14 (.producer 1 .run)

/-- A push of three bytes, and then a pop that asks for the number. -/
def pushThenNumber : List Mpsc.Label :=
  let a : PushArgs := .ofBytes (some [1, 2, 3]) 7
  .producer 0 (.call a) :: List.replicate 14 (.producer 0 .run) ++
    .consumer (.call ⟨[], true⟩) :: List.replicate 11 (.consumer .run)

/-- Two records in a ring of 64 bytes, numbered one and two, and a number that is popped. -/
theorem sequence_follows_order_twoPushes :
    (∃ s tr o o' r r', (Producers.machine 64).Reaches s tr ∧ Producers.reservedBytes tr < 2^64 ∧
      recordsAt 0 (publishedChunks (Producers.pushes tr)) = [(o, r), (o', r')] ∧
      s.mem.ring.load (o % 64 + 8) 8 = 1 ∧ s.mem.ring.load (o' % 64 + 8) 8 = 2) ∧
    ∃ mapping s tr c res, createMapping 64 kFlagMPSC = .ok mapping ∧
      (Mpsc.machine mapping).Reaches s tr ∧ reservedBytes (Mpsc.pushes tr) < 2^64 ∧
      Mpsc.returned tr = [(c, res)] ∧ res.sequence = some 1 := by
  constructor
  · obtain ⟨s, tr, hrun, htest⟩ := (Producers.machine 64).exists_reaches twoPushes
      (fun s tr => decide (Producers.reservedBytes tr < 2^64) &&
        decide ((recordsAt 0 (publishedChunks (Producers.pushes tr))).length = 2) &&
        decide (s.mem.control.headPublish = 0)) (by decide +kernel)
    simp only [Bool.and_eq_true, decide_eq_true_eq] at htest
    obtain ⟨⟨hbytes, hlen⟩, hhead⟩ := htest
    obtain ⟨⟨o, r⟩, ⟨o', r'⟩, hrecs⟩ := List.length_eq_two.mp hlen
    have hnum := (sequence_follows_order.1 hrun hbytes).1
    rw [hrecs, hhead] at hnum
    exact ⟨s, tr, o, o', r, r', hrun, hbytes, hrecs, (hnum 0 o r rfl).2 (Nat.zero_le _),
      (hnum 1 o' r' rfl).2 (Nat.zero_le _)⟩
  · obtain ⟨mapping, hmap⟩ : ∃ mapping, createMapping 64 kFlagMPSC = .ok mapping := ⟨_, rfl⟩
    obtain ⟨s, tr, hrun, htest⟩ := (Mpsc.machine mapping).exists_reaches pushThenNumber
      (fun s tr => decide (reservedBytes (Mpsc.pushes tr) < 2^64) &&
        decide ((Mpsc.returned tr).map (fun p => p.1.wantSequence) = [true]))
      (by cases hmap; decide +kernel)
    simp only [Bool.and_eq_true, decide_eq_true_eq] at htest
    obtain ⟨hbytes, hwant⟩ := htest
    obtain ⟨⟨c, res⟩, hret, hc⟩ := List.map_eq_singleton_iff.mp hwant
    have hnum := sequence_follows_order.2 hmap hrun hbytes 0 c res (by rw [hret]; rfl)
    rw [hc] at hnum
    exact ⟨mapping, s, tr, c, res, hmap, hrun, hbytes, hret, hnum⟩

/-! ## The counter of sequence numbers wraps -/

namespace Mpsc

/-- Producer 0 and the consumer, with all other producers idle. -/
def lone (m : Shared) (p : PushPc) (c : PopPc) : State :=
  ⟨m, Function.update (fun _ => .idle) 0 p, c⟩

section Lone

variable {mapping : Mapping} {m : Shared} {p p' : PushPc} {c c' : PopPc} {eff : Effect}

/-- What a producer does alone with the memory, it does beside a consumer that does not move. -/
theorem lone_producer {who : PushLabel → Prop} {es : List PushEvent} {m' : Shared}
    (hp : (pushMachine mapping.capacity).Path who (m, p) es (m', p')) :
    (machine mapping).Path (fun _ => True) (lone m p c) (es.map (.producer 0)) (lone m' p' c) := by
  refine hp.map (fun x : Shared × PushPc => lone x.1 x.2 c) (Label.producer 0) (Event.producer 0)
    (fun _ _ => trivial) ?_
  intro s l s' e _ hs
  obtain ⟨eff, hstep, hmem⟩ := pushMachine_step hs
  simp [machine, step, lone, hstep, hmem]

/-- It returns nothing to the consumer. -/
theorem returned_map_producer (es : List PushEvent) :
    returned (es.map (Event.producer 0)) = [] := by
  simp [returned, pops, List.flatMap_map, Event.pop?]

/-- A step of the consumer. -/
theorem lone_consumer {l : PopLabel} {e : PopEvent}
    (hs : c.step .publishFirst mapping.capacity m l = some (eff, c', e)) :
    (machine mapping).Path (fun _ => True) (lone m p c) [.consumer e]
      (lone (eff.apply m) p c') := by
  refine .single (.consumer l) trivial ?_
  simp [machine, step, lone, hs]

/-- The arguments of an empty message. -/
def emptyMessage : PushArgs := .ofBytes none 0

/-- The space that an empty message takes. -/
theorem recordSize_emptyMessage : emptyMessage.recordSize = 16 := by decide

/-- What a producer reserves for an empty message in a ring of 16 bytes. -/
def emptyAt (t : ℕ) : Reservation := ⟨emptyMessage, t, 0, false⟩

/-- It takes the whole ring. -/
theorem total_emptyAt (t : ℕ) : (emptyAt t).total = 16 := by
  unfold Reservation.total emptyAt
  rw [recordSize_emptyMessage]

/-- It is placed at the start of the ring. -/
theorem placed_emptyAt {t : ℕ} (ht : t % 16 = 0) : (emptyAt t).Placed 16 := by
  have hrej : ¬ emptyMessage.rejected 16 := by decide
  refine ⟨PushArgs.accepted_of_not_rejected hrej, le_of_eq (total_emptyAt t), Or.inl ⟨rfl, ?_⟩⟩
  change emptyMessage.recordSize ≤ 16 - t % 16
  rw [recordSize_emptyMessage, ht]

/-- It is what the space checks of an empty ring let pass. -/
theorem reserve_emptyMessage {t : ℕ} (ht : t % 16 = 0) (hlt : t < 2^64) :
    reserve 16 emptyMessage t t = some (emptyAt t) := by
  have hplace : place 16 emptyMessage t = emptyAt t := by
    unfold place sizeofRecordHeader emptyAt
    dsimp only
    rw [ht, recordSize_emptyMessage, if_neg (by omega), if_neg (by omega)]
  unfold reserve
  dsimp only
  rw [hplace, total_emptyAt, sub64_of_le le_rfl hlt, Nat.sub_self, Nat.zero_add,
    u64_of_lt (by decide), if_neg (by decide), if_neg (by decide)]

/-- A push of an empty message that is not disturbed, into a ring of 16 bytes that is empty. -/
theorem exists_push (hcap : mapping.capacity = 16) {t q : ℕ} (hm : m.control = ⟨t, t, t, t, q⟩)
    (ht : t % 16 = 0) (hlt : t < 2^64) :
    ∃ es m', (machine mapping).Path (fun _ => True) (lone m .idle c) es (lone m' .idle c) ∧
      returned es = [] ∧ m'.control = ⟨t, t, u64 (t + 16), u64 (t + 16), u64 (q + 1)⟩ ∧
      (Chunk.record ⟨⟨[], 0⟩, u64 (q + 1)⟩).Fits 16 t ∧
      (Chunk.record ⟨⟨[], 0⟩, u64 (q + 1)⟩).At 16 m'.ring t := by
  have hplaced := placed_emptyAt ht
  rw [← hcap] at hplaced
  have hstart : (emptyAt t).start = t := rfl
  have hcall : PushPc.step mapping.capacity m .idle (.call emptyMessage) =
      some (.none, .loadHead emptyMessage, .called) := by
    rw [hcap]
    rfl
  have hres : reserve mapping.capacity emptyMessage m.control.headPublish m.control.tailReserve =
      some (emptyAt t) := by
    rw [hm, hcap]
    exact reserve_emptyMessage ht hlt
  obtain ⟨es, ring, hpath, hstored⟩ := exists_path_push hres (by rw [hm]; rfl)
  rw [hm, total_emptyAt, hstart] at hpath
  have hfirst : (pushMachine mapping.capacity).Path (fun _ => True) (m, .idle) [.called]
      (m, .loadHead emptyMessage) := .single _ trivial (pushMachine_of_step hcall)
  refine ⟨_, _, lone_producer (hfirst.trans (hpath.mono fun _ _ => trivial)),
    returned_map_producer _, rfl, ?_⟩
  have hstream := hplaced.stream (hstored hplaced.stores_pairwise).holds (u64_lt (q + 1))
  rw [hcap] at hstream
  exact ⟨hstream.1, by rw [hcap]; exact hstream.2.1⟩

/-- A pop that is not disturbed, from a ring of 16 bytes that has one empty message. -/
theorem exists_pop (hcap : mapping.capacity = 16) {t n : ℕ}
    (hm : m.control = ⟨t, t, u64 (t + 16), u64 (t + 16), n⟩) (ht : t % 16 = 0) (hlt : t < 2^64)
    {r : Record} (hempty : r.payload = []) (hfit : (Chunk.record r).Fits 16 t)
    (hat : (Chunk.record r).At 16 m.ring t) :
    ∃ es m' res, (machine mapping).Path (fun _ => True) (lone m p .idle) es (lone m' p .idle) ∧
      returned es = [(⟨[], true⟩, res)] ∧ res.sequence = some r.sequence ∧
      m'.control = ⟨u64 (t + 16), u64 (t + 16), u64 (t + 16), u64 (t + 16), n⟩ := by
  have hsize : recordSize 0 = 16 := recordSize_eq (by decide)
  have htail : m.control.tailPublish = u64 (t + 16) := by rw [hm]
  have hhead : m.control.headPublish = t := by rw [hm]
  have hne : t ≠ u64 (t + 16) := by
    unfold u64
    omega
  have hroom : sub64 (u64 (t + 16)) t = 16 := by
    unfold sub64 u64
    omega
  -- What the loads of the header return.
  have hflags := hat.record_flags
  have hlen := hat.record_size hfit
  have hseq := hat.record_sequence hfit
  rw [hempty, List.length_nil] at hlen
  have h₁ : PopPc.step .publishFirst mapping.capacity m .idle (.call ⟨[], true⟩) =
      some (.none, .loadTail ⟨[], true⟩, .internal) := rfl
  have h₂ : PopPc.step .publishFirst mapping.capacity m (.loadTail ⟨[], true⟩) .run =
      some (.none, .loadHead ⟨[], true⟩ (u64 (t + 16)), .loadedTail) := by
    rw [PopPc.step, htail]
  have h₃ : PopPc.step .publishFirst mapping.capacity m (.loadHead ⟨[], true⟩ (u64 (t + 16))) .run =
      some (.none, .loadFlags ⟨[], true⟩ (u64 (t + 16)) t, .internal) := by
    rw [PopPc.step, hhead, hcap, PopPc.compareHead, ht, if_neg hne, if_neg (by decide)]
  have h₄ : PopPc.step .publishFirst mapping.capacity m
      (.loadFlags ⟨[], true⟩ (u64 (t + 16)) t) .run =
      some (.none, .loadSize ⟨[], true⟩ (u64 (t + 16)) t, .internal) := by
    rw [PopPc.step, hcap, hflags, PopPc.examineFlags, if_neg (by decide)]
  have h₅ : PopPc.step .publishFirst mapping.capacity m
      (.loadSize ⟨[], true⟩ (u64 (t + 16)) t) .run =
      some (.none, .loadType ⟨[], true⟩ t 0 [], .internal) := by
    rw [PopPc.step, hcap, hlen, PopPc.examineSize, hsize, hroom, ht, if_neg (by decide),
      if_neg (by decide)]
    rfl
  have h₆ : PopPc.step .publishFirst mapping.capacity m (.loadType ⟨[], true⟩ t 0 []) .run =
      some (.none, .loadSequence ⟨[], true⟩ t 0 [] (m.ring.load (t % mapping.capacity + 4) 2),
        .internal) := rfl
  generalize m.ring.load (t % mapping.capacity + 4) 2 = type at h₆
  have h₇ : PopPc.step .publishFirst mapping.capacity m
      (.loadSequence ⟨[], true⟩ t 0 [] type) .run =
      some (.none, .publish (u64 (t + 16)) (.done ⟨[], true⟩ ⟨[], type, some r.sequence⟩) false,
        .internal) := by
    rw [PopPc.step, hcap, hseq, hsize]
    rfl
  have hloads := ((lone_consumer (p := p) h₁).trans (lone_consumer h₂)).trans
    ((lone_consumer h₃).trans (lone_consumer h₄))
  have hheader := (lone_consumer (p := p) h₅).trans ((lone_consumer h₆).trans (lone_consumer h₇))
  refine ⟨_, _, _, (hloads.trans hheader).trans
    ((lone_consumer (l := .run) rfl).trans (lone_consumer (l := .run) rfl)), rfl, rfl, ?_⟩
  simp only [Effect.apply, hm]

/-- Any number of messages, each pushed and popped before the next one. -/
theorem exists_rounds (hcap : mapping.capacity = 16) (hfresh : mapping.shared = Shared.fresh)
    (n : ℕ) :
    ∃ tr m, (machine mapping).Reaches (lone m .idle .idle) tr ∧ (returned tr).length = n ∧
      m.control = ⟨u64 (16 * n), u64 (16 * n), u64 (16 * n), u64 (16 * n), u64 n⟩ ∧
      ∀ k, k < n → ∃ res, (returned tr)[k]? = some (⟨[], true⟩, res) ∧
        res.sequence = some (u64 (k + 1)) := by
  induction n with
  | zero =>
    refine ⟨[], Shared.fresh, ?_, rfl, rfl, by simp⟩
    have hinit : lone Shared.fresh .idle .idle = (machine mapping).init := by
      simp [lone, machine, hfresh]
    rw [hinit]
    exact .init
  | succ n ih =>
    obtain ⟨tr, m, hrun, hlen, hm, hold⟩ := ih
    have ht : u64 (16 * n) % 16 = 0 := by
      unfold u64
      omega
    obtain ⟨es, m₁, hpush, hret, hm₁, hfit, hat⟩ :=
      exists_push (c := .idle) hcap hm ht (u64_lt _)
    obtain ⟨es', m₂, res, hpop, hret', hseq, hm₂⟩ :=
      exists_pop (p := .idle) hcap hm₁ ht (u64_lt _) rfl hfit hat
    have hnext : ∀ a b, u64 (u64 a + b) = u64 (a + b) := fun a b => Nat.mod_add_mod a _ b
    rw [hnext, hnext] at hm₂
    rw [hnext] at hseq
    have hall : returned (tr ++ (es ++ es')) = returned tr ++ [(⟨[], true⟩, res)] := by
      rw [returned_append, returned_append, hret, hret', List.nil_append]
    refine ⟨_, m₂, hrun.path (hpush.trans hpop), ?_, hm₂, ?_⟩
    · rw [hall, List.length_append, hlen]
      rfl
    · intro k hk
      rw [hall]
      by_cases hkn : k < n
      · obtain ⟨res', hget, hseq'⟩ := hold k hkn
        exact ⟨res', by rw [List.getElem?_append_left (by omega), hget], hseq'⟩
      · obtain rfl : k = n := by omega
        refine ⟨res, ?_, hseq⟩
        rw [List.getElem?_append_right (by omega), hlen, Nat.sub_self]
        rfl

end Lone

end Mpsc

/-- In a ring of 16 bytes, each message pushed and popped before the next one, the result number
`2^64` has the sequence number 0. -/
theorem sequence_wraps : ∃ mapping s tr c res, createMapping 16 kFlagMPSC = .ok mapping ∧
    (Mpsc.machine mapping).Reaches s tr ∧ (Mpsc.returned tr)[2^64 - 1]? = some (c, res) ∧
    c.wantSequence = true ∧ res.sequence = some 0 := by
  obtain ⟨mapping, hmap⟩ : ∃ mapping, createMapping 16 kFlagMPSC = .ok mapping := ⟨_, rfl⟩
  have hcap : mapping.capacity = 16 := by cases hmap; rfl
  obtain ⟨tr, m, hrun, -, -, hres⟩ := Mpsc.exists_rounds hcap (createMapping_shared hmap) (2^64)
  obtain ⟨res, hget, hseq⟩ := hres (2^64 - 1) (by decide)
  have hzero : u64 (2^64 - 1 + 1) = 0 := by decide
  rw [hzero] at hseq
  exact ⟨mapping, _, tr, _, res, hmap, hrun, hget, rfl, hseq⟩

end LfRing

import LfRing.Ring.Mpsc
import LfRing.Ring.Spsc

/-!
# How often the loops go around

`try_pop` of the rings with one consumer, and `SharedRingBufferSPSC::try_push`, go around their `for
(;;)` again behind a filler. A filler ends at the end of the ring, so the next pass begins at offset
zero. There a record has room that passes the first checks, so no filler is ever placed there
(`Laid`), and the second pass is the last (`passes_bounded`).

The passes of a call are counted by an observer of the machine, at the first access of each pass.
The bound is an invariant: what each place of a call says of the count (`PopPc.Passes`,
`Spsc.PushPc.Passes`).
-/

namespace LfRing

/-! ## Fillers -/

/-- No filler among the chunks, of which the first is at position `o`, is at offset zero. -/
def Laid (cap : ℕ) : ℕ → List Chunk → Prop
  | _, [] => True
  | o, c :: cs => (c.record? = none → o % cap ≠ 0) ∧ Laid cap (o + c.length) cs

/-- Chunks in two parts. -/
theorem laid_append {cap o : ℕ} {cs ds : List Chunk} :
    Laid cap o (cs ++ ds) ↔ Laid cap o cs ∧ Laid cap (o + span cs) ds := by
  induction cs generalizing o with
  | nil => simp [Laid]
  | cons c cs ih =>
    rw [List.cons_append, Laid, Laid, ih, span_cons, and_assoc, Nat.add_assoc]

/-- A filler ends at offset zero. -/
theorem Chunk.Fits.filler_end {cap o : ℕ} {c : Chunk} (h : c.Fits cap o)
    (hnone : c.record? = none) :
    (o + c.length) % cap = 0 := by
  have hlen : c.length = cap - o % cap ∧ 0 < c.length := by
    cases c with
    | skip len => exact ⟨h.1, h.2.1⟩
    | wrap len => exact ⟨h.1, lt_of_lt_of_le (by decide) h.2⟩
    | record r => cases hnone
  obtain ⟨heq, hpos⟩ := hlen
  rw [heq]
  exact add_sub_mod_self (by omega)

/-- The chunks published so far fill the ring up to the tail, with no filler at offset zero. -/
structure Tiled (cap : ℕ) (m : Shared) (cs : List Chunk) : Prop where
  /-- The tail is behind them. -/
  tail_eq : m.control.tailPublish = span cs
  /-- Where the fillers are. -/
  laid : Laid cap 0 cs

namespace Tiled

variable {cap : ℕ} {m m' : Shared} {cs passed ahead new : List Chunk}

/-- Nothing has been published in a fresh ring. -/
theorem fresh (cap : ℕ) : Tiled cap Shared.fresh [] := ⟨rfl, trivial⟩

/-- More is published. -/
theorem publish (h : Tiled cap m cs) (hview : ProducerView cap m m' new)
    (hnew : Laid cap m.control.tailPublish new) : Tiled cap m' (cs ++ new) := by
  constructor
  · rw [hview.stream.eq_add_span, h.tail_eq, span_append]
  · rw [h.tail_eq] at hnew
    rw [laid_append, Nat.zero_add]
    exact ⟨h.laid, hnew⟩

/-- The tail stays. -/
theorem of_eq (h : Tiled cap m cs) (htail : m'.control.tailPublish = m.control.tailPublish) :
    Tiled cap m' cs :=
  ⟨htail.trans h.tail_eq, h.laid⟩

/-- No filler ahead of the consumer is at offset zero. -/
theorem laid_ahead (h : Tiled cap m (passed ++ ahead))
    (hs : Stream cap m.ring m.control.headPublish ahead m.control.tailPublish) :
    Laid cap m.control.headPublish ahead := by
  have htail := h.tail_eq
  rw [hs.eq_add_span, span_append] at htail
  have hhead : m.control.headPublish = span passed := by omega
  have hlaid := (laid_append.mp h.laid).2
  rwa [Nat.zero_add, ← hhead] at hlaid

end Tiled

/-! ## `try_pop` -/

namespace PopPc

/-- The passes that the call under way has begun, behind a step: a pass begins with the load of
`tail_publish`. -/
def passes : PopPc → PopLabel → ℕ → ℕ
  | _, .call _, _ => 0
  | loadTail _, .run, n => n + 1
  | _, .run, n => n

/-- What each place of a call says of the passes that the call has begun. A second pass begins at
offset zero. -/
def Passes (cap : ℕ) (m : Shared) (n : ℕ) : PopPc → Prop
  | loadTail _ => n = 0 ∨ n = 1 ∧ m.control.headPublish % cap = 0
  | loadHead _ _ => n = 1 ∨ n = 2 ∧ m.control.headPublish % cap = 0
  | loadFlags _ _ _ => n = 1 ∨ n = 2 ∧ m.control.headPublish % cap = 0
  | publish _ (.again _) _ => n = 1
  | reserve _ (.again _) false => n = 1
  | reserve _ (.again _) true => n = 1 ∧ m.control.headPublish % cap = 0
  | _ => n ≤ 2

/-- What the consumer finds in the header: no wrap flag at offset zero, and a size that neither of
the two checks refuses. -/
def Finds (cap : ℕ) (m : Shared) : PopPc → Prop
  | loadFlags _ _ head => head % cap = 0 → m.ring.load (head % cap + 6) 2 &&& kWrapFlag = 0
  | loadSize _ tail head => recordSize (m.ring.load (head % cap) 4) ≤ cap - head % cap ∧
      recordSize (m.ring.load (head % cap) 4) ≤ sub64 tail head
  | _ => True

section Steps

variable {order : HeadOrder} {cap n : ℕ} {m m' : Shared} {pc pc' : PopPc} {l : PopLabel}
  {eff : Effect} {e : PopEvent} {passed ahead seen : List Chunk}
  {consumed : List (PopCall × Popped)}

/-- A call has begun two passes at most. -/
theorem Passes.le (h : pc.Passes cap m n) : n ≤ 2 := by
  cases pc with
  | publish head k last =>
    cases k with
    | again c => exact le_of_eq_of_le h (by decide)
    | done c res => exact h
  | reserve head k last =>
    cases k with
    | again c =>
      cases last with
      | false => exact le_of_eq_of_le h (by decide)
      | true => exact le_of_eq_of_le h.1 (by decide)
    | done c res => exact h
  | loadTail c =>
    rcases h with rfl | ⟨rfl, -⟩ <;> decide
  | loadHead c tail =>
    rcases h with rfl | ⟨rfl, -⟩ <;> decide
  | loadFlags c tail head =>
    rcases h with rfl | ⟨rfl, -⟩ <;> decide
  | _ => exact h

/-- The head may move, but for the consumer itself it stays. -/
theorem Passes.of_eq (h : pc.Passes cap m n)
    (hhead : m'.control.headPublish = m.control.headPublish) : pc.Passes cap m' n := by
  cases pc with
  | reserve head k last =>
    cases k <;> cases last <;> simp only [Passes, hhead] at h ⊢ <;> exact h
  | _ =>
    simp only [Passes, hhead] at h ⊢
    exact h

/-- The filler at the head is not at offset zero, so it is met in the first pass. -/
theorem first_of_filler (hlaid : Laid cap m.control.headPublish ahead) {c : Chunk}
    {rest : List Chunk} (ha : ahead = c :: rest) (hnone : c.record? = none)
    (h : n = 1 ∨ n = 2 ∧ m.control.headPublish % cap = 0) : n = 1 := by
  rcases h with rfl | ⟨-, hzero⟩
  · rfl
  · rw [ha] at hlaid
    exact absurd hzero (hlaid.1 hnone)

/-- Every step of the consumer keeps what its place says of the passes. -/
theorem Passes.step (hinv : ReaderInv cap m pc passed ahead seen consumed)
    (hlaid : Laid cap m.control.headPublish ahead) (h : pc.Passes cap m n)
    (hs : pc.step order cap m l = some (eff, pc', e)) :
    pc'.Passes cap (eff.apply m) (pc.passes l n) := by
  have hle := h.le
  have hok := hinv.ok
  -- The head behind a filler is at offset zero.
  have hend : ∀ (c : PopCall) (head : ℕ), (PopThen.again c).For m ahead head → head % cap = 0 := by
    rintro c head ⟨d, rest, ha, hnone, rfl⟩
    have hstream := hinv.stream
    rw [ha] at hstream
    exact hstream.1.filler_end hnone
  cases l with
  | call c =>
    cases pc <;> cases hs
    exact Or.inl rfl
  | run =>
    cases step_cases hs with
    | call c => cases hs
    | loadTail c =>
      rcases h with rfl | ⟨rfl, hzero⟩
      · exact Or.inl rfl
      · exact Or.inr ⟨rfl, hzero⟩
    | empty c tail heq => exact hle
    | skip c tail hne hshort =>
      obtain ⟨d, rest, ha, hfit, -, -⟩ := hinv.exists_ahead hok hne
      have hfirst : n = 1 := first_of_filler hlaid ha (hfit.of_short hshort).1 h
      cases order <;> exact hfirst
    | header c tail hne hroom => exact h
    | wrap c tail head hflag =>
      obtain ⟨ht, rfl, hne, hroom⟩ := hok
      obtain ⟨d, rest, ha, hfit, hat, -⟩ := hinv.exists_ahead ht hne
      have hfirst : n = 1 := first_of_filler hlaid ha (hat.of_wrapFlag hfit hroom hflag).1 h
      cases order <;> exact hfirst
    | record c tail head hflag => exact hle
    | badSize c tail head hbad => exact hle
    | size c tail head =>
      unfold copying
      split_ifs <;> exact hle
    | copy c head size i out =>
      unfold copying
      split_ifs <;> exact hle
    | type c head size out hwant => cases order <;> exact hle
    | typeThen c head size out hwant => exact hle
    | sequence c head size out type => cases order <;> exact hle
    | publish head k last =>
      cases k with
      | done c res => cases last <;> exact hle
      | again c =>
        cases last with
        | false => exact ⟨h, hend c head hok⟩
        | true => exact Or.inr ⟨h, hend c head hok⟩
    | reserve head k last =>
      cases k with
      | done c res => cases last <;> exact hle
      | again c =>
        cases last with
        | false => exact h
        | true => exact Or.inr h

/-- The consumer finds what it should. -/
theorem finds (hinv : ReaderInv cap m pc passed ahead seen consumed)
    (hlaid : Laid cap m.control.headPublish ahead) (hlt : m.control.tailPublish < 2^64) :
    pc.Finds cap m := by
  have hok := hinv.ok
  cases pc with
  | loadFlags c tail head =>
    obtain ⟨ht, rfl, hne, hroom⟩ := hok
    intro hzero
    by_contra hflag
    -- The flag would be that of a filler at offset zero.
    obtain ⟨d, rest, ha, hfit, hat, -⟩ := hinv.exists_ahead ht hne
    rw [ha] at hlaid
    exact hlaid.1 (hat.of_wrapFlag hfit hroom hflag).1 hzero
  | loadSize c tail head =>
    obtain ⟨ht, rfl, hne, r, rest, ha⟩ := hok
    obtain ⟨hfit, hat⟩ := hinv.record_at ha
    have hsize := hinv.not_badSize hlt ht hne ha
    rw [← hat.record_size hfit] at hsize
    obtain ⟨h1, h2⟩ := not_or.mp hsize
    exact ⟨not_lt.mp h1, not_lt.mp h2⟩
  | _ => trivial

end Steps

end PopPc

/-! ## `SharedRingBuffer` -/

/-- The padding of a reservation is not at offset zero. -/
theorem Reservation.Placed.laid {cap : ℕ} {r : Reservation} (h : r.Placed cap) (n : ℕ) :
    Laid cap r.start (r.chunks n) := by
  have hsize := r.args.le_recordSize
  have htotal := h.total_le
  unfold total at htotal
  have hcases := h.padding_cases
  unfold chunks
  split_ifs with hpad hwrap
  · exact ⟨by rintro ⟨⟩, trivial⟩
  · exact ⟨fun _ => by omega, by rintro ⟨⟩, trivial⟩
  · exact ⟨fun _ => by omega, by rintro ⟨⟩, trivial⟩

/-- What a producer publishes is laid out so. -/
theorem WriterInv.laid {cap i : ℕ} {m : Shared} {procs : ℕ → PushPc} {pending : List Reservation}
    (h : WriterInv cap m procs pending) {l : PushLabel} {eff : Effect} {pc' : PushPc}
    {e : PushEvent} (hs : (procs i).step cap m l = some (eff, pc', e)) :
    Laid cap m.control.tailPublish e.newChunks := by
  have hok := h.ok i
  generalize procs i = pc at hs hok
  cases PushPc.step_cases hs with
  | publish r n =>
    obtain ⟨hmem, -, hstart⟩ := hok
    rw [← hstart]
    exact (h.placed r hmem).laid n
  | _ => trivial

namespace Mpsc

/-- The passes of the consumer's call. -/
def passes (s : State) : Label → ℕ → ℕ
  | .producer _ _, n => n
  | .consumer l, n => s.consumer.passes l n

/-- In every run that does not make the reservation counter wrap, what is published is laid out so,
and the consumer's place says of its passes what is so. -/
theorem passes_of_run {mapping : Mapping} {s : State} {n : ℕ} {tr : List Event}
    (hfresh : mapping.shared = Shared.fresh)
    (h : ((machine mapping).observe 0 passes).Reaches (s, n) tr)
    (hlt : reservedBytes (pushes tr) < 2^64) :
    (∃ pending passed ahead seen, Inv mapping.capacity s tr pending passed ahead seen) ∧
      Tiled mapping.capacity s.mem (publishedChunks (pushes tr)) ∧
      s.consumer.Passes mapping.capacity s.mem n := by
  refine h.invariant_of (fun tr => reservedBytes (pushes tr) < 2^64)
    (fun tr e => reservedBytes_lt_of_append Event.push? tr [e])
    (fun x tr =>
      (∃ pending passed ahead seen, Inv mapping.capacity x.1 tr pending passed ahead seen) ∧
        Tiled mapping.capacity x.1.mem (publishedChunks (pushes tr)) ∧
        x.1.consumer.Passes mapping.capacity x.1.mem x.2) ?_ ?_ hlt
  · simp only [Machine.observe, machine, hfresh]
    exact ⟨⟨[], [], [], [], .fresh _⟩, .fresh _, Nat.zero_le 2⟩
  · rintro ⟨s, n⟩ tr l ⟨s', n'⟩ e - hb ⟨⟨pending, passed, ahead, seen, hinv⟩, htiled, hpasses⟩ hs
    obtain ⟨hs, rfl⟩ := Machine.observe_step hs
    cases l with
    | producer i l =>
      obtain ⟨eff, pc, pe, hstep, rfl, rfl⟩ := step_producer hs
      rw [pushes_producer] at hb
      obtain ⟨-, -, hview⟩ := hinv.writer.step hstep hb
      obtain ⟨pending', ahead', hinv'⟩ := hinv.producer hstep hb
      refine ⟨⟨pending', passed, ahead', seen, hinv'⟩, ?_, hpasses.of_eq hview.headPublish_eq⟩
      rw [pushes_producer, publishedChunks_append, publishedChunks_singleton]
      exact htiled.publish hview (hinv.writer.inv.laid hstep)
    | consumer l =>
      obtain ⟨eff, pc, pe, hstep, rfl, rfl⟩ := step_consumer hs
      obtain ⟨-, -, -, -, hview, -⟩ := hinv.reader.step hinv.writer.tailPublish_lt hstep
      obtain ⟨passed', ahead', seen', hinv'⟩ := hinv.consumer hstep
      have hlaid := (hinv.split ▸ htiled).laid_ahead hinv.reader.stream
      refine ⟨⟨pending, passed', ahead', seen', hinv'⟩, ?_, hpasses.step hinv.reader hlaid hstep⟩
      rw [pushes_consumer]
      exact htiled.of_eq hview.tailPublish_eq

end Mpsc

/-! ## `SharedRingBufferSPSC` -/

namespace Spsc

namespace PushPc

/-- The passes that the call under way has begun, behind a step: a pass begins with the load of
`head_publish`. -/
def passes : PushPc → PushLabel → ℕ → ℕ
  | _, .call _, _ => 0
  | loadHead _, .run, n => n + 1
  | _, _, n => n

/-- The chunk `c` is placed at `tail` in the `n`-th pass: a filler in the first, and not at offset
zero. -/
def PlacedIn (cap tail n : ℕ) (c : Chunk) : Prop :=
  (c.record? = none → n = 1 ∧ tail % cap ≠ 0) ∧ n ≤ 2

/-- What each place of a call says of the passes that the call has begun. A second pass begins at
offset zero. -/
def Passes (cap : ℕ) (m : Shared) (n : ℕ) : PushPc → Prop
  | loadHead _ => n = 0 ∨ n = 1 ∧ m.control.tailPublish % cap = 0
  | loadTail _ _ => n = 1 ∨ n = 2 ∧ m.control.tailPublish % cap = 0
  | store _ tail c _ _ => PlacedIn cap tail n c
  | reserve _ tail c => PlacedIn cap tail n c
  | publish _ tail c => PlacedIn cap tail n c
  | _ => n ≤ 2

variable {cap n bytes : ℕ} {m m' : Shared} {pc pc' : PushPc} {l : PushLabel} {eff : Effect}
  {e : PushEvent} {a : PushArgs}

/-- A call has begun two passes at most. -/
theorem Passes.le (h : pc.Passes cap m n) : n ≤ 2 := by
  cases pc with
  | loadHead a =>
    rcases h with rfl | ⟨rfl, -⟩ <;> decide
  | loadTail a head =>
    rcases h with rfl | ⟨rfl, -⟩ <;> decide
  | store a tail c st todo => exact h.2
  | reserve a tail c => exact h.2
  | publish a tail c => exact h.2
  | _ => exact h

/-- The tail is the producer's. -/
theorem Passes.of_eq (h : pc.Passes cap m n)
    (htail : m'.control.tailPublish = m.control.tailPublish) : pc.Passes cap m' n := by
  cases pc <;> simp only [Passes, htail] at h ⊢ <;> exact h

/-- With some bytes of a chunk left. -/
theorem passes_storing {tail : ℕ} {c : Chunk} (h : PlacedIn cap tail n c) (todo : List Store) :
    (storing a tail c todo).Passes cap m n := by
  cases todo with
  | cons st todo => exact h
  | nil =>
    cases c with
    | record r => exact h.2
    | skip len => exact h
    | wrap len => exact h

/-- With some bytes of a sequence number left. -/
theorem passes_numbering {tail k : ℕ} (h : n ≤ 2) (todo : List Store) :
    (numbering a tail k todo).Passes cap m n := by
  cases todo with
  | cons st todo => exact h
  | nil => exact ⟨by rintro ⟨⟩, h⟩

/-- A pass places a filler only if it is the first, and not at offset zero. -/
theorem placedIn_of_place {head tail : ℕ} {c : Chunk} (ha : a.Accepted cap)
    (hplace : place cap a head tail = some c) (h : n = 1 ∨ n = 2 ∧ tail % cap = 0) :
    PlacedIn cap tail n c := by
  refine ⟨?_, by omega⟩
  intro hnone
  have hzero : tail % cap ≠ 0 := by
    intro hzero
    have hstart : place cap a head tail = none ∨
        place cap a head tail = some (.record (record a 0)) :=
      place_at_start ha hzero
    rcases hstart with hfull | hrec
    · cases hplace.symm.trans hfull
    · cases hplace.symm.trans hrec
      cases hnone
  exact ⟨by omega, hzero⟩

/-- Every step of the producer keeps what its place says of the passes. -/
theorem Passes.step (hinv : PushInv cap m pc bytes) (h : pc.Passes cap m n)
    (hs : pc.step cap m l = some (eff, pc', e)) : pc'.Passes cap (eff.apply m) (pc.passes l n) := by
  have hle := h.le
  have hok := hinv.ok
  cases l with
  | crash => cases pc <;> cases hs <;> exact hle
  | claim =>
    cases pc <;> cases hs
    exact hle
  | call a =>
    cases pc <;> simp only [PushPc.step, reduceCtorEq, enter] at hs
    split_ifs at hs with hrej
    · cases hs
      exact Nat.zero_le 2
    · cases hs
      exact Or.inl rfl
  | run =>
    cases PushPc.step_cases hs with
    | crash pc => exact absurd rfl (ne_crashed hs)
    | claim => cases hs
    | claimLoad => exact hle
    | claimed tail => exact hle
    | reject b => cases hs
    | call b hrej => cases hs
    | loadHead b =>
      rcases h with rfl | ⟨rfl, hzero⟩
      · exact Or.inl rfl
      · exact Or.inr ⟨rfl, hzero⟩
    | full b head => exact hle
    | room b head c hplace => exact passes_storing (placedIn_of_place hok.1 hplace h) _
    | store b tail c st todo => exact passes_storing h todo
    | fetch b tail => exact passes_numbering h _
    | number b tail k st todo => exact passes_numbering h todo
    | reserve b tail c => exact h
    | publish b tail c =>
      obtain ⟨-, hplacing, -⟩ := hok
      -- Behind a filler the tail is at offset zero.
      have hend : c.record? = none → u64 (tail + c.length) % cap = 0 := by
        intro hnone
        rw [u64_of_lt hplacing.lt]
        exact hplacing.fits.filler_end hnone
      cases c with
      | record r => exact hle
      | skip len => exact Or.inr ⟨(h.1 rfl).1, hend rfl⟩
      | wrap len => exact Or.inr ⟨(h.1 rfl).1, hend rfl⟩

/-- What the producer publishes is laid out so. -/
theorem Passes.laid (hinv : PushInv cap m pc bytes) (h : pc.Passes cap m n)
    (hs : pc.step cap m l = some (eff, pc', e)) : Laid cap m.control.tailPublish e.chunk? := by
  have hok := hinv.ok
  cases PushPc.step_cases hs with
  | publish b tail c =>
    obtain ⟨-, hplacing, -⟩ := hok
    rw [← hplacing.tail_eq]
    exact ⟨fun hnone => (h.1 hnone).2, trivial⟩
  | _ => trivial

end PushPc

/-- The passes of the producer's call and of the consumer's. -/
def passes (s : State) : Label → ℕ × ℕ → ℕ × ℕ
  | .producer l, (k, n) => (s.producer.passes l k, n)
  | .consumer l, (k, n) => (k, s.consumer.passes l n)
  | .replace, (k, n) => (k, n)

/-- In every run that places fewer than `2^64` bytes, what is published is laid out so, and the
places of both sides say of their passes what is so. -/
theorem passes_of_run {mapping : Mapping} {s : State} {k n : ℕ} {tr : List Event}
    (hfresh : mapping.shared = Shared.fresh)
    (h : ((machine mapping).observe (0, 0) passes).Reaches (s, k, n) tr)
    (hlt : placedBytes tr < 2^64) :
    (∃ passed ahead seen, Inv mapping.capacity s tr passed ahead seen) ∧
      Tiled mapping.capacity s.mem (publishedChunks tr) ∧
      s.producer.Passes mapping.capacity s.mem k ∧ s.consumer.Passes mapping.capacity s.mem n := by
  refine h.invariant_of (fun tr => placedBytes tr < 2^64) ?_
    (fun x tr => (∃ passed ahead seen, Inv mapping.capacity x.1 tr passed ahead seen) ∧
        Tiled mapping.capacity x.1.mem (publishedChunks tr) ∧
        x.1.producer.Passes mapping.capacity x.1.mem x.2.1 ∧
        x.1.consumer.Passes mapping.capacity x.1.mem x.2.2) ?_ ?_ hlt
  · intro tr e hb
    rw [placedBytes_append] at hb
    omega
  · simp only [Machine.observe, machine, hfresh]
    exact ⟨⟨[], [], [], .fresh _⟩, .fresh _, Nat.zero_le 2, Nat.zero_le 2⟩
  · rintro ⟨s, k, n⟩ tr l ⟨s', t'⟩ e - hb ⟨⟨passed, ahead, seen, hinv⟩, htiled, hpush, hpop⟩ hs
    obtain ⟨hs, rfl⟩ := Machine.observe_step hs
    have hbytes := hinv.push.bytes_le
    have hbound := hinv.push.bytes_lt
    cases l with
    | producer l =>
      obtain ⟨eff, pc, pe, hstep, rfl, rfl⟩ := step_producer hs
      have hplaced : placedBytes tr + pe.bytes < 2^64 := by
        simpa [Event.push?] using hb
      obtain ⟨-, hview⟩ := hinv.push.step hstep hplaced
      refine ⟨⟨passed, _, seen, hinv.producer hstep hb⟩, ?_, hpush.step hinv.push hstep,
        hpop.of_eq hview.headPublish_eq⟩
      rw [publishedChunks_append]
      have hnew : [pe].flatMap PushEvent.chunk? = pe.chunk? := List.flatMap_singleton _ _
      exact hnew ▸ htiled.publish hview (hpush.laid hinv.push hstep)
    | consumer l =>
      obtain ⟨eff, pc, pe, hstep, rfl, rfl⟩ := step_consumer hs
      obtain ⟨-, -, -, -, hview, -⟩ := hinv.reader.step (by omega) hstep
      have hlaid := (hinv.split ▸ htiled).laid_ahead hinv.reader.stream
      refine ⟨hinv.consumer hstep, ?_, hpush.of_eq hview.tailPublish_eq,
        hpop.step hinv.reader hlaid hstep⟩
      have hsame : publishedChunks (tr ++ [.consumer pe]) = publishedChunks tr := by
        simp [Event.push?]
      rw [hsame]
      exact htiled.of_eq hview.tailPublish_eq
    | replace =>
      cases hs
      have hsame : publishedChunks (tr ++ [.replaced]) = publishedChunks tr := by
        simp [Event.push?]
      refine ⟨⟨passed, ahead, seen, hinv.replace⟩, ?_, hpush, hpop.le⟩
      rw [hsame]
      exact htiled

end Spsc

/-! ## The bound -/

/-- The consumer of `SharedRingBuffer` finds what it should in every run. -/
theorem Mpsc.finds_of_run {mapping : Mapping} {s : Mpsc.State} {tr : List Mpsc.Event}
    (hfresh : mapping.shared = Shared.fresh) (h : (Mpsc.machine mapping).Reaches s tr)
    (hlt : reservedBytes (Mpsc.pushes tr) < 2^64) : s.consumer.Finds mapping.capacity s.mem := by
  obtain ⟨n, hrun⟩ := h.observed 0 Mpsc.passes
  obtain ⟨⟨pending, passed, ahead, seen, hinv⟩, htiled, -⟩ := Mpsc.passes_of_run hfresh hrun hlt
  rw [← hinv.split] at htiled
  exact PopPc.finds hinv.reader (htiled.laid_ahead hinv.reader.stream) hinv.writer.tailPublish_lt

/-- The consumer of `SharedRingBufferSPSC` finds what it should in every run. -/
theorem Spsc.finds_of_run {mapping : Mapping} {s : Spsc.State} {tr : List Spsc.Event}
    (hfresh : mapping.shared = Shared.fresh) (h : (Spsc.machine mapping).Reaches s tr)
    (hlt : Spsc.placedBytes tr < 2^64) : s.consumer.Finds mapping.capacity s.mem := by
  obtain ⟨⟨k, n⟩, hrun⟩ := h.observed (0, 0) Spsc.passes
  obtain ⟨⟨passed, ahead, seen, hinv⟩, htiled, -⟩ := Spsc.passes_of_run hfresh hrun hlt
  have hbytes := hinv.push.bytes_le
  have hbound := hinv.push.bytes_lt
  rw [← hinv.split] at htiled
  exact PopPc.finds hinv.reader (htiled.laid_ahead hinv.reader.stream) (by omega)

/-- The loops of the rings are bounded. On every `SharedRingBuffer` and every `SharedRingBufferSPSC`
that `create` makes, in every interleaving of single accesses with less than `2^64` bytes in all:

* a call of `try_pop` begins at most two passes of its loop, and so does a call of
  `SharedRingBufferSPSC::try_push`;
* the consumer never meets a header with the wrap flag at offset zero, and neither of the checks
  `record_size > remaining` and `tail - head < record_size` refuses the size it loads. -/
theorem passes_bounded {capacityBytes : ℕ} {file₁ file₂ : Mapping}
    (hcreate₁ : createMapping capacityBytes kFlagMPSC = .ok file₁)
    (hcreate₂ : createMapping capacityBytes kFlagSPSC = .ok file₂) :
    (∀ s n tr, ((Mpsc.machine file₁).observe 0 Mpsc.passes).Reaches (s, n) tr →
        reservedBytes (Mpsc.pushes tr) < 2^64 → n ≤ 2) ∧
    (∀ s tr, (Mpsc.machine file₁).Reaches s tr → reservedBytes (Mpsc.pushes tr) < 2^64 →
        s.consumer.Finds file₁.capacity s.mem) ∧
    (∀ s k n tr, ((Spsc.machine file₂).observe (0, 0) Spsc.passes).Reaches (s, k, n) tr →
        Spsc.placedBytes tr < 2^64 → k ≤ 2 ∧ n ≤ 2) ∧
    ∀ s tr, (Spsc.machine file₂).Reaches s tr → Spsc.placedBytes tr < 2^64 →
        s.consumer.Finds file₂.capacity s.mem := by
  have hfresh₁ := createMapping_shared hcreate₁
  have hfresh₂ := createMapping_shared hcreate₂
  refine ⟨?_, fun s tr => Mpsc.finds_of_run hfresh₁, ?_, fun s tr => Spsc.finds_of_run hfresh₂⟩
  · intro s n tr hrun hlt
    obtain ⟨-, -, hpop⟩ := Mpsc.passes_of_run hfresh₁ hrun hlt
    exact hpop.le
  · intro s k n tr hrun hlt
    obtain ⟨-, -, hpush, hpop⟩ := Spsc.passes_of_run hfresh₂ hrun hlt
    exact ⟨hpush.le, hpop.le⟩

/-- A call of the producer that takes so many steps. -/
def Spsc.pushLabels (a : PushArgs) (steps : ℕ) : List Spsc.Label :=
  .producer (.call a) :: List.replicate steps (.producer .run)

/-- A call of the consumer that takes so many steps. -/
def Spsc.popLabels (steps : ℕ) : List Spsc.Label :=
  .consumer (.call ⟨[], false⟩) :: List.replicate steps (.consumer .run)

/-- Two messages are pushed and popped, and then one that takes up the whole ring meets an end of
the ring that is too short for a header. The push and the pop behind it go around twice. -/
def Spsc.aroundTwice : List Spsc.Label :=
  Spsc.pushLabels (.ofBytes (some (List.replicate 8 0)) 0) 37 ++ Spsc.popLabels 15 ++
    Spsc.pushLabels (.ofBytes (some (List.replicate 16 0)) 0) 45 ++ Spsc.popLabels 23 ++
    Spsc.pushLabels (.ofBytes (some (List.replicate 48 0)) 0) 6 ++ Spsc.popLabels 6

/-- Two passes are reached. -/
theorem passes_bounded_twice : ∃ file₁ file₂ s tr, createMapping 64 kFlagMPSC = .ok file₁ ∧
    createMapping 64 kFlagSPSC = .ok file₂ ∧
    ((Spsc.machine file₂).observe (0, 0) Spsc.passes).Reaches (s, 2, 2) tr ∧
    Spsc.placedBytes tr < 2^64 ∧
    ∀ s k n tr, ((Spsc.machine file₂).observe (0, 0) Spsc.passes).Reaches (s, k, n) tr →
      Spsc.placedBytes tr < 2^64 → k ≤ 2 ∧ n ≤ 2 := by
  obtain ⟨file₁, hfile₁⟩ : ∃ file, createMapping 64 kFlagMPSC = .ok file := ⟨_, rfl⟩
  obtain ⟨file₂, hfile₂⟩ : ∃ file, createMapping 64 kFlagSPSC = .ok file := ⟨_, rfl⟩
  obtain ⟨⟨s, k, n⟩, tr, hrun, htest⟩ :=
    ((Spsc.machine file₂).observe (0, 0) Spsc.passes).exists_reaches Spsc.aroundTwice
      (fun x tr => decide (x.2 = (2, 2)) && decide (Spsc.placedBytes tr < 2^64))
      (by cases hfile₂; decide +kernel)
  obtain ⟨htwo, hlt⟩ := (Bool.and_eq_true _ _).mp htest
  cases of_decide_eq_true htwo
  obtain ⟨-, -, hspsc, -⟩ := passes_bounded hfile₁ hfile₂
  exact ⟨file₁, file₂, s, tr, hfile₁, hfile₂, hrun, of_decide_eq_true hlt, hspsc⟩

end LfRing

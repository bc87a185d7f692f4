import LfRing.Ring.WriterInvariant

/-!
# The history of the producers

What the producers have done so far, read off the list of their events: the reservations in the
order in which they were won, and the publications with their sequence numbers. `WriterHistory` ties
the two to the invariant of the producers. Reservations are published in the order in which they
were taken, and those that are not yet published are pending. The rings with many producers share
it.
-/

namespace LfRing

namespace PushEvent

/-- The reservation that a step takes. -/
def reserved? : PushEvent → List Reservation
  | reserved r => [r]
  | _ => []

/-- The reservation that a step publishes, with its sequence number. -/
def published? : PushEvent → List (Reservation × ℕ)
  | published r n => [(r, n)]
  | _ => []

end PushEvent

/-- The reservations taken, in the order of their compare-exchanges. -/
def reservations (es : List PushEvent) : List Reservation := es.flatMap PushEvent.reserved?

/-- The reservations published, with their sequence numbers. -/
def publications (es : List PushEvent) : List (Reservation × ℕ) := es.flatMap PushEvent.published?

/-- The chunks published. -/
def publishedChunks (es : List PushEvent) : List Chunk := es.flatMap PushEvent.newChunks

/-- The bytes reserved. -/
def reservedBytes (es : List PushEvent) : ℕ := ((reservations es).map Reservation.total).sum

/-- The reservations of two parts of a run, one after the other. -/
@[simp] theorem reservations_append (es fs : List PushEvent) :
    reservations (es ++ fs) = reservations es ++ reservations fs := by
  simp [reservations]

/-- The publications of two parts of a run, one after the other. -/
@[simp] theorem publications_append (es fs : List PushEvent) :
    publications (es ++ fs) = publications es ++ publications fs := by
  simp [publications]

/-- The chunks published in two parts of a run, one after the other. -/
@[simp] theorem publishedChunks_append (es fs : List PushEvent) :
    publishedChunks (es ++ fs) = publishedChunks es ++ publishedChunks fs := by
  simp [publishedChunks]

/-- The chunks that one event publishes. -/
@[simp] theorem publishedChunks_singleton (e : PushEvent) : publishedChunks [e] = e.newChunks := by
  simp [publishedChunks]

/-- The bytes reserved in two parts of a run add up. -/
@[simp] theorem reservedBytes_append (es fs : List PushEvent) :
    reservedBytes (es ++ fs) = reservedBytes es + reservedBytes fs := by
  simp [reservedBytes]

/-- The bytes reserved in two parts of a run, from whose events `push?` reads off those of the
producers. -/
theorem reservedBytes_flatMap_append {ε : Type} (push? : ε → List PushEvent) (tr es : List ε) :
    reservedBytes ((tr ++ es).flatMap push?) =
      reservedBytes (tr.flatMap push?) + reservedBytes (es.flatMap push?) := by
  rw [List.flatMap_append, reservedBytes_append]

/-- A bound on them holds before if it holds later. -/
theorem reservedBytes_lt_of_append {ε : Type} (push? : ε → List PushEvent) {n : ℕ} (tr es : List ε)
    (h : reservedBytes ((tr ++ es).flatMap push?) < n) : reservedBytes (tr.flatMap push?) < n := by
  rw [reservedBytes_flatMap_append] at h
  omega

/-- A reservation publishes one record behind its padding. -/
theorem records_chunks (r : Reservation) (n : ℕ) : records (r.chunks n) = [r.record n] := by
  unfold Reservation.chunks
  split_ifs <;> rfl

/-- The records published are those of the reservations published. -/
theorem records_publishedChunks (es : List PushEvent) :
    records (publishedChunks es) = (publications es).map fun p => p.1.record p.2 := by
  induction es with
  | nil => rfl
  | cons e es ih =>
    have hcons : e :: es = [e] ++ es := rfl
    rw [hcons, publishedChunks_append, publications_append, records_append, List.map_append, ih,
      publishedChunks_singleton]
    congr 1
    cases e with
    | published r n => exact records_chunks r n
    | _ => rfl

/-- The producers' invariant together with their history. -/
structure WriterHistory (cap : ℕ) (m : Shared) (procs : ℕ → PushPc) (es : List PushEvent)
    (pending : List Reservation) : Prop where
  /-- The invariant. -/
  inv : WriterInv cap m procs pending
  /-- Reservations are published in the order in which they were taken. -/
  reservations_eq : reservations es = (publications es).map Prod.fst ++ pending
  /-- The reservation counter counts the bytes reserved. -/
  bytes : m.control.tailReserve = reservedBytes es

namespace WriterHistory

variable {cap : ℕ} {m m' : Shared} {procs : ℕ → PushPc} {es : List PushEvent}
  {pending : List Reservation}

/-- A fresh ring with all producers idle. -/
theorem fresh (cap : ℕ) : WriterHistory cap Shared.fresh (fun _ => .idle) [] [] :=
  ⟨WriterInv.fresh cap, rfl, rfl⟩

/-- Only a compare-exchange that wins changes `tail_reserve`, and by the length of the reservation,
which starts there. -/
theorem tailReserve_eq {pc pc' : PushPc} {l : PushLabel} {eff : Effect} {e : PushEvent}
    (hs : pc.step cap m l = some (eff, pc', e))
    (hlt : m.control.tailReserve + reservedBytes [e] < 2^64) :
    (eff.apply m).control.tailReserve = m.control.tailReserve + reservedBytes [e] ∧
      ∀ r, e = .reserved r → r.stop < 2^64 := by
  cases PushPc.step_cases hs with
  | reserve r htail =>
    have hbytes : reservedBytes [.reserved r] = r.total := by
      simp [reservedBytes, reservations, PushEvent.reserved?]
    rw [hbytes, htail] at hlt ⊢
    refine ⟨u64_of_lt hlt, ?_⟩
    rintro _ ⟨⟩
    exact hlt
  | _ => exact ⟨rfl, by rintro _ ⟨⟩⟩

/-- A step keeps the order in which reservations are published. -/
theorem reservations_step {pending' : List Reservation} {e : PushEvent}
    (h : reservations es = (publications es).map Prod.fst ++ pending)
    (he : e.Pending pending pending') :
    reservations (es ++ [e]) = (publications (es ++ [e])).map Prod.fst ++ pending' := by
  rw [reservations_append, publications_append, h]
  cases e with
  | reserved r =>
    obtain rfl : pending' = pending ++ [r] := he
    simp [reservations, publications, PushEvent.reserved?, PushEvent.published?]
  | published r n =>
    obtain rfl : pending = r :: pending' := he
    simp [reservations, publications, PushEvent.reserved?, PushEvent.published?]
  | _ =>
    obtain rfl : pending' = pending := he
    simp [reservations, publications, PushEvent.reserved?, PushEvent.published?]

/-- Every step of a producer keeps the invariant and extends the history, as long as the reservation
counter does not wrap. -/
theorem step (h : WriterHistory cap m procs es pending) {i : ℕ} {l : PushLabel} {eff : Effect}
    {pc' : PushPc} {e : PushEvent} (hs : (procs i).step cap m l = some (eff, pc', e))
    (hlt : reservedBytes (es ++ [e]) < 2^64) :
    ∃ pending', WriterHistory cap (eff.apply m) (Function.update procs i pc') (es ++ [e]) pending' ∧
      ProducerView cap m (eff.apply m) e.newChunks := by
  rw [reservedBytes_append, ← h.bytes] at hlt
  obtain ⟨hbytes, hstop⟩ := tailReserve_eq hs hlt
  obtain ⟨pending', hpend, hinv, hview⟩ := h.inv.step hs hstop
  refine ⟨pending', ⟨hinv, reservations_step h.reservations_eq hpend, ?_⟩, hview⟩
  rw [hbytes, h.bytes, reservedBytes_append]

/-- The consumers may advance `head_publish` up to `tail_publish`. -/
theorem advance (h : WriterHistory cap m procs es pending)
    (hle : m.control.headPublish ≤ m'.control.headPublish)
    (hle' : m'.control.headPublish ≤ m.control.tailPublish)
    (hpub : m'.control.tailPublish = m.control.tailPublish)
    (hres : m'.control.tailReserve = m.control.tailReserve) (hring : m'.ring = m.ring) :
    WriterHistory cap m' procs es pending :=
  ⟨h.inv.advance hle hle' hpub hres hring, h.reservations_eq, hres.trans h.bytes⟩

/-- What is published has not wrapped either. -/
theorem tailPublish_lt (h : WriterHistory cap m procs es pending) :
    m.control.tailPublish < 2^64 :=
  lt_of_le_of_lt h.inv.chain.le h.inv.reserve_lt

end WriterHistory

end LfRing

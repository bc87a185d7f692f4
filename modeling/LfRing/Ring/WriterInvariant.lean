import LfRing.Ring.Writer

/-!
# What the producers keep

The reservations that are not yet published stand one behind the other between `tail_publish` and
`tail_reserve` (`Chain`), inside one capacity from `head_publish` on. `WriterInv` says so, and for
every producer what it knows at its place in `try_push` (`PushPc.Ok`): before its compare-exchange
only that the head it has loaded is not ahead of `head_publish`, and afterwards that its reservation
is pending and which of its stores the ring has.

`WriterInv.step` is the one case analysis over the transitions of `try_push`. It also says what the
step looks like from the consumers' side (`ProducerView`): the published part of the ring stays, and
a publication extends the stream by the chunks of one reservation. `WriterInv.advance` is the
consumers' part of the bargain, that `head_publish` moves forward and not past `tail_publish`.
-/

namespace LfRing

/-- The reservations stand one behind the other from `a` to `b`. -/
def Chain : ℕ → List Reservation → ℕ → Prop
  | a, [], b => a = b
  | a, r :: rs, b => r.start = a ∧ Chain r.stop rs b

namespace Chain

variable {a b : ℕ} {rs : List Reservation} {r r' : Reservation}

/-- A chain does not run backwards. -/
theorem le (h : Chain a rs b) : a ≤ b := by
  induction rs generalizing a with
  | nil => exact le_of_eq h
  | cons r rs ih =>
    have hle := ih h.2
    have hstart := h.1
    unfold Reservation.stop at hle
    omega

/-- The next reservation extends the chain. -/
theorem concat (h : Chain a rs b) (hr : r.start = b) : Chain a (rs ++ [r]) r.stop := by
  induction rs generalizing a with
  | nil => exact ⟨hr.trans h.symm, rfl⟩
  | cons r₀ rs ih => exact ⟨h.1, ih h.2⟩

/-- The reservations of a chain lie between its ends. -/
theorem mem (h : Chain a rs b) (hr : r ∈ rs) : a ≤ r.start ∧ r.stop ≤ b := by
  induction rs generalizing a with
  | nil => simp at hr
  | cons r₀ rs ih =>
    obtain ⟨hstart, hrest⟩ := h
    have hle := hrest.le
    have htotal := Reservation.Placed.total_pos r₀
    rcases List.mem_cons.mp hr with rfl | hr
    · exact ⟨le_of_eq hstart.symm, hle⟩
    · have := ih hrest hr
      unfold Reservation.stop at this hle ⊢
      omega

/-- The reservation that starts the chain is its first. -/
theorem eq_cons (h : Chain a rs b) (hr : r ∈ rs) (hstart : r.start = a) :
    ∃ rest, rs = r :: rest := by
  cases rs with
  | nil => simp at hr
  | cons r₀ rest =>
    rcases List.mem_cons.mp hr with rfl | hr
    · exact ⟨rest, rfl⟩
    · have := (h.2.mem hr).1
      have := Reservation.Placed.total_pos r₀
      have := h.1
      unfold Reservation.stop at *
      omega

/-- Reservations of a chain that start apart do not overlap. -/
theorem disjoint (h : Chain a rs b) (hr : r ∈ rs) (hr' : r' ∈ rs) (hne : r.start ≠ r'.start) :
    r.stop ≤ r'.start ∨ r'.stop ≤ r.start := by
  induction rs generalizing a with
  | nil => simp at hr
  | cons r₀ rs ih =>
    rcases List.mem_cons.mp hr with rfl | hin
    · rcases List.mem_cons.mp hr' with rfl | hin'
      · exact absurd rfl hne
      · exact Or.inl (h.2.mem hin').1
    · rcases List.mem_cons.mp hr' with rfl | hin'
      · exact Or.inr (h.2.mem hin).1
      · exact ih h.2 hin hin'

end Chain

namespace PushPc

/-- The reservation that a producer holds, from its compare-exchange to its publication. -/
def reservation? : PushPc → Option Reservation
  | store r _ _ => some r
  | awaitTurn r => some r
  | fetchSequence r => some r
  | storeSequence r _ => some r
  | publish r _ => some r
  | _ => none

/-- A producer that makes its stores holds its reservation. -/
@[simp] theorem reservation?_storing (r : Reservation) (todo : List Store) :
    (storing r todo).reservation? = some r := by
  cases todo <;> rfl

/-- What a producer knows at its place in `try_push`. -/
def Ok (cap : ℕ) (m : Shared) (pending : List Reservation) : PushPc → Prop
  | idle => True
  | loadHead a => a.Accepted cap
  | loadTail a head => a.Accepted cap ∧ head ≤ m.control.headPublish
  | cas r => r.args.Accepted cap ∧ ∃ head, head ≤ m.control.headPublish ∧ head ≤ r.start ∧
      reserve cap r.args head r.start = some r
  | store r st todo => r ∈ pending ∧ Store.Progress m.ring (r.stores cap) (st :: todo)
  | awaitTurn r => r ∈ pending ∧ Store.Progress m.ring (r.stores cap) []
  | fetchSequence r => r ∈ pending ∧ Store.Progress m.ring (r.stores cap) [] ∧
      r.start = m.control.tailPublish
  | storeSequence r n => r ∈ pending ∧ Store.Progress m.ring (r.stores cap) [] ∧
      r.start = m.control.tailPublish ∧ n < 2^64
  | publish r n => r ∈ pending ∧ Stream cap m.ring r.start (r.chunks n) r.stop ∧
      r.start = m.control.tailPublish

/-- A producer that is still storing knows its progress. -/
theorem ok_storing {cap : ℕ} {m : Shared} {pending : List Reservation} {r : Reservation}
    {todo : List Store} (hr : r ∈ pending) (h : Store.Progress m.ring (r.stores cap) todo) :
    (storing r todo).Ok cap m pending := by
  cases todo with
  | nil => exact ⟨hr, h⟩
  | cons st todo => exact ⟨hr, h⟩

/-- A producer that holds a reservation knows that it is pending. -/
theorem Ok.mem {cap : ℕ} {m : Shared} {pending : List Reservation} {pc : PushPc} {r : Reservation}
    (h : pc.Ok cap m pending) (hr : pc.reservation? = some r) : r ∈ pending := by
  cases pc with
  | store _ _ _ => cases hr; exact h.1
  | awaitTurn _ => cases hr; exact h.1
  | fetchSequence _ => cases hr; exact h.1
  | storeSequence _ _ => cases hr; exact h.1
  | publish _ _ => cases hr; exact h.1
  | _ => cases hr

/-- What a producer knows survives the steps of others, as long as they leave `head_publish` in
place or advance it, keep the positions of its reservation, and do not publish in its turn. -/
theorem Ok.transfer {cap : ℕ} {m m' : Shared} {pending pending' : List Reservation} {pc : PushPc}
    (h : pc.Ok cap m pending) (hplaced : ∀ r ∈ pending, r.Placed cap)
    (hhead : m.control.headPublish ≤ m'.control.headPublish)
    (hkeep : ∀ r, pc.reservation? = some r → r ∈ pending' ∧
      AgreeOn cap m.ring m'.ring r.start r.stop ∧
      (r.start = m.control.tailPublish → m'.control.tailPublish = m.control.tailPublish)) :
    pc.Ok cap m' pending' := by
  have hprogress : ∀ r todo, pc.reservation? = some r →
      Store.Progress m.ring (r.stores cap) todo → Store.Progress m'.ring (r.stores cap) todo := by
    intro r todo hr hp
    have hpl := hplaced r (h.mem hr)
    exact hp.frame fun st hst hh => hh.of_agreeOn (hpl.covers hst) (hkeep r hr).2.1
  cases pc with
  | idle => trivial
  | loadHead a => exact h
  | loadTail a head => exact ⟨h.1, le_trans h.2 hhead⟩
  | cas r =>
    obtain ⟨ha, head, h1, h2, h3⟩ := h
    exact ⟨ha, head, le_trans h1 hhead, h2, h3⟩
  | store r st todo => exact ⟨(hkeep r rfl).1, hprogress r _ rfl h.2⟩
  | awaitTurn r => exact ⟨(hkeep r rfl).1, hprogress r _ rfl h.2⟩
  | fetchSequence r =>
    obtain ⟨hin, -, hturn⟩ := hkeep r rfl
    exact ⟨hin, hprogress r _ rfl h.2.1, by rw [hturn h.2.2]; exact h.2.2⟩
  | storeSequence r n =>
    obtain ⟨hin, -, hturn⟩ := hkeep r rfl
    exact ⟨hin, hprogress r _ rfl h.2.1, by rw [hturn h.2.2.1]; exact h.2.2.1, h.2.2.2⟩
  | publish r n =>
    obtain ⟨hin, hag, hturn⟩ := hkeep r rfl
    exact ⟨hin, h.2.1.frame hag, by rw [hturn h.2.2]; exact h.2.2⟩

end PushPc

/-- The invariant of the producers, with the reservations that are pending. -/
structure WriterInv (cap : ℕ) (m : Shared) (procs : ℕ → PushPc) (pending : List Reservation) :
    Prop where
  /-- The consumers have not passed what is published. -/
  head_le : m.control.headPublish ≤ m.control.tailPublish
  /-- At most one capacity is in use. -/
  reserve_le : m.control.tailReserve ≤ m.control.headPublish + cap
  /-- The reservation counter has not wrapped. -/
  reserve_lt : m.control.tailReserve < 2^64
  /-- The pending reservations fill the space from `tail_publish` to `tail_reserve`. -/
  chain : Chain m.control.tailPublish pending m.control.tailReserve
  /-- The pending reservations are placed in the ring. -/
  placed : ∀ r ∈ pending, r.Placed cap
  /-- What every producer knows. -/
  ok : ∀ i, (procs i).Ok cap m pending
  /-- No two producers hold the same reservation. -/
  distinct : ∀ i j r r', (procs i).reservation? = some r → (procs j).reservation? = some r' →
    r.start = r'.start → i = j

/-- What the consumers see of a producer's step: the stream grows by `new`. -/
structure ProducerView (cap : ℕ) (m m' : Shared) (new : List Chunk) : Prop where
  /-- `head_publish` is the consumers'. -/
  headPublish_eq : m'.control.headPublish = m.control.headPublish
  /-- `head_reserve` is the consumers'. -/
  headReserve_eq : m'.control.headReserve = m.control.headReserve
  /-- The published part of the ring stays. -/
  agree : AgreeOn cap m.ring m'.ring m.control.headPublish m.control.tailPublish
  /-- What is new stands behind it. -/
  stream : Stream cap m'.ring m.control.tailPublish new m'.control.tailPublish

/-- A step that leaves the ring and `tail_publish` alone adds nothing to the stream. -/
theorem ProducerView.of_eq {cap : ℕ} {m m' : Shared}
    (h1 : m'.control.headPublish = m.control.headPublish)
    (h2 : m'.control.headReserve = m.control.headReserve)
    (h3 : m'.control.tailPublish = m.control.tailPublish) (h4 : m'.ring = m.ring) :
    ProducerView cap m m' [] :=
  ⟨h1, h2, by rw [h4]; exact .refl _ _ _ _, by rw [h3]; rfl⟩

/-- How a step changes the pending reservations. -/
def PushEvent.Pending (pending pending' : List Reservation) : PushEvent → Prop
  | reserved r => pending' = pending ++ [r]
  | published r _ => pending = r :: pending'
  | _ => pending' = pending

/-- The chunks that a step publishes. -/
def PushEvent.newChunks : PushEvent → List Chunk
  | published r n => r.chunks n
  | _ => []

namespace WriterInv

variable {cap : ℕ} {m m' : Shared} {procs : ℕ → PushPc} {pending pending' : List Reservation}

/-- A fresh ring with all producers idle. -/
theorem fresh (cap : ℕ) : WriterInv cap Shared.fresh (fun _ => .idle) [] where
  head_le := le_rfl
  reserve_le := Nat.zero_le _
  reserve_lt := by decide
  chain := rfl
  placed := by simp
  ok := fun _ => trivial
  distinct := by intro i j r r' h; cases h

/-- The consumers may advance `head_publish` up to `tail_publish`. -/
theorem advance (h : WriterInv cap m procs pending)
    (hle : m.control.headPublish ≤ m'.control.headPublish)
    (hle' : m'.control.headPublish ≤ m.control.tailPublish)
    (hpub : m'.control.tailPublish = m.control.tailPublish)
    (hres : m'.control.tailReserve = m.control.tailReserve) (hring : m'.ring = m.ring) :
    WriterInv cap m' procs pending where
  head_le := by rw [hpub]; exact hle'
  reserve_le := by have := h.reserve_le; omega
  reserve_lt := by rw [hres]; exact h.reserve_lt
  chain := by rw [hpub, hres]; exact h.chain
  placed := h.placed
  ok := fun i => (h.ok i).transfer h.placed hle fun r hr =>
    ⟨(h.ok i).mem hr, by rw [hring]; exact .refl _ _ _ _, fun _ => hpub⟩
  distinct := h.distinct

/-- The common part of all producers' steps: the producer that moves knows what it has to at its new
place, and the others keep what they know. -/
theorem of_step (h : WriterInv cap m procs pending) {i : ℕ} {pc' : PushPc}
    (hhead : m'.control.headPublish = m.control.headPublish)
    (hle : m'.control.headPublish ≤ m'.control.tailPublish)
    (hres : m'.control.tailReserve ≤ m.control.headPublish + cap)
    (hlt : m'.control.tailReserve < 2^64)
    (hchain : Chain m'.control.tailPublish pending' m'.control.tailReserve)
    (hplaced : ∀ r ∈ pending', r.Placed cap) (hpc : pc'.Ok cap m' pending')
    (hnew : ∀ r, pc'.reservation? = some r → (procs i).reservation? = some r ∨
      ∀ r' ∈ pending, r.start ≠ r'.start)
    (hkeep : ∀ j r, j ≠ i → (procs j).reservation? = some r → r ∈ pending' ∧
      AgreeOn cap m.ring m'.ring r.start r.stop ∧
      (r.start = m.control.tailPublish → m'.control.tailPublish = m.control.tailPublish)) :
    WriterInv cap m' (Function.update procs i pc') pending' where
  head_le := hle
  reserve_le := by rw [hhead]; exact hres
  reserve_lt := hlt
  chain := hchain
  placed := hplaced
  ok := by
    intro j
    by_cases hj : j = i
    · subst hj
      rw [Function.update_self]
      exact hpc
    · rw [Function.update_of_ne hj]
      exact (h.ok j).transfer h.placed (le_of_eq hhead.symm) fun r hr => hkeep j r hj hr
  distinct := by
    -- A reservation that the moving producer has just taken is behind all others.
    have hother : ∀ j r r', j ≠ i → (procs j).reservation? = some r →
        pc'.reservation? = some r' → r.start ≠ r'.start := by
      intro j r r' hj hr hr' heq
      rcases hnew r' hr' with hold | hold
      · exact hj (h.distinct j i r r' hr hold heq)
      · exact hold r ((h.ok j).mem hr) heq.symm
    intro j k r r' hr hr' heq
    by_cases hj : j = i
    · by_cases hk : k = i
      · rw [hj, hk]
      · subst hj
        rw [Function.update_self] at hr
        rw [Function.update_of_ne hk] at hr'
        exact absurd heq.symm (hother k r' r hk hr' hr)
    · rw [Function.update_of_ne hj] at hr
      by_cases hk : k = i
      · subst hk
        rw [Function.update_self] at hr'
        exact absurd heq (hother j r r' hj hr hr')
      · rw [Function.update_of_ne hk] at hr'
        exact h.distinct j k r r' hr hr' heq

/-- A step that has no effect on the shared memory. -/
theorem of_silent (h : WriterInv cap m procs pending) {i : ℕ} {pc' : PushPc}
    (hpc : pc'.Ok cap m pending)
    (hnew : ∀ r, pc'.reservation? = some r → (procs i).reservation? = some r) :
    WriterInv cap m (Function.update procs i pc') pending :=
  h.of_step rfl h.head_le h.reserve_le h.reserve_lt h.chain h.placed hpc
    (fun r hr => Or.inl (hnew r hr))
    (fun j _ _ hr => ⟨(h.ok j).mem hr, .refl _ _ _ _, fun _ => rfl⟩)

/-- The positions of pending reservations lie in the window of the ring. -/
theorem window (h : WriterInv cap m procs pending) {r : Reservation} (hr : r ∈ pending) :
    m.control.tailPublish ≤ r.start ∧ r.stop ≤ m.control.headPublish + cap := by
  have := h.chain.mem hr
  have := h.reserve_le
  omega

/-- A store on behalf of the reservation of producer `i` keeps the published part of the ring. -/
theorem agree_published (h : WriterInv cap m procs pending) {r : Reservation} (hr : r ∈ pending)
    {st : Store} (hst : st.Covers cap r.start r.stop) :
    AgreeOn cap m.ring (st.apply m.ring) m.control.headPublish m.control.tailPublish := by
  have hwin := h.window hr
  have hle := h.head_le
  refine hst.agreeOn (h := m.control.headPublish) _ (by omega) hwin.2 le_rfl ?_ (Or.inl hwin.1)
  have := h.chain.le
  have := h.reserve_le
  omega

/-- A store on behalf of the reservation of producer `i` keeps the reservations of the others. -/
theorem agree_other (h : WriterInv cap m procs pending) {i j : ℕ} {r r' : Reservation}
    (hi : (procs i).reservation? = some r) (hj : (procs j).reservation? = some r') (hne : j ≠ i)
    {st : Store} (hst : st.Covers cap r.start r.stop) :
    AgreeOn cap m.ring (st.apply m.ring) r'.start r'.stop := by
  have hr := (h.ok i).mem hi
  have hr' := (h.ok j).mem hj
  have hwin := h.window hr
  have hwin' := h.window hr'
  have hle := h.head_le
  have hdis := h.chain.disjoint hr hr' fun heq => hne (h.distinct i j r r' hi hj heq).symm
  exact hst.agreeOn (h := m.control.headPublish) _ (by omega) hwin.2 (by omega) hwin'.2
    hdis.symm

/-- A store of producer `i` to its own reservation. -/
theorem of_store (h : WriterInv cap m procs pending) {i : ℕ} {r : Reservation} {pc' : PushPc}
    {st : Store} (hi : (procs i).reservation? = some r) (hst : st.Covers cap r.start r.stop)
    (hpc : pc'.Ok cap ((Effect.ring st).apply m) pending)
    (hnew : ∀ r', pc'.reservation? = some r' → r' = r) :
    WriterInv cap ((Effect.ring st).apply m) (Function.update procs i pc') pending ∧
      ProducerView cap m ((Effect.ring st).apply m) [] := by
  have hr := (h.ok i).mem hi
  refine ⟨h.of_step rfl h.head_le h.reserve_le h.reserve_lt h.chain h.placed hpc ?_ ?_, ?_⟩
  · intro r' hr'
    rw [hnew r' hr']
    exact Or.inl hi
  · intro j r' hj hr'
    exact ⟨(h.ok j).mem hr', h.agree_other hi hr' hj hst, fun _ => rfl⟩
  · exact ⟨rfl, rfl, h.agree_published hr hst, rfl⟩

/-- The compare-exchange that takes the reservation `r`. -/
theorem of_reserve (h : WriterInv cap m procs pending) {i : ℕ} {r : Reservation}
    (hok : (PushPc.cas r).Ok cap m pending) (htail : m.control.tailReserve = r.start)
    (hlt : r.stop < 2^64) :
    WriterInv cap ((Effect.tailReserve (u64 (r.start + r.total))).apply m)
      (Function.update procs i (.storing r (r.stores cap))) (pending ++ [r]) := by
  obtain ⟨ha, head, hhead, hle, hres⟩ := hok
  obtain ⟨hplaced, hstop⟩ := reserve_spec ha hres hle hlt
  have hu : u64 (r.start + r.total) = r.stop := u64_of_lt hlt
  rw [hu]
  refine h.of_step rfl h.head_le ?_ hlt ?_ ?_ ?_ ?_ ?_
  · change r.stop ≤ _
    omega
  · exact h.chain.concat htail.symm
  · intro r' hr'
    rcases List.mem_append.mp hr' with hr' | hr'
    · exact h.placed r' hr'
    · rw [List.mem_singleton.mp hr']
      exact hplaced
  · exact PushPc.ok_storing (by simp) (.start _ _)
  · intro r' hr'
    rw [PushPc.reservation?_storing, Option.some.injEq] at hr'
    subst hr'
    right
    intro r' hr'
    have := h.chain.mem hr'
    have := Reservation.Placed.total_pos r'
    unfold Reservation.stop at *
    omega
  · intro j r' _ hr'
    exact ⟨List.mem_append_left _ ((h.ok j).mem hr'), .refl _ _ _ _, fun _ => rfl⟩

/-- The publication of the reservation `r`. -/
theorem of_publish (h : WriterInv cap m procs pending) {i : ℕ} {r : Reservation} {n : ℕ}
    (hpc : procs i = .publish r n) :
    ∃ pending', pending = r :: pending' ∧
      WriterInv cap ((Effect.tailPublish (u64 (r.start + r.total))).apply m)
        (Function.update procs i .idle) pending' ∧
      ProducerView cap m ((Effect.tailPublish (u64 (r.start + r.total))).apply m) (r.chunks n) := by
  have hok := h.ok i
  rw [hpc] at hok
  obtain ⟨hr, hstream, hturn⟩ := hok
  obtain ⟨rest, rfl⟩ := h.chain.eq_cons hr hturn
  have hwin := h.chain.mem hr
  have hlt := h.reserve_lt
  have hu : u64 (r.start + r.total) = r.stop :=
    u64_of_lt (by unfold Reservation.stop at hwin; omega)
  have hhead := h.head_le
  refine ⟨rest, rfl, ?_, ?_⟩
  · rw [hu]
    refine h.of_step rfl ?_ h.reserve_le hlt h.chain.2 ?_ trivial ?_ ?_
    · change m.control.headPublish ≤ r.stop
      unfold Reservation.stop
      omega
    · intro r' hr'
      exact h.placed r' (by simp [hr'])
    · intro r' hr'
      cases hr'
    · -- Another producer's reservation starts elsewhere, so it is one of the rest.
      intro j r' hj hr'
      have hne : r'.start ≠ r.start := fun heq =>
        hj (h.distinct j i r' r hr' (by rw [hpc]; rfl) heq)
      have hin : r' ∈ rest := by
        rcases List.mem_cons.mp ((h.ok j).mem hr') with rfl | hin
        · exact absurd rfl hne
        · exact hin
      exact ⟨hin, .refl _ _ _ _, fun heq => absurd (heq.trans hturn.symm) hne⟩
  · refine ⟨rfl, rfl, .refl _ _ _ _, ?_⟩
    rw [hu, ← hturn]
    exact hstream

/-- Every step of a producer keeps the invariant, changes the pending reservations as its event
says, and extends the stream by the chunks it publishes. A reservation is assumed not to make the
counter wrap. -/
theorem step (h : WriterInv cap m procs pending) {i : ℕ} {l : PushLabel} {eff : Effect}
    {pc' : PushPc} {e : PushEvent} (hs : (procs i).step cap m l = some (eff, pc', e))
    (hlt : ∀ r, e = .reserved r → r.stop < 2^64) :
    ∃ pending', e.Pending pending pending' ∧
      WriterInv cap (eff.apply m) (Function.update procs i pc') pending' ∧
      ProducerView cap m (eff.apply m) e.newChunks := by
  have hok := h.ok i
  generalize hpc : procs i = pc at hs hok
  cases PushPc.step_cases hs with
  | reject a =>
    exact ⟨pending, rfl, h.of_silent trivial (by simp [PushPc.reservation?]),
      .of_eq rfl rfl rfl rfl⟩
  | call a hrej =>
    exact ⟨pending, rfl, h.of_silent (PushArgs.accepted_of_not_rejected hrej)
      (by simp [PushPc.reservation?]), .of_eq rfl rfl rfl rfl⟩
  | loadHead a =>
    exact ⟨pending, rfl, h.of_silent ⟨hok, le_rfl⟩ (by simp [PushPc.reservation?]),
      .of_eq rfl rfl rfl rfl⟩
  | full a head =>
    exact ⟨pending, rfl, h.of_silent trivial (by simp [PushPc.reservation?]),
      .of_eq rfl rfl rfl rfl⟩
  | room a head r hres =>
    refine ⟨pending, rfl, h.of_silent ?_ (by simp [PushPc.reservation?]), .of_eq rfl rfl rfl rfl⟩
    obtain ⟨hargs, hstart⟩ := reserve_start hres
    have hle := h.chain.le
    have hhp := h.head_le
    have hhead := hok.2
    refine ⟨by rw [hargs]; exact hok.1, head, hhead, by omega, ?_⟩
    rw [hargs, hstart]
    exact hres
  | reserve r htail =>
    exact ⟨pending ++ [r], rfl, h.of_reserve hok htail (hlt r rfl), .of_eq rfl rfl rfl rfl⟩
  | retry r =>
    exact ⟨pending, rfl, h.of_silent hok.1 (by simp [PushPc.reservation?]), .of_eq rfl rfl rfl rfl⟩
  | store r st todo =>
    obtain ⟨hr, hprog⟩ := hok
    have hplaced := h.placed r hr
    have hst := hplaced.covers (hprog.mem List.mem_cons_self)
    have hok' : (PushPc.storing r todo).Ok cap ((Effect.ring st).apply m) pending :=
      PushPc.ok_storing hr (hprog.next hplaced.stores_pairwise)
    obtain ⟨h1, h2⟩ := h.of_store (i := i) (by rw [hpc]; rfl) hst hok'
      (fun r' hr' => by simpa using hr'.symm)
    exact ⟨pending, rfl, h1, h2⟩
  | wait r =>
    exact ⟨pending, rfl, h.of_silent hok (by rw [hpc]; exact fun _ hr => hr),
      .of_eq rfl rfl rfl rfl⟩
  | turn r hturn =>
    exact ⟨pending, rfl, h.of_silent ⟨hok.1, hok.2, hturn.symm⟩ (by rw [hpc]; exact fun _ hr => hr),
      .of_eq rfl rfl rfl rfl⟩
  | fetch r =>
    refine ⟨pending, rfl, ?_, .of_eq rfl rfl rfl rfl⟩
    refine h.of_step rfl h.head_le h.reserve_le h.reserve_lt h.chain h.placed ?_ ?_ ?_
    · exact ⟨hok.1, hok.2.1, hok.2.2, u64_lt _⟩
    · rw [hpc]
      exact fun _ hr' => Or.inl hr'
    · exact fun j r' _ hr' => ⟨(h.ok j).mem hr', .refl _ _ _ _, fun _ => rfl⟩
  | number r n =>
    obtain ⟨hr, hprog, hturn, hn⟩ := hok
    have hplaced := h.placed r hr
    have hok' : (PushPc.publish r n).Ok cap
        ((Effect.ring (r.sequenceStore cap n)).apply m) pending :=
      ⟨hr, hplaced.stream hprog.holds hn, hturn⟩
    obtain ⟨h1, h2⟩ := h.of_store (i := i) (by rw [hpc]; rfl) (hplaced.sequenceStore_covers n)
      hok' (by simp [PushPc.reservation?])
    exact ⟨pending, rfl, h1, h2⟩
  | publish r n =>
    obtain ⟨rest, h1, h2, h3⟩ := h.of_publish hpc
    exact ⟨rest, h1, h2, h3⟩

end WriterInv

end LfRing

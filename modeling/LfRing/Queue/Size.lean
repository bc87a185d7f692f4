import LfRing.Queue.Fifo

/-!
# What `SPSCQueue::size` returns

`size` loads `tail_publish`, then `head_publish`, and returns the difference. Between the two loads
the producer and the consumer go on. The producer only makes the difference returned smaller than
what there is. But a consumer that takes values pushed since the first load moves the head past the
tail that was loaded, and the difference wraps: with one such value it is `2^64 - 1`
(`size_wrapped`).

Otherwise it is in range (`possible_size`). That needs nothing of the slots, only the counters
(`Counted` of `Queue/Fifo.lean`), so it holds for every element size.
-/

namespace LfRing.Queue

variable {g : Geometry}

/-! ## The callers of `size` and `empty` -/

namespace Size

/-- What another thread calls. -/
inductive Call
  /-- `size`. -/
  | size
  /-- `empty`, which calls `size`. -/
  | empty

/-- Where it is. -/
inductive Pc
  /-- Between two calls. -/
  | idle
  /-- About to load `tail_publish`. -/
  | loadTail (c : Call)
  /-- About to load `head_publish`. -/
  | loadHead (c : Call) (t : ℕ)

/-- Who moves next. -/
inductive Label (g : Geometry)
  /-- The producer, the consumer, or a process that claims the file. -/
  | queue (l : Queue.Label g)
  /-- Thread `i` makes a call. -/
  | call (i : ℕ) (c : Call)
  /-- Thread `i` takes its next step. -/
  | run (i : ℕ)

/-- What a step reports. -/
inductive Event (g : Geometry)
  /-- A step on the queue. -/
  | queue (e : Queue.Event g)
  /-- Thread `i` has made a call. -/
  | called (i : ℕ)
  /-- Thread `i` has loaded `tail_publish`. -/
  | loadedTail (i : ℕ)
  /-- Thread `i` has loaded `head_publish`, and `size` has returned `n`. -/
  | size (i n : ℕ)
  /-- The same inside `empty`, which has returned `b`. -/
  | empty (i n : ℕ) (b : Bool)

/-- The queue, and the place of every other thread. -/
structure State (g : Geometry) where
  /-- The queue with its producer and its consumer. -/
  queue : Queue.State g
  /-- Where each of the threads is. -/
  callers : ℕ → Pc

/-- What is returned for a size of `n`. -/
def Call.returned (i n : ℕ) : Call → Event g
  | size => .size i n
  | empty => .empty i n (n == 0)

/-- One step. -/
def step (file : Mapping) (s : State g) : Label g → Option (State g × Event g)
  | .queue l =>
    match Queue.step file s.queue l with
    | none => none
    | some (queue, e) => some ({ s with queue := queue }, .queue e)
  | .call i c =>
    match s.callers i with
    | .idle => some ({ s with callers := Function.update s.callers i (.loadTail c) }, .called i)
    | _ => none
  | .run i =>
    match s.callers i with
    | .idle => none
    | .loadTail c => some ({ s with
        callers := Function.update s.callers i (.loadHead c s.queue.mem.control.tailPublish) },
        .loadedTail i)
    | .loadHead c t => some ({ s with callers := Function.update s.callers i .idle },
        c.returned i (sub64 t s.queue.mem.control.headPublish))

variable (g) in
/-- Producer, consumer and other threads on a file. -/
def machine (file : Mapping) : Machine (State g) (Label g) (Event g) where
  init := ⟨(Queue.machine g file).init, fun _ => .idle⟩
  step := step file

/-- The step on the queue that an event reports. -/
def Event.queue? : Event g → List (Queue.Event g)
  | queue e => [e]
  | _ => []

/-- The size that a call has returned. -/
def Event.size? : Event g → Option ℕ
  | size _ n => some n
  | empty _ n _ => some n
  | _ => none

/-- The history of the queue. -/
def history (tr : List (Event g)) : List (Queue.Event g) := tr.flatMap Event.queue?

/-- When a thread loads `head_publish`, none of the values has been popped that were pushed since it
loaded `tail_publish`. -/
def popsNoneNewer (s : State g) (tr : List (Event g)) (l : Label g) : Prop :=
  ∀ i c t, l = .run i → s.callers i = .loadHead c t →
    ∀ pre mid, tr = pre ++ .loadedTail i :: mid → .loadedTail i ∉ mid →
      (popped (history tr)).length ≤ (pushed (history pre)).length

/-! ## What a step can do -/

/-- The transitions, one constructor each. -/
inductive Step (file : Mapping) (s : State g) : Label g → State g → Event g → Prop
  /-- A step on the queue. -/
  | queue {l : Queue.Label g} {queue : Queue.State g} {e : Queue.Event g}
    (hs : Queue.step file s.queue l = some (queue, e)) :
    Step file s (.queue l) { s with queue := queue } (.queue e)
  /-- A call. -/
  | call (i : ℕ) (c : Call) :
    Step file s (.call i c) { s with callers := Function.update s.callers i (.loadTail c) }
    (.called i)
  /-- `tail_publish` is loaded. -/
  | loadTail (i : ℕ) (c : Call) :
    Step file s (.run i) { s with
      callers := Function.update s.callers i (.loadHead c s.queue.mem.control.tailPublish) }
      (.loadedTail i)
  /-- `head_publish` is loaded, and the call returns. -/
  | loadHead (i : ℕ) (c : Call) (t : ℕ) (hpc : s.callers i = .loadHead c t) :
    Step file s (.run i) { s with callers := Function.update s.callers i .idle }
      (c.returned i (sub64 t s.queue.mem.control.headPublish))

/-- Every step is one of these. -/
theorem step_cases {file : Mapping} {s s' : State g} {l : Label g} {e : Event g}
    (h : step file s l = some (s', e)) : Step file s l s' e := by
  cases l with
  | queue l =>
    simp only [step] at h
    split at h
    · cases h
    · rename_i hs
      cases h
      exact .queue hs
  | call i c =>
    simp only [step] at h
    split at h
    · cases h
      exact .call i c
    · cases h
  | run i =>
    simp only [step] at h
    split at h
    · cases h
    · cases h
      exact .loadTail i _
    · rename_i hpc
      cases h
      exact .loadHead i _ _ hpc

/-! ## The sizes returned -/

/-- What holds at every moment. -/
structure Inv (start : ℕ) (s : State g) (tr : List (Event g)) : Prop where
  /-- The counters of the queue. -/
  counted : Counted start s.queue (history tr)
  /-- The tail that a thread has loaded was that of its position then. -/
  loaded : ∀ i c t, s.callers i = .loadHead c t →
    AtLast (· = .loadedTail i) (fun pre => t = u64 (tailPos start (history pre))) tr
  /-- The sizes returned so far are in range. -/
  sizes : ∀ e ∈ tr, ∀ n, e.size? = some n → n ≤ g.capacity

section Sizes

variable {start : ℕ} {s : State g} {tr : List (Event g)}

/-- One more step adds what it does to the queue. -/
theorem history_append (tr : List (Event g)) (e : Event g) :
    history (tr ++ [e]) = history tr ++ e.queue? := by
  simp [history]

/-- The history of the first events is shorter. -/
theorem pushed_history_le (pre post : List (Event g)) :
    (pushed (history pre)).length ≤ (pushed (history (pre ++ post))).length := by
  simp [history, pushed]

/-- If none of the newer values has been popped, the size is that of what was pushed by the first
load and not popped by the second. -/
theorem Inv.size_le (h : Inv start s tr) {i t : ℕ} {c : Call} (hpc : s.callers i = .loadHead c t)
    (hnone : ∀ pre mid, tr = pre ++ .loadedTail i :: mid → .loadedTail i ∉ mid →
      (popped (history tr)).length ≤ (pushed (history pre)).length) :
    sub64 t s.queue.mem.control.headPublish ≤ g.capacity := by
  obtain ⟨pre, e, mid, htr, rfl, hmid, rfl⟩ := h.loaded i c t hpc
  have hle := hnone pre mid htr fun hmem => hmid _ hmem rfl
  have hpushed : (pushed (history pre)).length ≤ (pushed (history tr)).length := by
    rw [htr]
    exact pushed_history_le pre _
  have hroom := h.counted.tailPos_le
  have hlt := g.capacity_lt
  have hhead : headPos start (history tr) ≤ tailPos start (history pre) :=
    Nat.add_le_add_left hle start
  have htail : tailPos start (history pre) ≤ tailPos start (history tr) :=
    Nat.add_le_add_left hpushed start
  rw [h.counted.head, sub64_u64 hhead (by omega)]
  omega

/-- A step of another thread leaves the counters as they are. -/
theorem Inv.counted_append (h : Inv start s tr) {e : Event g} (he : e.queue? = []) :
    Counted start s.queue (history (tr ++ [e])) := by
  rw [history_append, he, List.append_nil]
  exact h.counted

/-- What a thread has loaded stays true while others move. -/
theorem Inv.loaded_later (h : Inv start s tr) {e : Event g} {i j t : ℕ} {c : Call} {pc : Pc}
    (hj : Function.update s.callers i pc j = .loadHead c t) (hpc : ∀ c t, pc ≠ .loadHead c t)
    (he : ∀ j, e ≠ .loadedTail j) :
    AtLast (· = .loadedTail j) (fun pre => t = u64 (tailPos start (history pre))) (tr ++ [e]) := by
  rw [Function.update_apply] at hj
  split_ifs at hj with hji
  · exact absurd hj (hpc c t)
  · exact (h.loaded j c t hj).later (he j)

/-- A step that returns no size leaves those returned in range. -/
theorem Inv.sizes_append (h : Inv start s tr) {e : Event g}
    (he : ∀ n, e.size? = some n → n ≤ g.capacity) :
    ∀ x ∈ tr ++ [e], ∀ n, x.size? = some n → n ≤ g.capacity := by
  intro x hx n hn
  rcases List.mem_append.mp hx with hx | hx
  · exact h.sizes x hx n hn
  · rw [List.mem_singleton.mp hx] at hn
    exact he n hn

/-- The size of a call that returns. -/
theorem Call.size_returned (c : Call) (i n : ℕ) : (c.returned i n : Event g).size? = some n := by
  cases c <;> rfl

/-- A step that meets the condition keeps the invariant. -/
theorem Inv.step (h : Inv start s tr) {file : Mapping} {l : Label g} {s' : State g} {e : Event g}
    (hok : popsNoneNewer s tr l) (hs : Size.step file s l = some (s', e)) :
    Inv start s' (tr ++ [e]) := by
  cases step_cases hs with
  | queue hq =>
    refine ⟨?_, fun i c t hpc => (h.loaded i c t hpc).later (by simp),
      h.sizes_append (by simp [Event.size?])⟩
    rw [history_append]
    exact h.counted.step hq
  | call i c =>
    refine ⟨h.counted_append rfl, ?_, h.sizes_append (by simp [Event.size?])⟩
    intro j c' t hj
    exact h.loaded_later hj (by simp) (by simp)
  | loadTail i c =>
    refine ⟨h.counted_append rfl, ?_, h.sizes_append (by simp [Event.size?])⟩
    intro j c' t hj
    dsimp only at hj
    rw [Function.update_apply] at hj
    split_ifs at hj with hji
    · cases hj
      exact .now (by rw [hji]) h.counted.tail
    · exact (h.loaded j c' t hj).later fun heq => hji (by cases heq; rfl)
  | loadHead i c t hpc =>
    refine ⟨h.counted_append (by cases c <;> rfl), ?_, h.sizes_append ?_⟩
    · intro j c' t' hj
      exact h.loaded_later hj (by simp) (by cases c <;> simp [Call.returned])
    · intro n hn
      rw [c.size_returned] at hn
      cases hn
      exact h.size_le hpc (hok i c t rfl hpc)

end Sizes

/-- What `size` returns is a possible size, unless newer values are popped meanwhile. For every
geometry, from every file in which both counters have the same value, whatever that is, in every
interleaving of the producer's, the consumer's and any number of other threads' single accesses in
which none of the values pushed since a thread's load of `tail_publish` has been popped when it
loads `head_publish`, every size returned is at most `Capacity`. -/
theorem possible_size {file : Mapping} {start : ℕ} {s : State g} {tr : List (Event g)}
    (hlt : start < 2^64) (htail : file.shared.control.tailPublish = start)
    (hhead : file.shared.control.headPublish = start)
    (hrun : (machine g file).Run popsNoneNewer s tr) :
    ∀ e ∈ tr, ∀ n, e.size? = some n → n ≤ g.capacity := by
  have hfresh : Inv start (machine g file).init [] :=
    ⟨Counted.fresh hlt htail hhead, (fun i c t hpc => by cases hpc), by simp⟩
  have hinv := hrun.invariant (Inv start) hfresh fun s tr l s' e hok h hs => h.step hok hs
  exact hinv.sizes

/-- Two slots of one byte. -/
def twoBytes : Geometry := ⟨2, 1, by decide, by decide⟩

/-- A value is pushed. -/
def pushByte (x : UInt8) : List (Label twoBytes) :=
  .queue (.producer (.call (oneByte x))) :: List.replicate 4 (.queue (.producer .run))

/-- A value is popped. -/
def popByte : List (Label twoBytes) :=
  .queue (.consumer (.call (oneByte 0))) :: List.replicate 4 (.queue (.consumer .run))

/-- As long as nothing has been popped, the condition is met. -/
theorem popsNoneNewer_of_isEmpty {s : State g} {tr : List (Event g)} {l : Label g}
    (h : (popped (history tr)).isEmpty = true) : popsNoneNewer s tr l := by
  intro i c t _ _ pre mid _ _
  rw [List.isEmpty_iff.mp h]
  exact Nat.zero_le _

/-- A value is pushed before thread 0 calls `size`, and another one while it is inside. -/
theorem possible_size_pushed : ∃ mapping s tr,
    createMapping twoBytes.bytes kFlagFixedSPSC = .ok mapping ∧
    (machine twoBytes mapping).Run popsNoneNewer s tr ∧ tr.filterMap Event.size? = [1] ∧
    ∀ e ∈ tr, ∀ n, e.size? = some n → n ≤ 2 := by
  obtain ⟨mapping, hmap⟩ : ∃ mapping, createMapping twoBytes.bytes kFlagFixedSPSC = .ok mapping :=
    ⟨_, rfl⟩
  obtain ⟨s, tr, hrun, htest⟩ := (machine twoBytes mapping).exists_run
    (fun _ tr _ => (popped (history tr)).isEmpty) (fun _ _ _ h => popsNoneNewer_of_isEmpty h)
    (pushByte 7 ++ [.call 0 .size, .run 0] ++ pushByte 8 ++ [.run 0])
    (fun _ tr => decide (tr.filterMap Event.size? = [1]))
    (by cases hmap; decide +kernel)
  refine ⟨mapping, s, tr, hmap, hrun, of_decide_eq_true htest, ?_⟩
  have hfresh := createMapping_shared hmap
  exact possible_size (by decide : 0 < 2^64) (by rw [hfresh]; rfl) (by rw [hfresh]; rfl) hrun

/-- A value is pushed and popped while thread 0 is inside `size`, which then returns `2^64 - 1`. -/
theorem size_wrapped : ∃ mapping s tr, createMapping twoBytes.bytes kFlagFixedSPSC = .ok mapping ∧
    (machine twoBytes mapping).Reaches s tr ∧ .size 0 (2^64 - 1) ∈ tr := by
  obtain ⟨mapping, hmap⟩ : ∃ mapping, createMapping twoBytes.bytes kFlagFixedSPSC = .ok mapping :=
    ⟨_, rfl⟩
  obtain ⟨s, tr, hrun, htest⟩ := (machine twoBytes mapping).exists_reaches
    ([.call 0 .size, .run 0] ++ pushByte 7 ++ popByte ++ [.run 0])
    (fun _ tr => tr.any fun e => match e with
      | .size 0 n => n == 2^64 - 1
      | _ => false)
    (by cases hmap; decide +kernel)
  obtain ⟨e, he, hsize⟩ := List.any_eq_true.mp htest
  refine ⟨mapping, s, tr, hmap, hrun, ?_⟩
  split at hsize
  · rwa [beq_iff_eq.mp hsize] at he
  · cases hsize

end Size

end LfRing.Queue

import Mathlib.Data.Nat.Basic
import Mathlib.Tactic.Common

/-!
# The codecs of typed messages

`MessageCodec` of `include/lf_ring/typed_message.hpp`, for the three kinds of types it is
specialized for: trivially copyable types, `std::string`, and `std::vector` of trivially copyable
elements. A value of a trivially copyable type is the string of its bytes.

A decoder gets a payload and nothing else, so it takes the number of bytes and of elements from the
payload's length. `decode_eq_some_iff` says it all: the payload that is decoded to a value is the
value's own encoding, and no other.
-/

namespace LfRing.Typed

/-- The types of messages. -/
inductive Kind
  /-- A trivially copyable type, by its `sizeof`. -/
  | object (size : ℕ)
  /-- `std::string`. -/
  | string
  /-- `std::vector` of a trivially copyable type, by the `sizeof` of that, which is not zero. -/
  | vector (size : ℕ) (pos : 0 < size)
deriving DecidableEq

/-- The values of messages. -/
inductive Value
  /-- A trivially copyable object. -/
  | object (bytes : List UInt8)
  /-- A `std::string`. -/
  | string (chars : List UInt8)
  /-- A `std::vector`, element by element. -/
  | vector (size : ℕ) (pos : 0 < size) (elems : List (List UInt8))
    (sized : ∀ e ∈ elems, e.length = size)
deriving DecidableEq

/-- The type of a value. -/
def Value.kind : Value → Kind
  | object bytes => .object bytes.length
  | string _ => .string
  | vector size pos _ _ => .vector size pos

/-- `MessageCodec<T>::encode`, and the bytes of the object itself where `try_push_typed` does
without it. -/
def Value.encode : Value → List UInt8
  | object bytes => bytes
  | string chars => chars
  | vector _ _ elems _ => elems.flatten

/-- The bytes of `count` elements, cut into elements. -/
def elements (size : ℕ) : ℕ → List UInt8 → List (List UInt8)
  | 0, _ => []
  | count + 1, bytes => bytes.take size :: elements size count (bytes.drop size)

/-- Where there are bytes enough, every element has its size. -/
theorem length_of_mem_elements {size count : ℕ} {bytes : List UInt8}
    (h : bytes.length = count * size) : ∀ e ∈ elements size count bytes, e.length = size := by
  induction count generalizing bytes with
  | zero => simp [elements]
  | succ count ih =>
    rw [Nat.succ_mul] at h
    intro e he
    rcases List.mem_cons.mp he with rfl | he
    · rw [List.length_take]
      omega
    · exact ih (by rw [List.length_drop]; omega) e he

/-- The elements put together are the bytes again. -/
theorem flatten_elements {size count : ℕ} {bytes : List UInt8} (h : bytes.length = count * size) :
    (elements size count bytes).flatten = bytes := by
  induction count generalizing bytes with
  | zero =>
    rw [Nat.zero_mul] at h
    exact (List.length_eq_zero_iff.mp h).symm
  | succ count ih =>
    rw [Nat.succ_mul] at h
    rw [elements, List.flatten_cons, ih (by rw [List.length_drop]; omega), List.take_append_drop]

/-- Elements that are put together can be cut again. -/
theorem elements_flatten {size : ℕ} {elems : List (List UInt8)} (h : ∀ e ∈ elems, e.length = size) :
    elements size elems.length elems.flatten = elems := by
  induction elems with
  | nil => rfl
  | cons e elems ih =>
    have he : e.length = size := h e List.mem_cons_self
    rw [List.length_cons, elements, List.flatten_cons, List.take_left' he, List.drop_left' he,
      ih fun x hx => h x (List.mem_cons_of_mem _ hx)]

/-- The length of elements put together. -/
theorem length_flatten_of_sized {size : ℕ} {elems : List (List UInt8)}
    (h : ∀ e ∈ elems, e.length = size) : elems.flatten.length = elems.length * size := by
  induction elems with
  | nil => simp
  | cons e elems ih =>
    rw [List.flatten_cons, List.length_append, h e List.mem_cons_self,
      ih fun x hx => h x (List.mem_cons_of_mem _ hx), List.length_cons, Nat.succ_mul, Nat.add_comm]

/-- The bytes of a whole number of elements. -/
theorem eq_div_mul {size n : ℕ} (h : n % size = 0) : n = n / size * size :=
  (Nat.div_mul_cancel (Nat.dvd_of_mod_eq_zero h)).symm

/-- `MessageCodec<T>::decode`, and `decode_payload` for trivially copyable types. -/
def decode : Kind → List UInt8 → Option Value
  | .object size, payload => if payload.length = size then some (.object payload) else none
  | .string, payload => some (.string payload)
  | .vector size pos, payload =>
    if h : payload.length % size = 0 then
      some (.vector size pos (elements size (payload.length / size) payload)
        (length_of_mem_elements (eq_div_mul h)))
    else none

/-- A payload is decoded to a value exactly if it is the value's encoding. -/
theorem decode_eq_some_iff (v : Value) (payload : List UInt8) :
    decode v.kind payload = some v ↔ payload = v.encode := by
  cases v with
  | object bytes =>
    simp only [Value.kind, Value.encode, decode]
    constructor
    · intro h
      split_ifs at h
      cases h
      rfl
    · rintro rfl
      rw [if_pos rfl]
  | string chars => simp [Value.kind, Value.encode, decode]
  | vector size pos elems sized =>
    simp only [Value.kind, Value.encode, decode]
    constructor
    · intro h
      split_ifs at h with hmod
      simp only [Option.some.injEq, Value.vector.injEq, true_and] at h
      rw [← h, flatten_elements (eq_div_mul hmod)]
    · rintro rfl
      have hlen := length_flatten_of_sized sized
      have hmod : elems.flatten.length % size = 0 := by rw [hlen, Nat.mul_mod_left]
      rw [dif_pos hmod]
      have hcount : elems.flatten.length / size = elems.length := by
        rw [hlen, Nat.mul_div_cancel _ pos]
      simp only [Option.some.injEq, Value.vector.injEq, true_and]
      rw [hcount, elements_flatten sized]

end LfRing.Typed

import BareboneKernel.Lib.Endian
import Mathlib.Order.Bounds.Defs

/-!
# Machine words

Addresses, sizes and counters are natural numbers below `2 ^ 64`; the checked operations fail
instead of leaving that range.

* `checkedAdd`, `checkedMul`, `checkedSub`, `roundUp`;
* `complement`, **`and_complement_mask`**: clearing the low bits of a word with a mask rounds it
  down;
* `chunksExact n bs`: the consecutive pieces of length `n` of a byte string, without the remainder;
* `flatten_chunksExact`: there is no remainder when the length is a multiple of `n`;
* `chunks n bs`: these pieces and the remainder.
-/

set_option autoImplicit false

namespace Word

/-- The largest word. -/
def wordMax : ℕ := 2 ^ 64 - 1

theorem wordMax_eq : wordMax = 2 ^ 64 - 1 := rfl

/-- The sum, when it is a word. -/
def checkedAdd (a b : ℕ) : Option ℕ := if a + b ≤ wordMax then some (a + b) else none

/-- The product, when it is a word. -/
def checkedMul (a b : ℕ) : Option ℕ := if a * b ≤ wordMax then some (a * b) else none

/-- The difference, when there is one. -/
def checkedSub (a b : ℕ) : Option ℕ := if b ≤ a then some (a - b) else none

theorem checkedAdd_eq_some {a b c : ℕ} : checkedAdd a b = some c ↔ a + b ≤ wordMax ∧ c = a + b := by
  unfold checkedAdd
  split <;> simp [*, eq_comm]

theorem checkedMul_eq_some {a b c : ℕ} : checkedMul a b = some c ↔ a * b ≤ wordMax ∧ c = a * b := by
  unfold checkedMul
  split <;> simp [*, eq_comm]

theorem checkedAdd_of_le {a b : ℕ} (h : a + b ≤ wordMax) : checkedAdd a b = some (a + b) := if_pos h

theorem checkedMul_of_le {a b : ℕ} (h : a * b ≤ wordMax) : checkedMul a b = some (a * b) := if_pos h

/-- The multiple of `k` at or above `n`. -/
def roundUp (k n : ℕ) : ℕ := (n + (k - 1)) / k * k

theorem isLeast_roundUp {k : ℕ} (hk : 0 < k) (n : ℕ) : IsLeast {m | k ∣ m ∧ n ≤ m} (roundUp k n) := by
  have hdiv := Nat.div_add_mod (n + (k - 1)) k
  have hmod := Nat.mod_lt (n + (k - 1)) hk
  refine ⟨⟨Dvd.intro_left _ rfl, ?_⟩, ?_⟩
  · rw [roundUp, Nat.mul_comm]
    omega
  · rintro m ⟨⟨q, rfl⟩, hle⟩
    rw [roundUp, Nat.mul_comm k q]
    refine Nat.mul_le_mul_right k (Nat.lt_succ_iff.mp ((Nat.div_lt_iff_lt_mul hk).mpr ?_))
    rw [Nat.succ_mul, Nat.mul_comm q k]
    omega

section RoundUp

variable {k n : ℕ}

theorem le_roundUp (hk : 0 < k) : n ≤ roundUp k n := (isLeast_roundUp hk n).1.2

theorem roundUp_lt (hk : 0 < k) : roundUp k n < n + k := by
  have hle := Nat.div_mul_le_self (n + (k - 1)) k
  unfold roundUp
  omega

theorem roundUp_mod : roundUp k n % k = 0 := Nat.mul_mod_left _ _

end RoundUp

/-- All bits inverted. -/
def complement (a : ℕ) : ℕ := wordMax - a

/-- **Masking.** Clearing the low `k` bits rounds down to a multiple of `2 ^ k`. -/
theorem and_complement_mask {a k : ℕ} (ha : a ≤ wordMax) (hk : k < 64) :
    a &&& complement (2 ^ k - 1) = a / 2 ^ k * 2 ^ k := by
  have hlt : a < 2 ^ 64 := by
    unfold wordMax at ha
    omega
  have hmask : 2 ^ k - 1 < 2 ^ 64 :=
    (Nat.sub_lt (Nat.two_pow_pos k) Nat.one_pos).trans (Nat.pow_lt_pow_right (by decide) hk)
  have hc : complement (2 ^ k - 1) = 2 ^ 64 - (2 ^ k - 1 + 1) := by
    unfold complement wordMax
    omega
  apply Nat.eq_of_testBit_eq
  intro i
  rw [hc, Nat.testBit_and, Nat.testBit_two_pow_sub_succ hmask, Nat.testBit_two_pow_sub_one,
    Nat.testBit_mul_two_pow, Nat.testBit_div_two_pow]
  by_cases hi : i < 64
  · by_cases hki : k ≤ i
    · have hik : ¬ i < k := by omega
      simp [hi, hki, hik, Nat.sub_add_cancel hki]
    · have hik : i < k := by omega
      simp [hki, hik]
  · have hfalse : a.testBit i = false :=
      Nat.testBit_lt_two_pow (hlt.trans_le (Nat.pow_le_pow_right (by decide) (by omega)))
    by_cases hki : k ≤ i
    · simp [hfalse, hki, Nat.sub_add_cancel hki]
    · simp [hfalse, hki]

/-- The consecutive pieces of length `n`; a shorter remainder is left out. -/
def chunksExact (n : ℕ) (bs : List UInt8) : List (List UInt8) :=
  (List.range (bs.length / n)).map fun i => (bs.drop (i * n)).take n

theorem length_of_mem_chunksExact {n : ℕ} {bs c : List UInt8} (h : c ∈ chunksExact n bs) :
    c.length = n := by
  obtain ⟨i, hi, rfl⟩ := List.mem_map.mp h
  have hi' : i < bs.length / n := List.mem_range.mp hi
  have : (i + 1) * n ≤ bs.length :=
    (Nat.mul_le_mul_right n hi').trans (Nat.div_mul_le_self bs.length n)
  rw [List.length_take, List.length_drop]
  rw [Nat.add_mul] at this
  omega

theorem chunksExact_append {n : ℕ} (hn : 0 < n) {c : List UInt8} (hc : c.length = n) (bs : List UInt8) :
    chunksExact n (c ++ bs) = c :: chunksExact n bs := by
  have hlen : (c ++ bs).length / n = bs.length / n + 1 := by
    rw [List.length_append, hc, Nat.add_comm, Nat.add_div_right _ hn]
  unfold chunksExact
  rw [hlen, List.range_succ_eq_map, List.map_cons, List.map_map]
  congr 1
  · rw [Nat.zero_mul, List.drop_zero, ← hc, List.take_left]
  · refine List.map_congr_left fun i _ => ?_
    simp only [Function.comp_apply]
    rw [Nat.succ_mul, Nat.add_comm, ← List.drop_drop, ← hc, List.drop_left]

@[simp] theorem chunksExact_nil (n : ℕ) : chunksExact n [] = [] := by simp [chunksExact]

/-- A nonempty string whose length is a multiple of `n` starts with a piece of length `n`. -/
theorem exists_chunk {n : ℕ} {bs : List UInt8} (hne : bs ≠ []) (h : bs.length % n = 0) :
    n ≤ bs.length ∧ (bs.drop n).length % n = 0 := by
  have hpos : 0 < bs.length := List.length_pos_iff.mpr hne
  have hle := Nat.le_of_dvd hpos (Nat.dvd_of_mod_eq_zero h)
  refine ⟨hle, ?_⟩
  rw [List.length_drop, ← Nat.mod_eq_sub_mod hle, h]

/-- The pieces make up the whole string when its length is a multiple of `n`. -/
theorem flatten_chunksExact {n : ℕ} (hn : 0 < n) {bs : List UInt8} (h : bs.length % n = 0) :
    (chunksExact n bs).flatten = bs := by
  induction hk : bs.length using Nat.strong_induction_on generalizing bs with
  | _ k ih =>
    by_cases hne : bs = []
    · simp [hne]
    · obtain ⟨hle, hmod⟩ := exists_chunk hne h
      have hsplit := List.take_append_drop n bs
      have hlen : (bs.take n).length = n := by rw [List.length_take]; omega
      rw [← hsplit, chunksExact_append hn hlen, List.flatten_cons,
        ih _ (by rw [List.length_drop]; omega) hmod rfl]

/-- The consecutive pieces of length `n`, the last of which may be shorter. -/
def chunks (n : ℕ) (bs : List UInt8) : List (List UInt8) :=
  (List.range ((bs.length + (n - 1)) / n)).map fun i => (bs.drop (i * n)).take n

@[simp] theorem length_chunks (n : ℕ) (bs : List UInt8) :
    (chunks n bs).length = (bs.length + (n - 1)) / n := by simp [chunks]

theorem getElem_chunks {n : ℕ} {bs : List UInt8} {i : ℕ} (h : i < (chunks n bs).length) :
    (chunks n bs).get ⟨i, h⟩ = (bs.drop (i * n)).take n := by
  simp [chunks]

end Word

import Mathlib.Tactic.Common
import Mathlib.Tactic.Ring
import Mathlib.Data.List.Induction

/-!
# Byte strings as numbers

* `fromBE`: the number whose big-endian digits to base 256 are the given bytes;
* `toBE n v`: the last `n` big-endian digits of `v`;
* `fromBE_toBE`, `toBE_fromBE`: the two are inverse on numbers below `256 ^ n` and on strings of
  length `n`;
* `fromLE`, `toLE`: the same with the digits in little-endian order;
* `padding n`: how many bytes are missing from `n` to the next multiple of four.
-/

set_option autoImplicit false

namespace Endian

/-- The number with these big-endian digits. -/
def fromBE (bs : List UInt8) : ℕ := bs.foldl (fun v b => v * 256 + b.toNat) 0

/-- The last `n` big-endian digits of `v`. -/
def toBE : ℕ → ℕ → List UInt8
  | 0, _ => []
  | n + 1, v => toBE n (v / 256) ++ [UInt8.ofNat (v % 256)]

@[simp] theorem fromBE_nil : fromBE [] = 0 := rfl

theorem fromBE_concat (bs : List UInt8) (b : UInt8) : fromBE (bs ++ [b]) = fromBE bs * 256 + b.toNat := by
  simp [fromBE, List.foldl_append]

theorem fromBE_append (as bs : List UInt8) :
    fromBE (as ++ bs) = fromBE as * 256 ^ bs.length + fromBE bs := by
  induction bs using List.reverseRecOn with
  | nil => simp
  | append_singleton bs b ih =>
    rw [← List.append_assoc, fromBE_concat, fromBE_concat, ih, List.length_append,
      List.length_singleton, pow_succ]
    ring

theorem fromBE_lt (bs : List UInt8) : fromBE bs < 256 ^ bs.length := by
  induction bs using List.reverseRecOn with
  | nil => simp
  | append_singleton bs b ih =>
    have := b.toNat_lt
    rw [fromBE_concat, List.length_append, List.length_singleton, pow_succ]
    omega

@[simp] theorem length_toBE (n v : ℕ) : (toBE n v).length = n := by
  induction n generalizing v with
  | zero => rfl
  | succ n ih => simp [toBE, ih]

theorem fromBE_toBE {n v : ℕ} (h : v < 256 ^ n) : fromBE (toBE n v) = v := by
  induction n generalizing v with
  | zero => simp at h; simp [toBE, h]
  | succ n ih =>
    have hd : v / 256 < 256 ^ n := by rw [pow_succ] at h; omega
    have hm : (UInt8.ofNat (v % 256)).toNat = v % 256 :=
      UInt8.toNat_ofNat_of_lt' (Nat.mod_lt _ (by decide))
    rw [toBE, fromBE_concat, ih hd, hm]
    omega

theorem toBE_fromBE (bs : List UInt8) : toBE bs.length (fromBE bs) = bs := by
  induction bs using List.reverseRecOn with
  | nil => rfl
  | append_singleton bs b ih =>
    have hb : b.toNat < 256 := b.toNat_lt
    rw [List.length_append, List.length_singleton, toBE, fromBE_concat,
      show (fromBE bs * 256 + b.toNat) / 256 = fromBE bs by omega,
      show (fromBE bs * 256 + b.toNat) % 256 = b.toNat by omega, ih, UInt8.ofNat_toNat]

/-- The number with these little-endian digits. -/
def fromLE (bs : List UInt8) : ℕ := fromBE bs.reverse

/-- The first `n` little-endian digits of `v`. -/
def toLE (n v : ℕ) : List UInt8 := (toBE n v).reverse

@[simp] theorem length_toLE (n v : ℕ) : (toLE n v).length = n := by simp [toLE]

theorem fromLE_toLE {n v : ℕ} (h : v < 256 ^ n) : fromLE (toLE n v) = v := by
  rw [fromLE, toLE, List.reverse_reverse, fromBE_toBE h]

theorem toLE_fromLE (bs : List UInt8) : toLE bs.length (fromLE bs) = bs := by
  have h := toBE_fromBE bs.reverse
  rw [List.length_reverse] at h
  rw [toLE, fromLE, h, List.reverse_reverse]

/-- The number of bytes from offset `n` to the next multiple of four. -/
def padding (n : ℕ) : ℕ := (4 - n % 4) % 4

theorem add_padding_mod (n : ℕ) : (n + padding n) % 4 = 0 := by unfold padding; omega

theorem padding_add_of_dvd {m : ℕ} (hm : m % 4 = 0) (n : ℕ) : padding (m + n) = padding n := by
  unfold padding; omega

end Endian

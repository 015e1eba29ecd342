import BareboneKernel.Fdt.Reader
import Mathlib.Data.List.TakeWhile

/-!
# Node names and property names

* `component`, `unitAddress`: the parts of a full node name before and after its first `@`;
* `validateNodeName` (`name::validate`) and **`validateNodeName_eq_ok_iff`**: it accepts exactly
  the names of `ValidNodeName`;
* `Strings.validatePropertyName` and **`returns_validatePropertyName`**: it resolves an offset to
  exactly the names of `Strings.Resolves`.
-/

set_option autoImplicit false

namespace Barebone.Devicetree

open Exec Endian

/-! ## Characters -/

/-- `u8::is_ascii_alphabetic` -/
def isAsciiAlphabetic (b : UInt8) : Bool := (65 ≤ b && b ≤ 90) || (97 ≤ b && b ≤ 122)

/-- `u8::is_ascii_alphanumeric` -/
def isAsciiAlphanumeric (b : UInt8) : Bool := isAsciiAlphabetic b || (48 ≤ b && b ≤ 57)

/-- The characters `,` `.` `_` `+` `-` besides letters and digits. -/
def isValidCharacter (b : UInt8) : Bool :=
  isAsciiAlphanumeric b || b == 44 || b == 46 || b == 95 || b == 43 || b == 45

/-- The characters of a property name: those of a node name, `?` and `#`. -/
def isPropertyCharacter (b : UInt8) : Bool :=
  isAsciiAlphanumeric b ||
    (b == 44 || b == 46 || b == 95 || b == 43 || b == 63 || b == 35 || b == 45)

/-- The first position of a byte that fails `ok`, with the byte. -/
def firstInvalid (ok : UInt8 → Bool) (bs : List UInt8) : Option (UInt8 × ℕ) :=
  bs.zipIdx.find? fun p => !ok p.1

theorem firstInvalid_eq_none {ok : UInt8 → Bool} {bs : List UInt8} :
    firstInvalid ok bs = none ↔ ∀ b ∈ bs, ok b = true := by
  simp only [firstInvalid, List.find?_eq_none, Bool.not_eq_true', Bool.not_eq_false]
  constructor
  · intro h b hb
    obtain ⟨i, hi, rfl⟩ := List.mem_iff_getElem.mp hb
    exact h (bs[i], i) (List.mk_mem_zipIdx_iff_getElem?.mpr (by simp))
  · rintro h ⟨b, i⟩ hp
    exact h b (List.mem_of_getElem? (List.mk_mem_zipIdx_iff_getElem?.mp hp))

/-! ## Node names -/

/-- Errors produced while validating a node name. -/
inductive NodeNameError where
  | invalidLength (length : ℕ)
  | invalidFirstCharacter (byte : UInt8)
  | invalidCharacter (index : ℕ) (byte : UInt8)
  | emptyUnitAddress
  | invalidUnitAddressCharacter (index : ℕ) (byte : UInt8)
  deriving DecidableEq

/-- The node-name component of a full node name. -/
def component (name : List UInt8) : List UInt8 := name.takeWhile (· != 64)

/-- The unit-address component of a full node name. -/
def unitAddress (name : List UInt8) : Option (List UInt8) :=
  match name.dropWhile (· != 64) with
  | [] => none
  | _ :: unit => some unit

/-- Validates a non-root node name. -/
def validateNodeName (name : List UInt8) : Except NodeNameError Unit :=
  let nodeName := component name
  match nodeName.head? with
  | none => .error (.invalidLength 0)
  | some firstByte =>
    if nodeName.length > 31 then .error (.invalidLength nodeName.length)
    else if !isAsciiAlphabetic firstByte then .error (.invalidFirstCharacter firstByte)
    else match firstInvalid isValidCharacter nodeName with
      | some (byte, index) => .error (.invalidCharacter index byte)
      | none =>
        match unitAddress name with
        | none => .ok ()
        | some unit =>
          if unit.isEmpty then .error .emptyUnitAddress
          else match firstInvalid isValidCharacter unit with
            | some (byte, index) => .error (.invalidUnitAddressCharacter index byte)
            | none => .ok ()

/-- A letter followed by at most thirty characters of a node name. -/
def ValidComponent (base : List UInt8) : Prop :=
  ∃ c cs, base = c :: cs ∧ isAsciiAlphabetic c = true ∧ cs.length ≤ 30 ∧
    ∀ b ∈ cs, isValidCharacter b = true

/-- A component, optionally followed by `@` and a nonempty string of its characters. -/
def ValidNodeName (name : List UInt8) : Prop :=
  ValidComponent name ∨ ∃ base unit, name = base ++ 64 :: unit ∧ ValidComponent base ∧
    unit ≠ [] ∧ ∀ b ∈ unit, isValidCharacter b = true

theorem isValidCharacter_of_alphabetic {b : UInt8} (h : isAsciiAlphabetic b = true) :
    isValidCharacter b = true := by
  simp [isValidCharacter, isAsciiAlphanumeric, h]

theorem ne_at_of_isValidCharacter {b : UInt8} (h : isValidCharacter b = true) : b ≠ 64 := by
  rintro rfl
  exact absurd h (by decide)

theorem ValidComponent.characters {base : List UInt8} (h : ValidComponent base) :
    ∀ b ∈ base, isValidCharacter b = true := by
  obtain ⟨c, cs, rfl, hc, -, hcs⟩ := h
  intro b hb
  rcases List.mem_cons.mp hb with rfl | hb
  · exact isValidCharacter_of_alphabetic hc
  · exact hcs b hb

theorem component_append_at {base : List UInt8} (h : ∀ b ∈ base, b ≠ 64) (unit : List UInt8) :
    component (base ++ 64 :: unit) = base ∧ unitAddress (base ++ 64 :: unit) = some unit := by
  have hp : ∀ b ∈ base, (b != 64) = true := fun b hb => by simpa using h b hb
  constructor
  · rw [component, List.takeWhile_append_of_pos hp]
    simp
  · rw [unitAddress, List.dropWhile_append_of_pos hp]
    simp

theorem component_of_no_at {base : List UInt8} (h : ∀ b ∈ base, b ≠ 64) :
    component base = base ∧ unitAddress base = none := by
  have hp : ∀ b ∈ base, (b != 64) = true := fun b hb => by simpa using h b hb
  constructor
  · exact List.takeWhile_eq_self_iff.mpr hp
  · rw [unitAddress, List.dropWhile_eq_nil_iff.mpr hp]

/-- A full name is its component, or its component, `@` and its unit address. -/
theorem component_unitAddress (name : List UInt8) :
    (unitAddress name = none ∧ name = component name) ∨
      ∃ unit, unitAddress name = some unit ∧ name = component name ++ 64 :: unit := by
  have h := List.takeWhile_append_dropWhile (p := (· != (64 : UInt8))) (l := name)
  unfold unitAddress component
  cases hd : name.dropWhile (· != 64) with
  | nil => exact .inl ⟨rfl, by rw [hd, List.append_nil] at h; exact h.symm⟩
  | cons b unit =>
    have hb : b = 64 := by
      have := List.head_dropWhile_not (· != (64 : UInt8)) (l := name) (by rw [hd]; simp)
      simpa [hd] using this
    subst hb
    exact .inr ⟨unit, rfl, by rw [hd] at h; exact h.symm⟩

theorem validComponent_iff {base : List UInt8} : ValidComponent base ↔
    ∃ c, base.head? = some c ∧ base.length ≤ 31 ∧ isAsciiAlphabetic c = true ∧
      firstInvalid isValidCharacter base = none := by
  constructor
  · intro h
    have hall := h.characters
    obtain ⟨c, cs, rfl, hc, hl, -⟩ := h
    exact ⟨c, rfl, by rw [List.length_cons]; omega, hc, firstInvalid_eq_none.mpr hall⟩
  · rintro ⟨c, hc, hl, ha, hv⟩
    obtain ⟨cs, rfl⟩ := List.head?_eq_some_iff.mp hc
    rw [List.length_cons] at hl
    exact ⟨c, cs, rfl, ha, by omega,
      fun b hb => firstInvalid_eq_none.mp hv b (List.mem_cons_of_mem _ hb)⟩

/-- `validateNodeName` in terms of the two parts of the name. -/
theorem validateNodeName_eq_ok {name : List UInt8} : validateNodeName name = .ok () ↔
    ValidComponent (component name) ∧ ∀ unit, unitAddress name = some unit →
      unit ≠ [] ∧ ∀ b ∈ unit, isValidCharacter b = true := by
  rw [validComponent_iff]
  simp only [validateNodeName]
  cases hc : (component name).head? with
  | none => simp
  | some c =>
    by_cases hl : (component name).length > 31
    · simp [hl]
    have hl' : (component name).length ≤ 31 := by omega
    by_cases ha : isAsciiAlphabetic c = true
    swap
    · simp [hl, ha]
    cases hv : firstInvalid isValidCharacter (component name) with
    | some p => simp [hl, ha]
    | none =>
      cases hu : unitAddress name with
      | none => simp [hl, ha, hl']
      | some unit =>
        by_cases he : unit = []
        · simp [hl, ha, he]
        · cases hw : firstInvalid isValidCharacter unit with
          | some p =>
            have : ¬ ∀ b ∈ unit, isValidCharacter b = true := fun h => by
              rw [firstInvalid_eq_none.mpr h] at hw
              cases hw
            simp [hl, ha, he, hw, this]
          | none => simpa [hl, ha, he, hw, hl'] using firstInvalid_eq_none.mp hw

/-- **Node names.** The validator accepts exactly the valid node names. -/
theorem validateNodeName_eq_ok_iff {name : List UInt8} :
    validateNodeName name = .ok () ↔ ValidNodeName name := by
  rw [validateNodeName_eq_ok]
  constructor
  · rintro ⟨hc, hu⟩
    rcases component_unitAddress name with ⟨-, he⟩ | ⟨unit, hs, he⟩
    · exact .inl (he ▸ hc)
    · exact .inr ⟨component name, unit, he, hc, hu unit hs⟩
  · rintro (h | ⟨base, unit, rfl, h, hu⟩)
    · obtain ⟨h₁, h₂⟩ := component_of_no_at fun b hb => ne_at_of_isValidCharacter (h.characters b hb)
      rw [h₁, h₂]
      exact ⟨h, nofun⟩
    · obtain ⟨h₁, h₂⟩ :=
        component_append_at (fun b hb => ne_at_of_isValidCharacter (h.characters b hb)) unit
      rw [h₁, h₂]
      refine ⟨h, fun u hu' => ?_⟩
      cases hu'
      exact hu

/-! ## Property names -/

/-- Errors produced while validating a property name in the strings block. -/
inductive PropertyNameError where
  | offsetOutOfBounds (offset stringsSize : ℕ)
  | unterminated (offset : ℕ)
  | invalidLength (offset length : ℕ)
  | invalidCharacter (offset index : ℕ) (byte : UInt8)
  deriving DecidableEq

/-- A bounded view of a strings block. -/
structure Strings where
  bytes : List UInt8
  deriving DecidableEq

namespace Strings

variable {σ : Type}

/-- Validates the property name referenced by `rawOffset` and returns it. -/
def validatePropertyName (strings : Strings) (rawOffset : ℕ) :
    Exec σ PropertyNameError (List UInt8) :=
  if (strings.bytes.drop rawOffset).isEmpty then
    fail (.offsetOutOfBounds rawOffset strings.bytes.length)
  else do
    let name ← onLocal (Reader.new (strings.bytes.drop rawOffset))
      (mapError (fun _ => .unterminated rawOffset) Reader.readNulTerminated)
    if ¬(1 ≤ name.length ∧ name.length ≤ 31) then fail (.invalidLength rawOffset name.length)
    else match firstInvalid isPropertyCharacter name with
      | some (byte, index) => fail (.invalidCharacter rawOffset index byte)
      | none => pure name

/-- The offset lies in the block and `name`, of 1 to 31 characters, stands there before a NUL. -/
def Resolves (strings : Strings) (offset : ℕ) (name : List UInt8) : Prop :=
  offset < strings.bytes.length ∧ (∃ rest, strings.bytes.drop offset = name ++ 0 :: rest) ∧
    1 ≤ name.length ∧ name.length ≤ 31 ∧ ∀ b ∈ name, isPropertyCharacter b = true

theorem ne_nul_of_isPropertyCharacter {b : UInt8} (h : isPropertyCharacter b = true) : b ≠ 0 := by
  rintro rfl
  exact absurd h (by decide)

/-- **Property names.** Validation resolves an offset to exactly the names of `Resolves`. -/
theorem returns_validatePropertyName {strings : Strings} {offset : ℕ} {name : List UInt8}
    {s s' : σ} : Returns (strings.validatePropertyName offset) s name s' ↔
      strings.Resolves offset name ∧ s' = s := by
  unfold validatePropertyName Resolves
  by_cases he : (strings.bytes.drop offset).isEmpty = true
  · rw [if_pos he, returns_fail]
    have : strings.bytes.length ≤ offset := by simpa using he
    constructor
    · exact False.elim
    · rintro ⟨⟨h, -⟩, -⟩; omega
  · rw [if_neg he, returns_bind]
    have hlt : offset < strings.bytes.length := by simpa using he
    simp only [returns_onLocal, returns_mapError, Reader.returns_readNulTerminated]
    constructor
    · rintro ⟨n, s₁, ⟨rfl, r', hz, hc⟩, h⟩
      split at h
      · simp at h
      · split at h
        · simp at h
        · obtain ⟨rfl, rfl⟩ := returns_pure.mp h
          have hr := hc.rest
          rw [Reader.remainingBytes_new, List.append_assoc] at hr
          rename_i hl hv
          have hl' : 1 ≤ name.length ∧ name.length ≤ 31 := not_not.mp hl
          exact ⟨⟨hlt, ⟨_, hr⟩, hl'.1, hl'.2, firstInvalid_eq_none.mp hv⟩, rfl⟩
    · rintro ⟨⟨-, ⟨rest, hr⟩, h₁, h₂, hv⟩, rfl⟩
      obtain ⟨r', hc, -⟩ := Reader.exists_consumes (r := Reader.new (strings.bytes.drop offset))
        (show _ = (name ++ [0]) ++ rest by simpa using hr)
      refine ⟨name, s', ⟨rfl, r', fun h0 => ne_nul_of_isPropertyCharacter (hv 0 h0) rfl, hc⟩, ?_⟩
      rw [if_neg (not_not.mpr ⟨h₁, h₂⟩), firstInvalid_eq_none.mpr hv]
      exact returns_pure.mpr ⟨rfl, rfl⟩

theorem safe_validatePropertyName (strings : Strings) (offset : ℕ) (s : σ) :
    Safe (strings.validatePropertyName offset) s := by
  unfold validatePropertyName
  split
  · exact safe_fail
  · refine safe_bind (safe_onLocal (safe_mapError (Reader.safe_readNulTerminated _))) fun _ _ _ => ?_
    split
    · exact safe_fail
    · split
      · exact safe_fail
      · exact safe_pure

theorem Resolves.unique {strings : Strings} {offset : ℕ} {n n' : List UInt8}
    (h : strings.Resolves offset n) (h' : strings.Resolves offset n') : n = n' := by
  have h₁ := (returns_validatePropertyName (σ := Unit)).mpr ⟨h, (rfl : () = ())⟩
  have h₂ := (returns_validatePropertyName (σ := Unit)).mpr ⟨h', (rfl : () = ())⟩
  exact (h₁.unique h₂).1

end Strings

end Barebone.Devicetree

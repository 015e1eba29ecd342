import BareboneKernel.Lib.Exec
import BareboneKernel.Lib.Endian

/-!
# The bounded reader

`Reader` is a cursor into an immutable byte slice. Its operations are programs over the reader: a
successful read advances the cursor by the bytes it consumed, a failed one leaves it alone.

* `Reader.Consumes r bs r'`: `r'` is `r` after the bytes `bs`;
* `returns_readBytes`, `returns_readU32`, `returns_readNulTerminated`, `returns_alignTo4`: what a
  successful read says about the bytes at the cursor, and conversely;
* `safe_readBytes` and its companions: no read is ever aborted.
-/

set_option autoImplicit false

namespace Barebone.Devicetree

open Exec Endian

/-- Errors produced while reading from a bounded byte slice. -/
inductive ReadError where
  | truncated (offset requested remaining : ℕ)
  | missingNulTerminator (offset : ℕ)
  deriving DecidableEq

/-- A sequential reader over a byte slice. -/
@[ext] structure Reader where
  bytes : List UInt8
  offset : ℕ
  offset_le : offset ≤ bytes.length

namespace Reader

/-- A reader at the beginning of `bytes`. -/
def new (bytes : List UInt8) : Reader := ⟨bytes, 0, Nat.zero_le _⟩

/-- The current byte offset. -/
def position (r : Reader) : ℕ := r.offset

/-- The number of unread bytes. -/
def remaining (r : Reader) : ℕ := r.bytes.length - r.offset

/-- The unread bytes. -/
def remainingBytes (r : Reader) : List UInt8 := r.bytes.drop r.offset

/-- Reads `length` bytes. An end past `usize::MAX` and an end past the slice are the same error, so
one bound covers both. -/
def readBytes (length : ℕ) : Exec Reader ReadError (List UInt8) := fun r =>
  if h : length ≤ r.bytes.length - r.offset then
    .ok (.ok (r.remainingBytes.take length),
      ⟨r.bytes, r.offset + length, by have := r.offset_le; omega⟩)
  else .ok (.error (.truncated r.offset length r.remaining), r)

/-- Reads a `u8`. -/
def readU8 : Exec Reader ReadError UInt8 := do
  match ← readBytes 1 with
  | b :: _ => pure b
  | [] => abort (.panicked "index out of bounds")

/-- Reads a big-endian `u32`. -/
def readU32 : Exec Reader ReadError ℕ := do
  let bytes ← readBytes 4
  require (bytes.length = 4) "slice length is known to be 4"
  pure (fromBE bytes)

/-- Reads a big-endian `u64`. -/
def readU64 : Exec Reader ReadError ℕ := do
  let bytes ← readBytes 8
  require (bytes.length = 8) "slice length is known to be 8"
  pure (fromBE bytes)

/-- Advances the cursor to the next 4-byte boundary. -/
def alignTo4 : Exec Reader ReadError (List UInt8) := do
  let r ← get
  readBytes (padding r.offset)

/-- Reads bytes up to and excluding the next NUL, which is consumed. -/
def readNulTerminated : Exec Reader ReadError (List UInt8) := do
  let r ← get
  match r.remainingBytes.findIdx? (· == 0) with
  | none => fail (.missingNulTerminator r.offset)
  | some length =>
    let bytes ← readBytes (length + 1)
    require (length ≤ bytes.length) "range end index out of range"
    pure (bytes.take length)

/-! ## Consumed bytes -/

/-- `r'` is `r` advanced over the bytes `bs`. -/
structure Consumes (r : Reader) (bs : List UInt8) (r' : Reader) : Prop where
  bytes : r'.bytes = r.bytes
  offset : r'.offset = r.offset + bs.length
  rest : r.remainingBytes = bs ++ r'.remainingBytes

theorem length_remainingBytes (r : Reader) : r.remainingBytes.length = r.bytes.length - r.offset := by
  simp [remainingBytes]

@[simp] theorem remainingBytes_new (bytes : List UInt8) : (new bytes).remainingBytes = bytes := rfl

theorem Consumes.refl (r : Reader) : r.Consumes [] r := ⟨rfl, rfl, rfl⟩

theorem Consumes.trans {r r₁ r₂ : Reader} {as bs : List UInt8} (h₁ : r.Consumes as r₁)
    (h₂ : r₁.Consumes bs r₂) : r.Consumes (as ++ bs) r₂ where
  bytes := h₂.bytes.trans h₁.bytes
  offset := by rw [h₂.offset, h₁.offset, List.length_append]; omega
  rest := by rw [h₁.rest, h₂.rest, List.append_assoc]

theorem Consumes.unique {r r₁ r₂ : Reader} {bs : List UInt8} (h₁ : r.Consumes bs r₁)
    (h₂ : r.Consumes bs r₂) : r₁ = r₂ :=
  Reader.ext (h₁.bytes.trans h₂.bytes.symm) (h₁.offset.trans h₂.offset.symm)

/-- A prefix of the unread bytes can be consumed. -/
theorem exists_consumes {r : Reader} {bs rest : List UInt8} (h : r.remainingBytes = bs ++ rest) :
    ∃ r', r.Consumes bs r' ∧ r'.remainingBytes = rest := by
  have hl := congrArg List.length h
  have hle := r.offset_le
  rw [length_remainingBytes, List.length_append] at hl
  have hr : r.bytes.drop (r.offset + bs.length) = rest := by
    rw [← List.drop_drop]
    exact (congrArg (List.drop bs.length) h).trans List.drop_left
  exact ⟨⟨r.bytes, r.offset + bs.length, by omega⟩, ⟨rfl, rfl, h.trans (congrArg _ hr.symm)⟩, hr⟩

theorem consumes_append {r r₂ : Reader} {a b : List UInt8} :
    r.Consumes (a ++ b) r₂ ↔ ∃ r₁, r.Consumes a r₁ ∧ r₁.Consumes b r₂ := by
  constructor
  · intro h
    obtain ⟨r₁, h₁, hr⟩ := exists_consumes (h.rest.trans (List.append_assoc _ _ _))
    refine ⟨r₁, h₁, h.bytes.trans h₁.bytes.symm, ?_, hr⟩
    rw [h.offset, h₁.offset, List.length_append]
    omega
  · rintro ⟨r₁, h₁, h₂⟩
    exact h₁.trans h₂

/-! ## What the reads return -/

theorem returns_readBytes {n : ℕ} {r r' : Reader} {bs : List UInt8} :
    Returns (readBytes n) r bs r' ↔ bs.length = n ∧ r.Consumes bs r' := by
  have hle := r.offset_le
  constructor
  · intro h
    unfold Returns readBytes at h
    split at h
    case isFalse => simp at h
    case isTrue hn =>
      simp only [Except.ok.injEq, Prod.mk.injEq] at h
      obtain ⟨rfl, rfl⟩ := h
      have hl : (r.remainingBytes.take n).length = n := by
        rw [List.length_take, length_remainingBytes]; omega
      refine ⟨hl, rfl, by rw [hl], ?_⟩
      simp [remainingBytes, ← List.drop_drop]
  · rintro ⟨rfl, h⟩
    have hl := congrArg List.length h.rest
    rw [length_remainingBytes, List.length_append] at hl
    unfold Returns readBytes
    rw [dif_pos (by omega), h.rest, List.take_left' rfl]
    congr 2
    exact Reader.ext h.bytes.symm h.offset.symm

theorem returns_readU8 {r r' : Reader} {b : UInt8} :
    Returns readU8 r b r' ↔ r.Consumes [b] r' := by
  unfold readU8
  rw [returns_bind]
  constructor
  · rintro ⟨bs, r₁, h, h'⟩
    obtain ⟨hl, hc⟩ := returns_readBytes.mp h
    obtain ⟨a, rfl⟩ := List.length_eq_one_iff.mp hl
    obtain ⟨rfl, rfl⟩ := returns_pure.mp h'
    exact hc
  · intro h
    exact ⟨[b], r', returns_readBytes.mpr ⟨rfl, h⟩, returns_pure.mpr ⟨rfl, rfl⟩⟩

theorem returns_readU32 {r r' : Reader} {v : ℕ} :
    Returns readU32 r v r' ↔ v < 2 ^ 32 ∧ r.Consumes (toBE 4 v) r' := by
  simp only [readU32, returns_bind, returns_require, returns_pure, returns_readBytes]
  constructor
  · rintro ⟨bs, r₁, ⟨hl, hc⟩, -, _, ⟨-, rfl⟩, rfl, rfl⟩
    have hv := fromBE_lt bs
    have he := toBE_fromBE bs
    rw [hl] at hv he
    rw [he]
    exact ⟨hv, hc⟩
  · rintro ⟨hv, hc⟩
    exact ⟨_, r', ⟨length_toBE 4 v, hc⟩, (), r', ⟨length_toBE 4 v, rfl⟩, (fromBE_toBE hv).symm, rfl⟩

theorem returns_alignTo4 {r r' : Reader} {pad : List UInt8} :
    Returns alignTo4 r pad r' ↔ pad.length = padding r.offset ∧ r.Consumes pad r' := by
  simp only [alignTo4, returns_bind, returns_get, returns_readBytes]
  constructor
  · rintro ⟨_, _, ⟨rfl, rfl⟩, h⟩
    exact h
  · intro h
    exact ⟨r, r, ⟨rfl, rfl⟩, h⟩

theorem findIdx?_nul {name rest : List UInt8} (h : 0 ∉ name) :
    (name ++ 0 :: rest).findIdx? (· == 0) = some name.length := by
  induction name with
  | nil => rfl
  | cons b name ih =>
    rw [List.mem_cons, not_or] at h
    rw [List.cons_append, List.findIdx?_cons, if_neg (by simpa using Ne.symm h.1), ih h.2]
    rfl

theorem eq_of_findIdx?_nul {bs : List UInt8} {n : ℕ} (h : bs.findIdx? (· == 0) = some n) :
    0 ∉ bs.take n ∧ ∃ rest, bs = bs.take n ++ 0 :: rest := by
  obtain ⟨hn, h0, hlt⟩ := List.findIdx?_eq_some_iff_getElem.mp h
  refine ⟨fun hm => ?_, bs.drop (n + 1), ?_⟩
  · obtain ⟨i, hi, he⟩ := List.mem_iff_getElem.mp hm
    rw [List.getElem_take] at he
    rw [List.length_take] at hi
    exact hlt i (by omega) (by simp [he])
  · have h0' : bs[n] = 0 := by simpa using h0
    rw [← h0', List.getElem_cons_drop, List.take_append_drop]

theorem returns_readNulTerminated {r r' : Reader} {name : List UInt8} :
    Returns readNulTerminated r name r' ↔ 0 ∉ name ∧ r.Consumes (name ++ [0]) r' := by
  simp only [readNulTerminated, returns_bind, returns_get]
  constructor
  · rintro ⟨r₀, r₀', ⟨h₀, h₀'⟩, h⟩
    rw [h₀, h₀'] at h
    split at h
    case h_1 => simp at h
    case h_2 n hn =>
      obtain ⟨hz, rest, he⟩ := eq_of_findIdx?_nul hn
      simp only [returns_bind, returns_require, returns_pure, returns_readBytes] at h
      obtain ⟨bs, r₁, ⟨hl, hc⟩, -, _, ⟨-, rfl⟩, rfl, rfl⟩ := h
      -- both the name and the consumed bytes are prefixes of the unread bytes
      have hlen := congrArg List.length he
      rw [List.length_append, List.length_cons, List.length_take] at hlen
      have hb : bs = r.remainingBytes.take n ++ [0] := by
        have h1 : r.remainingBytes.take (n + 1) = bs := by rw [hc.rest, ← hl, List.take_left]
        have h2 : (r.remainingBytes.take n).length = n := by rw [List.length_take]; omega
        rw [← h1]
        nth_rewrite 1 [he]
        rw [List.take_append, h2, List.take_of_length_le (by omega)]
        simp
      have hname : bs.take n = r.remainingBytes.take n := by
        rw [hb, List.take_append_of_le_length (by rw [List.length_take]; omega), List.take_take,
          Nat.min_self]
      rw [hname]
      exact ⟨hz, hb ▸ hc⟩
  · rintro ⟨hz, hc⟩
    refine ⟨r, r, ⟨rfl, rfl⟩, ?_⟩
    have hf : r.remainingBytes.findIdx? (· == 0) = some name.length := by
      rw [hc.rest, List.append_assoc]
      exact findIdx?_nul hz
    simp only [hf, returns_bind, returns_require, returns_pure, returns_readBytes]
    exact ⟨name ++ [0], r', ⟨by simp, hc⟩, (), r', ⟨by simp, rfl⟩, by simp, rfl⟩

/-! ## No read is aborted -/

theorem safe_readBytes (n : ℕ) (r : Reader) : Safe (readBytes n) r := by
  unfold Safe readBytes
  split <;> exact ⟨_, rfl⟩

theorem safe_readU8 (r : Reader) : Safe readU8 r := by
  refine safe_bind (safe_readBytes 1 r) fun bs r' h => ?_
  obtain ⟨a, rfl⟩ := List.length_eq_one_iff.mp (returns_readBytes.mp h).1
  exact safe_pure

theorem safe_readU32 (r : Reader) : Safe readU32 r :=
  safe_bind (safe_readBytes 4 r) fun _ _ h =>
    safe_bind (safe_require (returns_readBytes.mp h).1) fun _ _ _ => safe_pure

theorem safe_readU64 (r : Reader) : Safe readU64 r :=
  safe_bind (safe_readBytes 8 r) fun _ _ h =>
    safe_bind (safe_require (returns_readBytes.mp h).1) fun _ _ _ => safe_pure

theorem safe_alignTo4 (r : Reader) : Safe alignTo4 r :=
  safe_bind safe_get fun _ _ _ => safe_readBytes _ _

theorem safe_readNulTerminated (r : Reader) : Safe readNulTerminated r := by
  refine safe_bind safe_get fun r₀ r₁ _ => ?_
  split
  · exact safe_fail
  · refine safe_bind (safe_readBytes _ _) fun bs r₂ h => ?_
    have hl := (returns_readBytes.mp h).1
    exact safe_bind (safe_require (by omega)) fun _ _ _ => safe_pure

end Reader

end Barebone.Devicetree

import BareboneKernel.Lib.Exec
import BareboneKernel.Lib.Word

/-!
# The header

`Header::new` decodes the fixed 40-byte header and checks where it places the three blocks.

**`Header.placed_of_new`**: in an accepted header every block lies behind the header and inside the
declared total size, and the blocks do not overlap.
-/

set_option autoImplicit false

namespace Barebone.Devicetree

open Endian Word

/-- The size of the encoded header. -/
def headerSize : ℕ := 40

def fdtMagic : ℕ := 0xd00dfeed

def supportedVersion : ℕ := 17

def expectedLastCompatibleVersion : ℕ := 16

/-- The fields of the header. -/
inductive HeaderField where
  | magic
  | totalSize
  | structureOffset
  | stringsOffset
  | reservationOffset
  | version
  | lastCompatibleVersion
  | bootCpuIdPhys
  | stringsSize
  | structureSize

def HeaderField.offset : HeaderField → ℕ
  | magic => 0
  | totalSize => 4
  | structureOffset => 8
  | stringsOffset => 12
  | reservationOffset => 16
  | version => 20
  | lastCompatibleVersion => 24
  | bootCpuIdPhys => 28
  | stringsSize => 32
  | structureSize => 36

inductive BlockKind where
  | memoryReservation
  | structureBlock
  | stringsBlock
  deriving DecidableEq

inductive HeaderError where
  | invalidMagic (found : ℕ)
  | totalSizeTooSmall (totalSize minimum : ℕ)
  | unsupportedVersion (version lastCompatible : ℕ)
  | misalignedBlock (block : BlockKind) (offset requiredAlignment : ℕ)
  | blockOffsetInsideHeader (block : BlockKind) (offset headerSize : ℕ)
  | blockOffsetOutOfBounds (block : BlockKind) (offset totalSize : ℕ)
  | blockOutOfBounds (block : BlockKind) (offset size totalSize : ℕ)
  | blocksOverlap (first second : BlockKind)
  | blockOffsetInsideBlock (block containing : BlockKind) (offset : ℕ)
  deriving DecidableEq

/-- `Range<usize>` -/
structure Range where
  start : ℕ
  stop : ℕ
  deriving DecidableEq

/-- `Range::contains` -/
def Range.contains (r : Range) (x : ℕ) : Prop := r.start ≤ x ∧ x < r.stop

instance (r : Range) (x : ℕ) : Decidable (r.contains x) := inferInstanceAs (Decidable (_ ∧ _))

/-- The decoded header. -/
structure Header where
  totalSize : ℕ
  structureRange : Range
  stringsRange : Range
  offMemRsvmap : ℕ
  version : ℕ
  lastCompVersion : ℕ
  bootCpuidPhys : ℕ
  deriving DecidableEq

/-- The encoded header. -/
def HeaderBytes : Type := { bytes : List UInt8 // bytes.length = headerSize }

def readBeU32 (bytes : HeaderBytes) (field : HeaderField) : ℕ :=
  fromBE ((bytes.val.drop field.offset).take 4)

/-- Stop with an error unless the condition holds. -/
def ensure {ε : Type} (p : Prop) [Decidable p] (e : ε) : Except ε Unit :=
  if p then .ok () else .error e

def blockRange (block : BlockKind) (offset size totalSize : ℕ) : Except HeaderError Range :=
  match checkedAdd offset size with
  | none => .error (.blockOutOfBounds block offset size totalSize)
  | some stop =>
    if stop > totalSize then .error (.blockOutOfBounds block offset size totalSize)
    else .ok ⟨offset, stop⟩

def Header.new (bytes : HeaderBytes) : Except HeaderError Header := do
  let magic := readBeU32 bytes .magic
  ensure (magic = fdtMagic) (.invalidMagic magic)
  let totalSize := readBeU32 bytes .totalSize
  let offDtStruct := readBeU32 bytes .structureOffset
  let offDtStrings := readBeU32 bytes .stringsOffset
  let offMemRsvmap := readBeU32 bytes .reservationOffset
  let version := readBeU32 bytes .version
  let lastCompVersion := readBeU32 bytes .lastCompatibleVersion
  let bootCpuidPhys := readBeU32 bytes .bootCpuIdPhys
  let sizeDtStrings := readBeU32 bytes .stringsSize
  let sizeDtStruct := readBeU32 bytes .structureSize
  ensure (headerSize ≤ totalSize) (.totalSizeTooSmall totalSize headerSize)
  ensure (version = supportedVersion ∧ lastCompVersion = expectedLastCompatibleVersion)
    (.unsupportedVersion version lastCompVersion)
  ensure (offMemRsvmap % 8 = 0) (.misalignedBlock .memoryReservation offMemRsvmap 8)
  ensure (offDtStruct % 4 = 0) (.misalignedBlock .structureBlock offDtStruct 4)
  [(BlockKind.memoryReservation, offMemRsvmap), (.structureBlock, offDtStruct),
    (.stringsBlock, offDtStrings)].forM fun (block, offset) =>
    ensure (headerSize ≤ offset) (.blockOffsetInsideHeader block offset headerSize)
  ensure (offMemRsvmap ≤ totalSize)
    (.blockOffsetOutOfBounds .memoryReservation offMemRsvmap totalSize)
  let structureRange ← blockRange .structureBlock offDtStruct sizeDtStruct totalSize
  let stringsRange ← blockRange .stringsBlock offDtStrings sizeDtStrings totalSize
  ensure (¬(structureRange.start < stringsRange.stop ∧ stringsRange.start < structureRange.stop))
    (.blocksOverlap .structureBlock .stringsBlock)
  [(BlockKind.structureBlock, structureRange), (.stringsBlock, stringsRange)].forM
    fun (containing, range) => ensure (¬ range.contains offMemRsvmap)
      (.blockOffsetInsideBlock .memoryReservation containing offMemRsvmap)
  pure ⟨totalSize, structureRange, stringsRange, offMemRsvmap, version, lastCompVersion,
    bootCpuidPhys⟩

def Header.reservationOffset (header : Header) : ℕ := header.offMemRsvmap

/-! ## What an accepted header says -/

theorem ensure_bind_eq_ok {ε α : Type} {p : Prop} [Decidable p] {e : ε} {k : Except ε α} {a : α} :
    (ensure p e >>= fun _ => k) = .ok a ↔ p ∧ k = .ok a := by
  unfold ensure
  split <;> simp [*, bind, Except.bind]

theorem blockRange_eq_ok {block : BlockKind} {offset size totalSize : ℕ} {r : Range} :
    blockRange block offset size totalSize = .ok r ↔
      offset + size ≤ wordMax ∧ offset + size ≤ totalSize ∧ r = ⟨offset, offset + size⟩ := by
  unfold blockRange checkedAdd
  by_cases h : offset + size ≤ wordMax
  · simp only [h, if_true, true_and]
    split
    · simp; omega
    · simp only [Except.ok.injEq, eq_comm]
      exact ⟨fun h => ⟨by omega, h⟩, fun h => h.2⟩
  · simp [h]

/-- A range of bytes inside the blob, behind its header. -/
def Range.Inside (r : Range) (totalSize : ℕ) : Prop :=
  headerSize ≤ r.start ∧ r.start ≤ r.stop ∧ r.stop ≤ totalSize

/-- **Where an accepted header places the blocks.** -/
structure Header.Placed (bytes : HeaderBytes) (header : Header) : Prop where
  totalSize : header.totalSize = readBeU32 bytes .totalSize
  size : headerSize ≤ header.totalSize
  structureBlock : header.structureRange.Inside header.totalSize
  stringsBlock : header.stringsRange.Inside header.totalSize
  apart : ¬(header.structureRange.start < header.stringsRange.stop ∧
    header.stringsRange.start < header.structureRange.stop)
  reservation : headerSize ≤ header.reservationOffset ∧
    header.reservationOffset ≤ header.totalSize
  outsideStructure : ¬header.structureRange.contains header.reservationOffset
  outsideStrings : ¬header.stringsRange.contains header.reservationOffset

theorem Header.placed_of_new {bytes : HeaderBytes} {header : Header}
    (h : Header.new bytes = .ok header) : header.Placed bytes := by
  simp only [Header.new, ensure_bind_eq_ok, List.forM_eq_forM, List.forM_cons, List.forM_nil,
    bind_assoc, pure_bind] at h
  obtain ⟨-, hsize, -, -, -, hreservation, hstructure, hstrings, htotal, h⟩ := h
  obtain ⟨structureRange, hs, h⟩ := Except.bind_eq_ok_iff.mp h
  obtain ⟨stringsRange, ht, h⟩ := Except.bind_eq_ok_iff.mp h
  simp only [ensure_bind_eq_ok] at h
  obtain ⟨hapart, houtside, houtside', h⟩ := h
  obtain ⟨-, hstop, rfl⟩ := blockRange_eq_ok.mp hs
  obtain ⟨-, hstop', rfl⟩ := blockRange_eq_ok.mp ht
  cases h
  exact ⟨rfl, hsize, ⟨hstructure, Nat.le_add_right _ _, hstop⟩,
    ⟨hstrings, Nat.le_add_right _ _, hstop'⟩, hapart, ⟨hreservation, htotal⟩, houtside, houtside'⟩

end Barebone.Devicetree

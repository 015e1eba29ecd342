import BareboneKernel.Kernel.Image

/-!
# The format of user images

`Image::parse` computes with machine words and gives up where a sum leaves their range. The format
itself is a matter of natural numbers.

* `Image.header`, `Image.serialize`: the bytes of an image;
* `Image.Format`: which addresses and sizes an image may have;
* `Image.parse_serialize`, `Image.parse_eq_ok_iff`: reading what has been written, and conversely;
* **`image_parse_iff`**: the images that are accepted are exactly those of the format.
-/

set_option autoImplicit false

namespace Barebone.Kernel

open Word Endian

namespace Image

/-- The bytes of a header. -/
def header (base entry size : ℕ) : List UInt8 :=
  imageMagic ++ (toLE 8 base ++ (toLE 8 entry ++ toLE 8 size))

/-- The bytes of an image. -/
def serialize (base entry : ℕ) (payload : List UInt8) : List UInt8 :=
  header base entry payload.length ++ payload

/-- **The format**: the payload is not empty and starts at a page other than the first, execution
starts inside it at an even address, and its pages end at `limit` or below. -/
structure Format (limit base entry size : ℕ) : Prop where
  size_pos : 0 < size
  base_dvd : frameSize ∣ base
  base_ge : frameSize ≤ base
  entry_ge : base ≤ entry
  entry_lt : entry < base + size
  entry_even : 2 ∣ entry
  mapped_le : roundUp frameSize (base + size) ≤ limit

section Format

variable {limit base entry size : ℕ}

/-- All fields are words, as their sum is. -/
theorem Format.lt (h : Format limit base entry size) (hlimit : limit ≤ wordMax) :
    base + size + (frameSize - 1) ≤ wordMax ∧ entry < 2 ^ 64 := by
  obtain ⟨⟨-, hle⟩, -⟩ := isLeast_roundUp (k := frameSize) (by decide) (base + size)
  have hmapped := h.mapped_le.trans hlimit
  have hentry := h.entry_lt
  have hmax := wordMax_eq
  unfold roundUp frameSize at *
  omega

theorem length_header (base entry size : ℕ) : (header base entry size).length = headerSize := by
  simp only [header, List.length_append, length_toLE]
  decide

/-- Eight bytes behind others. -/
theorem field_append (pre rest : List UInt8) {value : ℕ} (hvalue : value < 2 ^ 64) :
    field (pre ++ (toLE 8 value ++ rest)) pre.length = value := by
  have hpow : (256 : ℕ) ^ 8 = 2 ^ 64 := by decide
  rw [field, List.drop_left, List.take_left' (length_toLE 8 value), fromLE_toLE (by rwa [hpow])]

theorem field_header (hbase : base < 2 ^ 64) (hentry : entry < 2 ^ 64) (hsize : size < 2 ^ 64) :
    field (header base entry size) 8 = base ∧ field (header base entry size) 16 = entry ∧
      field (header base entry size) 24 = size := by
  have hmagic : imageMagic.length = 8 := by decide
  have h₁ := field_append imageMagic (toLE 8 entry ++ toLE 8 size) hbase
  have h₂ := field_append (imageMagic ++ toLE 8 base) (toLE 8 size) hentry
  have h₃ := field_append (imageMagic ++ (toLE 8 base ++ toLE 8 entry)) [] hsize
  simp only [List.length_append, length_toLE, hmagic, List.append_assoc, List.append_nil] at h₁ h₂ h₃
  exact ⟨h₁, h₂, h₃⟩

/-- The header is made of its fields. -/
theorem header_field {bytes : List UInt8} (hlength : bytes.length = headerSize)
    (hmagic : bytes.take 8 = imageMagic) :
    bytes = header (field bytes 8) (field bytes 16) (field bytes 24) := by
  have hsize : headerSize = 32 := rfl
  have hfield : ∀ offset, offset + 8 ≤ bytes.length →
      toLE 8 (field bytes offset) = (bytes.drop offset).take 8 := by
    intro offset hoffset
    have hlen : ((bytes.drop offset).take 8).length = 8 := by
      rw [List.length_take, List.length_drop]
      omega
    have := toLE_fromLE ((bytes.drop offset).take 8)
    rwa [hlen] at this
  rw [header, hfield 8 (by omega), hfield 16 (by omega), hfield 24 (by omega), ← hmagic]
  have hlast : (bytes.drop 24).take 8 = bytes.drop 24 :=
    List.take_of_length_le (by rw [List.length_drop]; omega)
  have hsplit : ∀ offset, (bytes.drop offset).take 8 ++ bytes.drop (offset + 8) =
      bytes.drop offset := by
    intro offset
    rw [← List.drop_drop, List.take_append_drop]
  rw [hlast, hsplit 16, hsplit 8, List.take_append_drop]

/-- **What has been written is read back.** -/
theorem parse_serialize {base entry : VirtAddr} {payload : List UInt8} (hlimit : limit ≤ wordMax)
    (h : Format limit base.asUsize entry.asUsize payload.length) :
    parse (serialize base.asUsize entry.asUsize payload) limit = .ok ⟨base, entry, payload⟩ := by
  obtain ⟨hmax, hentry⟩ := h.lt hlimit
  have hwords := wordMax_eq
  have hlength := length_header base.asUsize entry.asUsize payload.length
  have hbase : base.asUsize < 2 ^ 64 := by omega
  have hsize : payload.length < 2 ^ 64 := by omega
  obtain ⟨h₁, h₂, h₃⟩ := field_header hbase hentry hsize
  have htake : (serialize base.asUsize entry.asUsize payload).take headerSize =
      header base.asUsize entry.asUsize payload.length := List.take_left' hlength
  have hdrop : (serialize base.asUsize entry.asUsize payload).drop headerSize = payload :=
    List.drop_left' hlength
  have hmagic : (header base.asUsize entry.asUsize payload.length).take 8 = imageMagic :=
    List.take_left' (by decide)
  have hnonempty : ¬(serialize base.asUsize entry.asUsize payload).isEmpty = true := by
    rw [serialize, header, List.isEmpty_iff]
    simp [imageMagic]
  have hlong : ¬(serialize base.asUsize entry.asUsize payload).length < headerSize := by
    rw [serialize, List.length_append, hlength]
    omega
  rw [← htake] at h₁ h₂ h₃ hmagic
  unfold parse
  rw [if_neg hnonempty, if_neg hlong]
  dsimp only
  rw [if_neg (not_not.mpr hmagic), checkedAdd_of_le (by rw [h₁, h₃]; omega)]
  dsimp only
  rw [checkedAdd_of_le (by rw [h₁, h₃]; exact hmax)]
  dsimp only
  rw [if_neg]
  · simp only [h₁, h₂, hdrop]
  · have hmapped := h.mapped_le
    simp only [h₁, h₂, h₃, hdrop, not_or, not_not]
    rw [and_complement_pageMask hmax]
    refine ⟨Nat.pos_iff_ne_zero.mp h.size_pos, trivial, Nat.not_lt.mpr h.base_ge, ?_,
      ⟨h.entry_ge, h.entry_lt⟩, ?_, Nat.not_lt.mpr hmapped⟩
    · exact Nat.mod_eq_zero_of_dvd h.base_dvd
    · exact Nat.mod_eq_zero_of_dvd h.entry_even

/-- **What is read has been written**, and is of the format. -/
theorem format_of_parse {bytes : List UInt8} {image : Image} (h : parse bytes limit = .ok image) :
    Format limit image.base.asUsize image.entry.asUsize image.bytes.length ∧
      bytes = serialize image.base.asUsize image.entry.asUsize image.bytes := by
  obtain ⟨hparsed, haccepted⟩ := parsed_of_parse h
  have hmapped := haccepted.mappedEnd_le
  have haligned := haccepted.aligned
  refine ⟨⟨haccepted.nonempty, Nat.dvd_of_mod_eq_zero haligned, haccepted.notNull,
    haccepted.entry_ge, haccepted.entry_lt, Nat.dvd_of_mod_eq_zero haccepted.entry_even, ?_⟩, ?_⟩
  · unfold mappedEnd roundUp frameSize at *
    omega
  · have hlength : (bytes.take headerSize).length = headerSize := by
      rw [List.length_take]
      exact Nat.min_eq_left hparsed.length
    rw [serialize, hparsed.base, hparsed.entry, hparsed.size, hparsed.payload,
      ← header_field hlength hparsed.magic, List.take_append_drop]

end Format

end Image

/-- **The images that are accepted are exactly those of the format**, whatever the words in their
headers: magic, base, entry, size and then as many bytes, within the bounds of natural arithmetic.
What has been accepted are the encoded base, entry and payload, and writing them gives the bytes back. -/
theorem image_parse_iff (limit : ℕ) (hlimit : limit ≤ wordMax) :
    (∀ bytes, (∃ image, Image.parse bytes limit = .ok image) ↔ ∃ base entry size payload,
      bytes = Image.header base entry size ++ payload ∧ payload.length = size ∧
        base < 2 ^ 64 ∧ entry < 2 ^ 64 ∧ size < 2 ^ 64 ∧ Image.Format limit base entry size) ∧
    (∀ bytes image, Image.parse bytes limit = .ok image →
      bytes = Image.serialize image.base.asUsize image.entry.asUsize image.bytes) ∧
    ∀ (base entry : VirtAddr) (payload : List UInt8),
      Image.parse (Image.serialize base.asUsize entry.asUsize payload) limit =
        .ok ⟨base, entry, payload⟩ ↔
      Image.Format limit base.asUsize entry.asUsize payload.length := by
  refine ⟨fun bytes => ⟨?_, ?_⟩, fun bytes image h => (Image.format_of_parse h).2,
    fun base entry payload => ⟨fun h => (Image.format_of_parse h).1, Image.parse_serialize hlimit⟩⟩
  · rintro ⟨image, h⟩
    obtain ⟨hformat, heq⟩ := Image.format_of_parse h
    obtain ⟨hmax, hentry⟩ := hformat.lt hlimit
    have hwords := wordMax_eq
    exact ⟨_, _, _, image.bytes, heq, rfl, by omega, hentry, by omega, hformat⟩
  · rintro ⟨base, entry, size, payload, rfl, rfl, hbase, hentry, -, hformat⟩
    have hwords := wordMax_eq
    have hbase' : base ≤ wordMax := by omega
    have hentry' : entry ≤ wordMax := by omega
    let image : Image := ⟨⟨base, hbase'⟩, ⟨entry, hentry'⟩, payload⟩
    have hread : Image.parse (Image.serialize image.base.asUsize image.entry.asUsize payload) limit =
        .ok image := Image.parse_serialize hlimit hformat
    exact ⟨image, hread⟩

/-- The limit of the kernel is a word. -/
theorem image_parse_iff_sample : imageLimit ≤ wordMax ∧
    Image.parse (Image.serialize 0x10000 0x10002 [0x01, 0xa0, 0x73, 0x00]) imageLimit =
      .ok sampleParsed := by
  have hlimit : imageLimit ≤ wordMax := by decide
  obtain ⟨-, -, hread⟩ := image_parse_iff imageLimit hlimit
  refine ⟨hlimit, (hread ⟨0x10000, by decide⟩ ⟨0x10002, by decide⟩ _).mpr ?_⟩
  refine ⟨by decide, by decide, by decide, by decide, by decide, by decide, by decide⟩

end Barebone.Kernel

import BareboneKernel.Fdt.Blob

/-!
# Well-formed blobs

`Fdt::from_ptr` accepts a byte string for its header, its two blocks, the rules of the tree and the
reservation block. Here all of this is one condition on the bytes, and a blob is also written.

* `HeaderFields`, **`headerNew_iff`**: accepted headers as the ten words they consist of;
* `WellFormed`, **`fdt_accepted_iff`**: what is accepted, and what comes of it;
* `encodeBlob`, **`fdt_round_trip`**: a tree and reservation entries that are written to a blob are
  read back from it.
-/

set_option autoImplicit false

namespace Barebone.Devicetree

open Endian Word

/-! ## The header as ten words -/

/-- The fields of a header that are not fixed. -/
structure HeaderFields where
  totalSize : ℕ
  offDtStruct : ℕ
  offDtStrings : ℕ
  offMemRsvmap : ℕ
  bootCpuidPhys : ℕ
  sizeDtStrings : ℕ
  sizeDtStruct : ℕ

namespace HeaderFields

/-- The ten words, in the order of the format. -/
def words (f : HeaderFields) : List ℕ :=
  [fdtMagic, f.totalSize, f.offDtStruct, f.offDtStrings, f.offMemRsvmap, supportedVersion,
    expectedLastCompatibleVersion, f.bootCpuidPhys, f.sizeDtStrings, f.sizeDtStruct]

def encode (f : HeaderFields) : List UInt8 := f.words.flatMap (toBE 4)

/-- The header that is decoded from the fields. -/
def header (f : HeaderFields) : Header :=
  ⟨f.totalSize, ⟨f.offDtStruct, f.offDtStruct + f.sizeDtStruct⟩,
    ⟨f.offDtStrings, f.offDtStrings + f.sizeDtStrings⟩, f.offMemRsvmap, supportedVersion,
    expectedLastCompatibleVersion, f.bootCpuidPhys⟩

/-- The fields are words, and place the blocks inside the blob and apart. -/
structure Ok (f : HeaderFields) : Prop where
  lt : ∀ w ∈ f.words, w < 2 ^ 32
  size : headerSize ≤ f.totalSize
  reservationAligned : f.offMemRsvmap % 8 = 0
  structureAligned : f.offDtStruct % 4 = 0
  reservation : headerSize ≤ f.offMemRsvmap ∧ f.offMemRsvmap ≤ f.totalSize
  structureBlock : headerSize ≤ f.offDtStruct ∧ f.offDtStruct + f.sizeDtStruct ≤ f.totalSize
  stringsBlock : headerSize ≤ f.offDtStrings ∧ f.offDtStrings + f.sizeDtStrings ≤ f.totalSize
  apart : ¬(f.offDtStruct < f.offDtStrings + f.sizeDtStrings ∧
    f.offDtStrings < f.offDtStruct + f.sizeDtStruct)
  outsideStructure : ¬f.header.structureRange.contains f.offMemRsvmap
  outsideStrings : ¬f.header.stringsRange.contains f.offMemRsvmap

end HeaderFields

/-- Bytes are the encoding of the words that are read from them. -/
theorem flatMap_words (bytes : List UInt8) {n : ℕ} (h : 4 * n ≤ bytes.length) :
    ((List.range n).flatMap fun i => toBE 4 (fromBE ((bytes.drop (4 * i)).take 4))) =
      bytes.take (4 * n) := by
  induction n with
  | zero => rfl
  | succ n ih =>
    have hlen : ((bytes.drop (4 * n)).take 4).length = 4 := by
      rw [List.length_take, List.length_drop]
      omega
    have hword := toBE_fromBE ((bytes.drop (4 * n)).take 4)
    rw [hlen] at hword
    rw [List.range_succ, List.flatMap_append, ih (by omega), List.flatMap_singleton, hword,
      Nat.mul_succ, List.take_add]

/-- A word that was encoded, by its number. -/
theorem drop_flatMap_words (ws : List ℕ) {i : ℕ} (hi : i < ws.length) :
    ((ws.flatMap (toBE 4)).drop (4 * i)).take 4 = toBE 4 (ws.get ⟨i, hi⟩) := by
  induction ws generalizing i with
  | nil => exact absurd hi (Nat.not_lt_zero i)
  | cons w ws ih =>
    have hlen : (toBE 4 w).length = 4 := length_toBE 4 w
    cases i with
    | zero =>
      rw [Nat.mul_zero, List.drop_zero, List.flatMap_cons]
      exact List.take_left' hlen
    | succ i =>
      have hdrop : ((w :: ws).flatMap (toBE 4)).drop (4 * (i + 1)) =
          (ws.flatMap (toBE 4)).drop (4 * i) := by
        rw [List.flatMap_cons, Nat.mul_succ, Nat.add_comm, ← List.drop_drop, List.drop_left' hlen]
      rw [hdrop]
      exact ih (Nat.lt_of_succ_lt_succ hi)

theorem HeaderFields.length_encode (f : HeaderFields) : f.encode.length = headerSize := by
  unfold HeaderFields.encode HeaderFields.words
  simp only [List.flatMap_cons, List.flatMap_nil, List.length_append, length_toBE, List.length_nil]
  rfl

section Header

variable {bytes : HeaderBytes} {header : Header}

/-- The fields that are read from the bytes of a header. -/
def HeaderFields.read (bytes : HeaderBytes) : HeaderFields :=
  ⟨readBeU32 bytes .totalSize, readBeU32 bytes .structureOffset, readBeU32 bytes .stringsOffset,
    readBeU32 bytes .reservationOffset, readBeU32 bytes .bootCpuIdPhys, readBeU32 bytes .stringsSize,
    readBeU32 bytes .structureSize⟩

theorem readBeU32_lt (bytes : HeaderBytes) (field : HeaderField) : readBeU32 bytes field < 2 ^ 32 := by
  have hlen : ((bytes.val.drop field.offset).take 4).length ≤ 4 := List.length_take_le _ _
  exact (fromBE_lt _).trans_le (Nat.pow_le_pow_right (by decide) hlen)

/-- A field of an encoded header is the word at its offset. -/
theorem readBeU32_encode {f : HeaderFields} (hlt : ∀ w ∈ f.words, w < 2 ^ 32)
    (hbytes : bytes.val = f.encode) (field : HeaderField) {i : ℕ} (hi : i < f.words.length)
    (hoffset : field.offset = 4 * i) : readBeU32 bytes field = f.words.get ⟨i, hi⟩ := by
  rw [readBeU32, hbytes, hoffset, HeaderFields.encode, drop_flatMap_words f.words hi]
  exact fromBE_toBE (hlt _ (List.get_mem _ _))

theorem encode_read (hmagic : readBeU32 bytes .magic = fdtMagic)
    (hversion : readBeU32 bytes .version = supportedVersion ∧
      readBeU32 bytes .lastCompatibleVersion = expectedLastCompatibleVersion) :
    (HeaderFields.read bytes).encode = bytes.val := by
  have hwords := flatMap_words bytes.val (n := 10) bytes.property.ge
  have htake : bytes.val.take (4 * 10) = bytes.val := List.take_of_length_le bytes.property.le
  rw [htake] at hwords
  rw [HeaderFields.encode, HeaderFields.words, ← hmagic, ← hversion.1, ← hversion.2]
  exact hwords

theorem blockRange_bind_eq_ok {α : Type} {block : BlockKind} {offset size totalSize : ℕ}
    {k : Range → Except HeaderError α} {a : α} :
    (blockRange block offset size totalSize >>= k) = .ok a ↔
      (offset + size ≤ wordMax ∧ offset + size ≤ totalSize) ∧ k ⟨offset, offset + size⟩ = .ok a := by
  rw [Except.bind_eq_ok_iff]
  constructor
  · rintro ⟨r, hr, h⟩
    obtain ⟨hword, hstop, rfl⟩ := blockRange_eq_ok.mp hr
    exact ⟨⟨hword, hstop⟩, h⟩
  · rintro ⟨⟨hword, hstop⟩, h⟩
    exact ⟨_, blockRange_eq_ok.mpr ⟨hword, hstop, rfl⟩, h⟩

/-- **Accepted headers** are the encodings of fields that place the blocks well. -/
theorem headerNew_iff : Header.new bytes = .ok header ↔
    ∃ f : HeaderFields, f.Ok ∧ bytes.val = f.encode ∧ header = f.header := by
  simp only [Header.new, ensure_bind_eq_ok, List.forM_eq_forM, List.forM_cons, List.forM_nil,
    bind_assoc, pure_bind, blockRange_bind_eq_ok]
  constructor
  · rintro ⟨hmagic, hsize, hversion, haligned, haligned', hreservation, hstructure, hstrings, htotal,
      ⟨-, hstop⟩, ⟨-, hstop'⟩, hapart, houtside, houtside', h⟩
    cases h
    refine ⟨.read bytes, ⟨?_, hsize, haligned, haligned', ⟨hreservation, htotal⟩, ⟨hstructure, hstop⟩,
      ⟨hstrings, hstop'⟩, hapart, houtside, houtside'⟩, (encode_read hmagic hversion).symm, ?_⟩
    · simp only [HeaderFields.words, HeaderFields.read, List.mem_cons, List.not_mem_nil, or_false]
      rintro w (rfl | rfl | rfl | rfl | rfl | rfl | rfl | rfl | rfl | rfl)
      all_goals first | exact readBeU32_lt _ _ | decide
    · rw [HeaderFields.header, ← hversion.1, ← hversion.2]
      rfl
  · rintro ⟨f, hok, hbytes, rfl⟩
    have hread := fun field i (hi : i < f.words.length) hoffset =>
      readBeU32_encode hok.lt hbytes field hi hoffset
    have hmax := wordMax_eq
    have htotal : f.totalSize < 2 ^ 32 := hok.lt _ (by simp [HeaderFields.words])
    have hstructure := hok.structureBlock
    have hstrings := hok.stringsBlock
    have hword : f.offDtStruct + f.sizeDtStruct ≤ wordMax := by omega
    have hword' : f.offDtStrings + f.sizeDtStrings ≤ wordMax := by omega
    rw [hread .magic 0 (by simp [HeaderFields.words]) rfl,
      hread .totalSize 1 (by simp [HeaderFields.words]) rfl,
      hread .structureOffset 2 (by simp [HeaderFields.words]) rfl,
      hread .stringsOffset 3 (by simp [HeaderFields.words]) rfl,
      hread .reservationOffset 4 (by simp [HeaderFields.words]) rfl,
      hread .version 5 (by simp [HeaderFields.words]) rfl,
      hread .lastCompatibleVersion 6 (by simp [HeaderFields.words]) rfl,
      hread .bootCpuIdPhys 7 (by simp [HeaderFields.words]) rfl,
      hread .stringsSize 8 (by simp [HeaderFields.words]) rfl,
      hread .structureSize 9 (by simp [HeaderFields.words]) rfl]
    exact ⟨rfl, hok.size, ⟨rfl, rfl⟩, hok.reservationAligned, hok.structureAligned, hok.reservation.1,
      hstructure.1, hstrings.1, hok.reservation.2, ⟨hword, hstructure.2⟩,
      ⟨hword', hstrings.2⟩, hok.apart, hok.outsideStructure, hok.outsideStrings, rfl⟩

end Header

/-! ## What is accepted -/

open Exec

variable {σ ε : Type}

/-- The bytes of a range. -/
def slice (memory : List UInt8) (range : Range) : List UInt8 :=
  (memory.take range.stop).drop range.start

/-- **A well-formed blob**: the bytes from `address` on hold a blob with the fields `f`, the tree `t`
and the reservation entries `es`. -/
structure WellFormed (address : ℕ) (memory : List UInt8) (f : HeaderFields) (t : Tree)
    (es : List MemoryReservation) : Prop where
  aligned : address ≠ 0 ∧ address % 8 = 0
  fits : f.totalSize ≤ memory.length ∧ address + f.totalSize ≤ wordMax
  fields : f.Ok
  header : memory.take headerSize = f.encode
  root : t.name = []
  names : t.Valid ⟨slice memory f.header.stringsRange⟩
  denotes : Denotes (slice memory f.header.structureRange) t
  semantics : t.SemanticsOk ⟨slice memory f.header.stringsRange⟩
  entries : ∃ rest, Reservations.Encodes (slice memory (reservationRange f.header)) es rest
  accepted : Reservations.Accepted es

/-- The devicetree of a well-formed blob. -/
def HeaderFields.fdt (f : HeaderFields) (memory : List UInt8) (es : List MemoryReservation) : Fdt :=
  ⟨f.header, ⟨slice memory f.header.structureRange⟩, ⟨slice memory f.header.stringsRange⟩,
    ⟨encodeEntries es ++ (toBE 8 0 ++ toBE 8 0)⟩⟩

theorem slice_take {memory : List UInt8} {n : ℕ} {range : Range} (h : range.stop ≤ n) :
    slice (memory.take n) range = slice memory range := by
  rw [slice, List.take_take, Nat.min_eq_left h, slice]

theorem returns_index {bytes bs : List UInt8} {range : Range} {s s' : σ} :
    Returns (index bytes range : Exec σ ε _) s bs s' ↔
      (range.start ≤ range.stop ∧ range.stop ≤ bytes.length) ∧ bs = slice bytes range ∧ s' = s := by
  simp only [index, returns_bind, returns_require, returns_pure]
  constructor
  · rintro ⟨_, _, ⟨h₁, rfl⟩, _, _, ⟨h₂, rfl⟩, rfl, rfl⟩
    exact ⟨⟨h₁, h₂⟩, rfl, rfl⟩
  · rintro ⟨⟨h₁, h₂⟩, rfl, rfl⟩
    exact ⟨(), _, ⟨h₁, rfl⟩, (), _, ⟨h₂, rfl⟩, rfl, rfl⟩

/-- A well-formed blob is accepted. -/
theorem WellFormed.returns {address : ℕ} {memory : List UInt8} {f : HeaderFields} {t : Tree}
    {es : List MemoryReservation} (h : WellFormed address memory f t es) (s : σ) :
    Returns (Fdt.fromPtr address memory) s (f.fdt memory es) s := by
  obtain ⟨⟨hnull, haligned⟩, ⟨hfits, hword⟩, hok, hheader, hroot, hnames, hdenotes, hsemantics,
    ⟨rest, hencodes⟩, haccepted⟩ := h
  have hlen : headerSize ≤ memory.length := hok.size.trans hfits
  have hread : Returns (readHeader address memory : Exec σ Error _) s
      ⟨memory.take headerSize, by rw [List.length_take]; omega⟩ s := by
    rw [readHeader, dif_pos hlen]
    exact returns_pure.mpr ⟨rfl, rfl⟩
  have hnew : Header.new ⟨memory.take headerSize, by rw [List.length_take]; omega⟩ = .ok f.header :=
    headerNew_iff.mpr ⟨f, hok, hheader, rfl⟩
  have hraw : Returns (fromRawParts address memory f.totalSize : Exec σ Error _) s
      (memory.take f.totalSize) s := by
    rw [fromRawParts, if_pos hfits]
    exact returns_pure.mpr ⟨rfl, rfl⟩
  have htake : (memory.take f.totalSize).length = f.totalSize := by
    rw [List.length_take, Nat.min_eq_left hfits]
  have hplaced := Header.placed_of_new hnew
  have hslice : ∀ range : Range, range.Inside f.totalSize →
      Returns (index (memory.take f.totalSize) range : Exec σ Error _) s (slice memory range) s := by
    rintro range ⟨-, hle, hstop⟩
    exact returns_index.mpr ⟨⟨hle, hstop.trans_eq htake.symm⟩, (slice_take hstop).symm, rfl⟩
  have hadd : checkedAdd address f.totalSize = some (address + f.totalSize) :=
    checkedAdd_eq_some.mpr ⟨hword, rfl⟩
  have hstructure : Returns (Structure.new (slice memory f.header.structureRange)
      ⟨slice memory f.header.stringsRange⟩) s ⟨slice memory f.header.structureRange⟩ s :=
    returns_structureNew_iff.mpr ⟨rfl, rfl, t, hroot, hnames, hdenotes⟩
  have hvalidate : Returns (Structure.validateSemantics ⟨slice memory f.header.structureRange⟩
      ⟨slice memory f.header.stringsRange⟩) s () s :=
    (decides_validateSemantics hroot hnames hdenotes).returns_iff.mpr ⟨hsemantics, rfl⟩
  have hreservations : Returns (Reservations.new (slice memory (reservationRange f.header))) s
      ⟨encodeEntries es ++ (toBE 8 0 ++ toBE 8 0)⟩ s := by
    rw [show slice memory (reservationRange f.header) = _ from hencodes]
    exact Reservations.returns_new_of_accepted haccepted rest s
  unfold Fdt.fromPtr
  rw [if_neg hnull, if_neg (not_not_intro haligned)]
  refine returns_bind.mpr ⟨_, s, hread, returns_bind.mpr ⟨f.header, s, ?_, ?_⟩⟩
  · rw [hnew]
    exact returns_mapError.mpr rfl
  rw [show f.header.totalSize = f.totalSize from rfl, hadd]
  refine returns_bind.mpr ⟨_, s, hraw, ?_⟩
  refine returns_bind.mpr ⟨_, s, hslice _ hplaced.stringsBlock, ?_⟩
  refine returns_bind.mpr ⟨_, s, hslice _ hplaced.structureBlock, ?_⟩
  refine returns_bind.mpr ⟨_, s, returns_mapError.mpr hstructure, ?_⟩
  refine returns_bind.mpr ⟨(), s, returns_mapError.mpr hvalidate, ?_⟩
  refine returns_bind.mpr ⟨_, s, hslice _ hplaced.inside_reservationRange, ?_⟩
  exact returns_bind.mpr ⟨_, s, returns_mapError.mpr hreservations, rfl⟩

/-- And only well-formed blobs are. -/
theorem wellFormed_of_returns {address : ℕ} {memory : List UInt8} {fdt : Fdt} {s s' : σ}
    (h : Returns (Fdt.fromPtr address memory) s fdt s') :
    ∃ f t es, WellFormed address memory f t es ∧ fdt = f.fdt memory es := by
  unfold Fdt.fromPtr at h
  split at h
  · simp at h
  rename_i hnull
  split at h
  · simp at h
  rename_i haligned
  simp only [returns_bind, returns_mapError] at h
  obtain ⟨headerBytes, _, hread, header, _, hnew, h⟩ := h
  split at h
  · simp at h
  rename_i hadd
  simp only [returns_bind, returns_mapError, returns_pure] at h
  obtain ⟨bytes, _, hraw, stringsBytes, _, hstrings, structureBytes, _, hstructure, structureBlock, _,
    hblock, _, _, hsemantics, reservationBytes, _, hreservation, reservations, _, hentries, rfl, -⟩ := h
  obtain ⟨hnew, -⟩ := returns_ofExcept.mp hnew
  obtain ⟨f, hok, hencode, rfl⟩ := headerNew_iff.mp hnew
  have hplaced := Header.placed_of_new hnew
  have hheader : headerBytes.val = memory.take headerSize := by
    unfold readHeader at hread
    split at hread
    · obtain ⟨rfl, -⟩ := returns_pure.mp hread
      rfl
    · simp at hread
  have hbytes : f.totalSize ≤ memory.length ∧ bytes = memory.take f.totalSize := by
    unfold fromRawParts at hraw
    split at hraw
    · rename_i hfits
      obtain ⟨rfl, -⟩ := returns_pure.mp hraw
      exact ⟨hfits, rfl⟩
    · simp at hraw
  obtain ⟨hfits, rfl⟩ := hbytes
  obtain ⟨-, rfl, -⟩ := returns_index.mp hstrings
  obtain ⟨-, rfl, -⟩ := returns_index.mp hstructure
  obtain ⟨-, rfl, -⟩ := returns_index.mp hreservation
  have hslice : ∀ range : Range, range.Inside f.totalSize →
      slice (memory.take f.totalSize) range = slice memory range := fun _ hin => slice_take hin.2.2
  rw [hslice _ hplaced.stringsBlock, hslice _ hplaced.structureBlock] at hblock
  rw [hslice _ hplaced.stringsBlock] at hsemantics
  change Returns (Reservations.new (slice _ (reservationRange f.header))) _ _ _ at hentries
  rw [hslice _ hplaced.inside_reservationRange] at hentries
  obtain ⟨rfl, rfl, t, hroot, hnames, hdenotes⟩ := returns_structureNew_iff.mp hblock
  obtain ⟨hsemantics, -⟩ := (decides_validateSemantics hroot hnames hdenotes).returns_iff.mp hsemantics
  obtain ⟨es, rest, hencodes, hes, hapart, rfl⟩ := Reservations.returns_reservationsNew hentries
  refine ⟨f, t, es, ⟨⟨hnull, not_not.mp haligned⟩, ⟨hfits, (checkedAdd_eq_some.mp hadd).1⟩, hok,
    hheader.symm.trans hencode, hroot, hnames, hdenotes, hsemantics, ⟨rest, hencodes⟩,
    Reservations.accepted_iff.mpr ⟨hes, hapart⟩⟩, ?_⟩
  rw [hslice _ hplaced.stringsBlock]
  rfl

theorem totalSize_lt_of_returns {address : ℕ} {memory : List UInt8} {fdt : Fdt}
    (h : Returns (Fdt.fromPtr address memory) () fdt ()) : fdt.totalSize < 2 ^ 32 := by
  obtain ⟨f, t, es, hwf, rfl⟩ := wellFormed_of_returns h
  have htotal : f.totalSize < 2 ^ 32 := hwf.fields.lt _ (by simp [HeaderFields.words])
  exact htotal

/-- **Accepted blobs.** Construction from the bytes behind an address succeeds exactly when they hold
a well-formed blob: ten header words that place the blocks, a serialization of a tree that satisfies
the naming and semantic rules with the names of the strings block, and reservation entries that satisfy
theirs before a terminator. The devicetree is then made of these blocks. -/
theorem fdt_accepted_iff (address : ℕ) (memory : List UInt8) (fdt : Fdt) :
    Returns (Fdt.fromPtr address memory) () fdt () ↔
      ∃ f t es, WellFormed address memory f t es ∧ fdt = f.fdt memory es := by
  constructor
  · exact wellFormed_of_returns
  · rintro ⟨f, t, es, h, rfl⟩
    exact h.returns ()

/-! ## Writing a blob -/

/-- Zeros up to the next multiple of four. -/
def zeros (length : ℕ) : List UInt8 := List.replicate (padding length) 0

def PropertyEntry.lexeme (p : PropertyEntry) : Lexeme :=
  .property p.nameOffset p.value (zeros p.value.length)

mutual

/-- The lexemes of a tree, without `FDT_NOP`. -/
def Tree.lexemes : Tree → List Lexeme
  | .node name properties children =>
    .beginNode name (zeros (name.length + 1)) ::
      (properties.map PropertyEntry.lexeme ++ (forestLexemes children ++ [.endNode]))

def forestLexemes : List Tree → List Lexeme
  | [] => []
  | t :: ts => t.lexemes ++ forestLexemes ts

end

theorem symbols_map_lexeme (ps : List PropertyEntry) :
    symbols (ps.map PropertyEntry.lexeme) = ps.map .property := by
  induction ps with
  | nil => rfl
  | cons p ps ih =>
    rw [List.map_cons, List.map_cons, ← ih]
    rfl

mutual

theorem Tree.symbols_lexemes : ∀ t : Tree, Devicetree.symbols t.lexemes = t.symbols
  | .node name properties children => by
    rw [Tree.lexemes, Tree.symbols, symbols_cons rfl, symbols_append, symbols_append,
      symbols_map_lexeme, forest_symbols children]
    rfl

theorem forest_symbols : ∀ ts : List Tree, Devicetree.symbols (forestLexemes ts) = Tree.forest ts
  | [] => rfl
  | t :: ts => by
    rw [forestLexemes, Tree.forest, symbols_append, Tree.symbols_lexemes t, forest_symbols ts]

end

theorem zero_notMem_of_validNodeName {name : List UInt8} (h : ValidNodeName name) : 0 ∉ name := by
  have hzero : isValidCharacter 0 = false := by decide
  have hnot : ∀ {bs : List UInt8}, (∀ b ∈ bs, isValidCharacter b = true) → 0 ∉ bs := by
    intro bs hbs hmem
    rw [hbs 0 hmem] at hzero
    cases hzero
  rcases h with hcomponent | ⟨base, unit, rfl, hcomponent, -, hunit⟩
  · exact hnot hcomponent.characters
  · rw [List.mem_append, List.mem_cons]
    rintro (hmem | hmem | hmem)
    · exact hnot hcomponent.characters hmem
    · cases hmem
    · exact hnot hunit hmem

/-- The operands of a lexeme fit as soon as its encoding does. -/
theorem PropertyEntry.wf_lexeme {p : PropertyEntry} (hoffset : p.nameOffset < 2 ^ 32)
    (hlen : p.lexeme.encode.length < 2 ^ 32) : p.lexeme.WF := by
  refine ⟨hoffset, ?_, List.length_replicate⟩
  simp only [PropertyEntry.lexeme, Lexeme.encode, List.length_append] at hlen
  omega

mutual

theorem Tree.wf_lexemes {strings : Strings} (hstrings : strings.bytes.length < 2 ^ 32) :
    ∀ t : Tree, t.Valid strings → 0 ∉ t.name → (∀ l ∈ t.lexemes, l.encode.length < 2 ^ 32) →
      ∀ l ∈ t.lexemes, l.WF
  | .node name properties children => by
    intro hv hname hlen l hl
    cases hv with
    | node resolves _ names _ below =>
      rw [Tree.lexemes] at hlen hl
      rcases List.mem_cons.mp hl with rfl | hl'
      · exact ⟨hname, List.length_replicate⟩
      rcases List.mem_append.mp hl' with hmem | hl'
      · obtain ⟨p, hp, rfl⟩ := List.mem_map.mp hmem
        obtain ⟨_, hresolves⟩ := resolves p hp
        exact PropertyEntry.wf_lexeme (hresolves.1.trans hstrings) (hlen _ hl)
      rcases List.mem_append.mp hl' with hmem | hmem
      · exact forest_wf hstrings children below
          (fun c hc => zero_notMem_of_validNodeName (names c hc))
          (fun l hl => hlen l (List.mem_cons_of_mem _ (List.mem_append_right _
            (List.mem_append_left _ hl)))) l hmem
      · rw [List.mem_singleton.mp hmem]
        trivial

theorem forest_wf {strings : Strings} (hstrings : strings.bytes.length < 2 ^ 32) :
    ∀ ts : List Tree, (∀ t ∈ ts, t.Valid strings) → (∀ t ∈ ts, 0 ∉ t.name) →
      (∀ l ∈ forestLexemes ts, l.encode.length < 2 ^ 32) → ∀ l ∈ forestLexemes ts, l.WF
  | [] => by
    intro _ _ _ l hl
    cases hl
  | t :: ts => by
    intro hv hname hlen l hl
    rw [forestLexemes] at hlen hl
    rcases List.mem_append.mp hl with hl | hl
    · exact Tree.wf_lexemes hstrings t (hv t List.mem_cons_self) (hname t List.mem_cons_self)
        (fun l hl => hlen l (List.mem_append_left _ hl)) l hl
    · exact forest_wf hstrings ts (fun t ht => hv t (List.mem_cons_of_mem _ ht))
        (fun t ht => hname t (List.mem_cons_of_mem _ ht))
        (fun l hl => hlen l (List.mem_append_right _ hl)) l hl

end

/-- What a blob is written from. -/
structure Content where
  bootCpuidPhys : ℕ
  entries : List MemoryReservation
  tree : Tree
  strings : Strings

namespace Content

def reservationBlock (c : Content) : List UInt8 := encodeEntries c.entries ++ (toBE 8 0 ++ toBE 8 0)

def structureBlock (c : Content) : List UInt8 := encodeAll (c.tree.lexemes ++ [.fdtEnd])

/-- The reservation, structure and strings blocks, one after the other behind the header. -/
def fields (c : Content) : HeaderFields where
  totalSize := headerSize + c.reservationBlock.length + c.structureBlock.length +
    c.strings.bytes.length
  offDtStruct := headerSize + c.reservationBlock.length
  offDtStrings := headerSize + c.reservationBlock.length + c.structureBlock.length
  offMemRsvmap := headerSize
  bootCpuidPhys := c.bootCpuidPhys
  sizeDtStrings := c.strings.bytes.length
  sizeDtStruct := c.structureBlock.length

def encodeBlob (c : Content) : List UInt8 :=
  c.fields.encode ++ c.reservationBlock ++ c.structureBlock ++ c.strings.bytes

/-- Content that a devicetree may have: it satisfies the rules, and the sizes fit the header. -/
structure Valid (c : Content) : Prop where
  root : c.tree.name = []
  names : c.tree.Valid c.strings
  semantics : c.tree.SemanticsOk c.strings
  entries : Reservations.Accepted c.entries
  boot : c.bootCpuidPhys < 2 ^ 32
  size : c.encodeBlob.length < 2 ^ 32

end Content

theorem slice_append {as bs cs : List UInt8} {range : Range} (hstart : range.start = as.length)
    (hstop : range.stop = as.length + bs.length) : slice (as ++ (bs ++ cs)) range = bs := by
  have htake : (as ++ (bs ++ cs)).take range.stop = as ++ bs := by
    rw [← List.append_assoc]
    exact List.take_left' (by rw [List.length_append, hstop])
  rw [slice, htake]
  exact List.drop_left' hstart.symm

/-- The reservation block ends where the next block starts. -/
theorem reservationLimit_eq {header : Header}
    (hstart : header.reservationOffset < header.structureRange.start)
    (hnext : header.structureRange.start ≤ header.stringsRange.start)
    (htotal : header.structureRange.start ≤ header.totalSize) :
    reservationLimit header = header.structureRange.start := by
  rw [reservationLimit, List.foldl_cons, List.foldl_cons, List.foldl_nil, if_pos hstart,
    if_pos (hstart.trans_le hnext), Nat.min_eq_right htotal, Nat.min_eq_left hnext]

theorem length_encode_le {ls : List Lexeme} {l : Lexeme} (hl : l ∈ ls) :
    l.encode.length ≤ (encodeAll ls).length := by
  induction ls with
  | nil => cases hl
  | cons l' ls ih =>
    rw [encodeAll_cons, List.length_append]
    rcases List.mem_cons.mp hl with rfl | hl
    · exact Nat.le_add_right _ _
    · exact (ih hl).trans (Nat.le_add_left _ _)

/-- The tree is not longer than its serialization. -/
theorem Denotes.length_symbols_le {bytes : List UInt8} {t : Tree} (h : Denotes bytes t) :
    t.symbols.length ≤ bytes.length := by
  obtain ⟨ls, -, hs, hb⟩ := h
  have hfilter : (symbols ls).length ≤ ls.length := List.length_filterMap_le _ _
  have hbytes := length_le_length_encodeAll (ls ++ [.fdtEnd])
  rw [← hb, List.length_append] at hbytes
  rw [← hs]
  omega

namespace Content

variable {c : Content}

theorem length_encodeBlob (c : Content) : c.encodeBlob.length = c.fields.totalSize := by
  rw [encodeBlob, List.length_append, List.length_append, List.length_append,
    HeaderFields.length_encode]
  rfl

theorem length_reservationBlock (c : Content) :
    c.reservationBlock.length = 16 * (c.entries.length + 1) := by
  rw [reservationBlock, List.length_append, List.length_append, length_toBE, length_encodeEntries]
  omega

theorem Valid.denotes (h : c.Valid) : Denotes c.structureBlock c.tree := by
  have hsize := h.size
  rw [length_encodeBlob] at hsize
  have hstrings : c.strings.bytes.length < 2 ^ 32 := (Nat.le_add_left _ _).trans_lt hsize
  have hroot : 0 ∉ c.tree.name := by
    rw [h.root]
    exact List.not_mem_nil
  refine ⟨c.tree.lexemes, Tree.wf_lexemes hstrings c.tree h.names hroot fun l hl => ?_,
    Tree.symbols_lexemes c.tree, rfl⟩
  have hle := length_encode_le (List.mem_append_left [.fdtEnd] hl)
  have hblock : c.structureBlock.length ≤ c.fields.totalSize := by
    simp only [fields]
    omega
  exact (hle.trans hblock).trans_lt hsize

theorem Valid.fields_ok (h : c.Valid) : c.fields.Ok := by
  have hsize := h.size
  rw [length_encodeBlob] at hsize
  have hreservation := length_reservationBlock c
  have hheader : headerSize = 40 := rfl
  simp only [fields] at hsize
  constructor
  · simp only [HeaderFields.words, fields, List.mem_cons, List.not_mem_nil, or_false]
    rintro w (rfl | rfl | rfl | rfl | rfl | rfl | rfl | rfl | rfl | rfl)
    all_goals first | exact h.boot | omega | decide
  all_goals simp only [fields, HeaderFields.header, Range.contains]
  all_goals omega

/-- **A blob that is written is well formed**, whatever follows it. -/
theorem Valid.wellFormed (h : c.Valid) {address : ℕ} (haligned : address ≠ 0 ∧ address % 8 = 0)
    (hfits : address + c.encodeBlob.length ≤ wordMax) (rest : List UInt8) :
    WellFormed address (c.encodeBlob ++ rest) c.fields c.tree c.entries ∧
      c.fields.fdt (c.encodeBlob ++ rest) c.entries =
        ⟨c.fields.header, ⟨c.structureBlock⟩, c.strings, ⟨c.reservationBlock⟩⟩ := by
  have hreservation := length_reservationBlock c
  have hheader : c.fields.encode.length = headerSize := HeaderFields.length_encode _
  have hstrings : slice (c.encodeBlob ++ rest) c.fields.header.stringsRange = c.strings.bytes := by
    have hblob : c.encodeBlob ++ rest =
        (c.fields.encode ++ c.reservationBlock ++ c.structureBlock) ++ (c.strings.bytes ++ rest) := by
      rw [encodeBlob, List.append_assoc _ _ rest]
    rw [hblob]
    apply slice_append
    · rw [List.length_append, List.length_append, hheader]
      rfl
    · rw [List.length_append, List.length_append, hheader]
      rfl
  have hstructure : slice (c.encodeBlob ++ rest) c.fields.header.structureRange =
      c.structureBlock := by
    have hblob : c.encodeBlob ++ rest = (c.fields.encode ++ c.reservationBlock) ++
        (c.structureBlock ++ (c.strings.bytes ++ rest)) := by
      rw [encodeBlob, List.append_assoc _ _ rest, List.append_assoc _ c.structureBlock]
    rw [hblob]
    apply slice_append
    · rw [List.length_append, hheader]
      rfl
    · rw [List.length_append, hheader]
      rfl
  have hentries : slice (c.encodeBlob ++ rest) (reservationRange c.fields.header) =
      c.reservationBlock := by
    have hblob : c.encodeBlob ++ rest = c.fields.encode ++ (c.reservationBlock ++
        (c.structureBlock ++ (c.strings.bytes ++ rest))) := by
      rw [encodeBlob, List.append_assoc _ _ rest, List.append_assoc _ c.structureBlock,
        List.append_assoc]
    rw [hblob]
    apply slice_append hheader.symm
    have hstart : headerSize < headerSize + c.reservationBlock.length := by omega
    have htotal : headerSize + c.reservationBlock.length ≤ c.fields.totalSize := by
      simp only [fields]
      omega
    rw [hheader]
    exact reservationLimit_eq hstart (Nat.le_add_right _ _) htotal
  refine ⟨⟨haligned, ⟨?_, by rwa [← length_encodeBlob]⟩, h.fields_ok, ?_, h.root, ?_, ?_, ?_,
    ⟨[], ?_⟩, h.entries⟩, ?_⟩
  · rw [List.length_append, length_encodeBlob]
    exact Nat.le_add_right _ _
  · rw [encodeBlob, List.append_assoc, List.append_assoc, List.append_assoc]
    exact List.take_left' hheader
  · rw [hstrings]
    exact h.names
  · rw [hstructure]
    exact h.denotes
  · rw [hstrings]
    exact h.semantics
  · rw [hentries, Reservations.Encodes, List.append_nil]
    rfl
  · rw [HeaderFields.fdt, hstructure, hstrings]
    rfl

/-- What construction makes of a blob that is written. -/
theorem Valid.returns_fromPtr (h : c.Valid) {address : ℕ} (haligned : address ≠ 0 ∧ address % 8 = 0)
    (hfits : address + c.encodeBlob.length ≤ wordMax) (rest : List UInt8) :
    ∃ fdt : Fdt, Returns (Fdt.fromPtr address (c.encodeBlob ++ rest)) () fdt () ∧
      fdt.totalSize = c.encodeBlob.length ∧ fdt.strings = c.strings ∧
      fdt.structureBlock = ⟨c.structureBlock⟩ ∧ fdt.Validated c.tree c.entries := by
  obtain ⟨hwell, hfdt⟩ := h.wellFormed haligned hfits rest
  have hreturns := hwell.returns ()
  rw [hfdt] at hreturns
  have hsize : c.structureBlock.length ≤ wordMax := by
    have hle : c.structureBlock.length ≤ c.encodeBlob.length := by
      rw [length_encodeBlob]
      simp only [fields]
      omega
    omega
  exact ⟨_, hreturns, (length_encodeBlob c).symm, rfl, rfl, h.root, h.names, h.denotes, h.semantics,
    (Reservations.accepted_iff.mp h.entries).1, rfl, hsize⟩

end Content

/-- **Round trip.** A tree, a strings block and reservation entries that satisfy the rules are
written to a blob, and the blob is put at an aligned address, whatever follows it. Construction
accepts it; reading the root recursively returns the tree, and the iterators yield the entries and
the ranges that the tree describes. -/
theorem fdt_round_trip (c : Content) (h : c.Valid) (address : ℕ) (rest : List UInt8)
    (haligned : address ≠ 0 ∧ address % 8 = 0) (hfits : address + c.encodeBlob.length ≤ wordMax) :
    ∃ fdt, Returns (Fdt.fromPtr address (c.encodeBlob ++ rest)) () fdt () ∧
      fdt.totalSize = c.encodeBlob.length ∧ fdt.strings = c.strings ∧
      (∃ root, Returns (fdt.root : Exec Unit Empty Node) () root () ∧
        Returns (readTree fdt.structureBlock.bytes.length root : Exec Unit Empty NamedTree) ()
          (c.tree.named c.strings) ()) ∧
      Yields (MemoryReservations.next : Exec _ Empty _) c.entries fdt.memoryReservations ∧
      (∃ it, Returns (fdt.memoryRanges : Exec Unit Empty _) () it () ∧
        Yields (MemoryRanges.next : Exec _ Empty _) (c.tree.memoryRanges c.strings) it) ∧
      ∃ it, Returns (fdt.reservedMemoryRanges : Exec Unit Empty _) () it () ∧
        Yields (ReservedMemoryRanges.next : Exec _ Empty _) (c.tree.reservedRanges c.strings) it := by
  obtain ⟨fdt, hreturns, hsize, hstrings, hblock, hv⟩ := h.returns_fromPtr haligned hfits rest
  obtain ⟨root, hroot, hview⟩ := returns_root (σ := Unit) (ε := Empty) c.strings h.root h.denotes
  obtain ⟨it₁, h₁, hy₁⟩ := hv.yields_memoryRanges (σ := Unit) (ε := Empty)
  obtain ⟨it₂, h₂, hy₂⟩ := hv.yields_reservedMemoryRanges (σ := Unit) (ε := Empty)
  rw [hstrings] at hy₁ hy₂
  refine ⟨fdt, hreturns, hsize, hstrings, ⟨root, ?_, ?_⟩, hv.yields_memoryReservations,
    ⟨it₁, h₁ (), hy₁ Empty⟩, it₂, h₂ (), hy₂⟩
  · rw [Fdt.root, hblock, hstrings]
    exact hroot ()
  · rw [hblock]
    exact hview.returns_readTree () h.names h.denotes.length_symbols_le

/-- Content whose blocks construction accepts. -/
theorem Content.valid_of_returns {c : Content} (hwf : ∀ l ∈ c.tree.lexemes, l.WF)
    (hnew : Returns (Structure.new c.structureBlock c.strings) () ⟨c.structureBlock⟩ ())
    (hsemantics : Returns (Structure.validateSemantics ⟨c.structureBlock⟩ c.strings) () () ())
    (hentries : Reservations.Accepted c.entries) (hboot : c.bootCpuidPhys < 2 ^ 32)
    (hsize : c.encodeBlob.length < 2 ^ 32) : c.Valid := by
  have hdenotes : Denotes c.structureBlock c.tree :=
    ⟨_, hwf, Tree.symbols_lexemes _, rfl⟩
  obtain ⟨-, -, t, hroot, hnames, ht⟩ := returns_structureNew_iff.mp hnew
  obtain rfl := hdenotes.unique ht
  obtain ⟨hok, -⟩ := (decides_validateSemantics hroot hnames hdenotes).returns_iff.mp hsemantics
  exact ⟨hroot, hnames, hok, hentries, hboot, hsize⟩

/-- The blob of the source's tests: the required nodes, and one page of memory. -/
def minimalContent : Content where
  bootCpuidPhys := 0
  entries := []
  tree := .node [] [] [.node (ascii "cpus") [] [], .node (ascii "memory")
    [⟨0, ascii "memory" ++ [0]⟩, ⟨12, toBE 4 0 ++ toBE 4 0 ++ toBE 4 0x1000⟩] []]
  strings := ⟨ascii "device_type" ++ [0] ++ ascii "reg" ++ [0]⟩

theorem valid_minimalContent : minimalContent.Valid := by
  refine Content.valid_of_returns ?_ ?_ ?_ ⟨by simp [minimalContent], .nil⟩ (by decide)
    (by decide +kernel)
  · simp only [minimalContent, Tree.lexemes, forestLexemes, PropertyEntry.lexeme, List.map_cons,
      List.map_nil, List.nil_append, List.cons_append, List.append_nil, List.forall_mem_cons,
      List.not_mem_nil, false_imp_iff, implies_true, and_true, Lexeme.WF, true_and]
    decide +kernel
  · unfold Returns
    decide +kernel
  · unfold Returns
    decide +kernel

theorem fdt_round_trip_sample : ∃ fdt,
    Returns (Fdt.fromPtr 8 (minimalContent.encodeBlob ++ [])) () fdt () ∧ fdt.totalSize = 164 := by
  obtain ⟨fdt, hreturns, hsize, -⟩ := fdt_round_trip minimalContent valid_minimalContent 8 []
    (by decide) (by decide +kernel)
  exact ⟨fdt, hreturns, hsize.trans (by decide +kernel)⟩

end Barebone.Devicetree

import BareboneKernel.Fdt.Header
import BareboneKernel.Fdt.Ranges
import BareboneKernel.Fdt.Reservation

/-!
# The devicetree blob

`Fdt::from_ptr` reads the header at a pointer, slices the blob and validates its blocks. The memory
behind the pointer is a byte string; reading past it is a fault.

* `Fdt.Validated fdt t es`: the tree and the reservation entries behind an accepted blob;
* **`fdt_from_ptr_safe`**: no blob makes construction panic, and the iterators of an accepted one
  end without panicking;
* **`fdt_ranges_eq_tree`**: they yield exactly the ranges the tree encodes.
-/

set_option autoImplicit false

namespace Barebone.Devicetree

open Exec Endian Word

variable {σ ε : Type}

inductive BlobError where
  | nullPointer
  | misaligned (address requiredAlignment : ℕ)
  | addressRangeOverflow (address size : ℕ)
  deriving DecidableEq

inductive Error where
  | blob (error : BlobError)
  | header (error : HeaderError)
  | structureBlock (error : StructureError)
  | reservation (error : ReservationError)
  deriving DecidableEq

/-- A validated devicetree. -/
structure Fdt where
  header : Header
  structureBlock : Structure
  strings : Strings
  reservations : Reservations
  deriving DecidableEq

/-- Reads the header through the pointer. -/
def readHeader (address : ℕ) (memory : List UInt8) : Exec σ ε HeaderBytes :=
  if h : headerSize ≤ memory.length then
    pure ⟨memory.take headerSize, by rw [List.length_take]; omega⟩
  else abort (.faulted (address + memory.length))

/-- The blob as a slice, `slice::from_raw_parts`. -/
def fromRawParts (address : ℕ) (memory : List UInt8) (length : ℕ) : Exec σ ε (List UInt8) :=
  if length ≤ memory.length then pure (memory.take length)
  else abort (.faulted (address + memory.length))

/-- `&bytes[range]` -/
def index (bytes : List UInt8) (range : Range) : Exec σ ε (List UInt8) := do
  require (range.start ≤ range.stop) "slice index starts after its end"
  require (range.stop ≤ bytes.length) "range end index out of range"
  pure ((bytes.take range.stop).drop range.start)

/-- Where the reservation block must have ended. -/
def reservationLimit (header : Header) : ℕ :=
  [header.structureRange, header.stringsRange].foldl (fun limit range =>
    if range.start > header.reservationOffset then min limit range.start else limit) header.totalSize

namespace Fdt

def fromPtr (address : ℕ) (memory : List UInt8) : Exec σ Error Fdt :=
  if address = 0 then fail (.blob .nullPointer)
  else if address % 8 ≠ 0 then fail (.blob (.misaligned address 8))
  else do
    let headerBytes ← readHeader address memory
    let header ← mapError .header (ofExcept (Header.new headerBytes))
    match checkedAdd address header.totalSize with
    | none => fail (.blob (.addressRangeOverflow address header.totalSize))
    | some _ =>
      let bytes ← fromRawParts address memory header.totalSize
      let stringsBytes ← index bytes header.stringsRange
      let structureBytes ← index bytes header.structureRange
      let strings : Strings := ⟨stringsBytes⟩
      let structureBlock ← mapError .structureBlock (Structure.new structureBytes strings)
      mapError .structureBlock (structureBlock.validateSemantics strings)
      let reservationBytes ← index bytes ⟨header.reservationOffset, reservationLimit header⟩
      let reservations ← mapError .reservation (Reservations.new reservationBytes)
      pure ⟨header, structureBlock, strings, reservations⟩

def root (fdt : Fdt) : Exec σ ε Node := fdt.structureBlock.root fdt.strings

def memoryRanges (fdt : Fdt) : Exec σ ε MemoryRanges := do
  let root ← fdt.root
  MemoryRanges.new root

def memoryReservations (fdt : Fdt) : MemoryReservations := fdt.reservations.iter

def reservedMemoryRanges (fdt : Fdt) : Exec σ ε ReservedMemoryRanges := do
  let root ← fdt.root
  ReservedMemoryRanges.new root

def totalSize (fdt : Fdt) : ℕ := fdt.header.totalSize

/-- A bound for the loops over the ranges of a devicetree. -/
def bound (fdt : Fdt) : ℕ := fdt.structureBlock.bytes.length + fdt.reservations.bytes.length + 1

end Fdt

/-! ## Accepted blobs -/

/-- The tree `t` and the reservation entries `es` that the blocks of a devicetree encode. -/
structure Fdt.Validated (fdt : Fdt) (t : Tree) (es : List MemoryReservation) : Prop where
  name : t.name = []
  valid : t.Valid fdt.strings
  denotes : Denotes fdt.structureBlock.bytes t
  semantics : t.SemanticsOk fdt.strings
  entries : ∀ e ∈ es, e.Valid
  reservations : fdt.reservations = ⟨encodeEntries es ++ (toBE 8 0 ++ toBE 8 0)⟩
  size : fdt.structureBlock.bytes.length ≤ wordMax

/-- The bytes in which the reservation block is looked for. -/
def reservationRange (header : Header) : Range :=
  ⟨header.reservationOffset, reservationLimit header⟩

theorem Header.Placed.inside_reservationRange {bytes : HeaderBytes} {header : Header}
    (h : header.Placed bytes) : (reservationRange header).Inside header.totalSize := by
  obtain ⟨hlow, hhigh⟩ := h.reservation
  refine ⟨hlow, ?_⟩
  simp only [reservationRange, reservationLimit, List.foldl_cons, List.foldl_nil]
  split_ifs <;> omega

theorem decides_index {bytes : List UInt8} {range : Range} (h₁ : range.start ≤ range.stop)
    (h₂ : range.stop ≤ bytes.length) :
    Decides (index bytes range : Exec σ ε _) (· = (bytes.take range.stop).drop range.start) :=
  (decides_bind (decides_require h₁) fun _ _ => decides_bind (decides_require h₂) fun _ _ =>
    decides_pure _).congr fun _ => by simp

/-- No byte belongs to both ranges. -/
def Range.Apart (r r' : Range) : Prop := ∀ x, ¬(r.contains x ∧ r'.contains x)

/-- The reservation region ends at the first block behind its start, and no block covers its
start. -/
theorem Header.Placed.apart_reservationRange {bytes : HeaderBytes} {header : Header}
    (h : header.Placed bytes) : (reservationRange header).Apart header.structureRange ∧
      (reservationRange header).Apart header.stringsRange := by
  have h₁ := h.outsideStructure
  have h₂ := h.outsideStrings
  simp only [Range.contains] at h₁ h₂
  constructor <;>
  · rintro x ⟨hx, hx'⟩
    simp only [Range.contains, reservationRange, reservationLimit, List.foldl_cons,
      List.foldl_nil] at hx hx'
    split_ifs at hx <;> omega

/-- **The slices of a blob are safe and disjoint.** For a header that is accepted, the three ranges
that are sliced lie behind the header and inside the blob, in any order and also when some are
empty, and have no byte in common; the reservation region extends to the next block or the end. -/
theorem header_blocks_disjoint (bytes : HeaderBytes) (header : Header)
    (h : Header.new bytes = .ok header) :
    (∀ range ∈ [header.stringsRange, header.structureRange, reservationRange header],
      (headerSize ≤ range.start ∧ range.start ≤ range.stop ∧ range.stop ≤ header.totalSize) ∧
      ∀ blob : List UInt8, blob.length = header.totalSize →
        Safe (index blob range : Exec Unit Error (List UInt8)) ()) ∧
    [header.stringsRange, header.structureRange, reservationRange header].Pairwise Range.Apart ∧
    ((reservationRange header).stop = header.totalSize ∨
      (reservationRange header).stop = header.structureRange.start ∨
      (reservationRange header).stop = header.stringsRange.start) := by
  have hplaced := Header.placed_of_new h
  obtain ⟨hstructure, hstrings⟩ := hplaced.apart_reservationRange
  refine ⟨fun range hrange => ?_, ?_, ?_⟩
  · have hinside : range.Inside header.totalSize := by
      simp only [List.mem_cons, List.not_mem_nil, or_false] at hrange
      rcases hrange with rfl | rfl | rfl
      · exact hplaced.stringsBlock
      · exact hplaced.structureBlock
      · exact hplaced.inside_reservationRange
    refine ⟨hinside, fun blob hlen => (decides_index hinside.2.1 ?_).safe ()⟩
    rw [hlen]
    exact hinside.2.2
  · simp only [List.pairwise_cons, List.mem_cons, List.not_mem_nil, or_false, forall_eq_or_imp,
      forall_eq, List.Pairwise.nil, false_imp_iff, implies_true, and_true]
    have hapart := hplaced.apart
    refine ⟨⟨fun x hx => ?_, fun x hx => hstrings x hx.symm⟩, fun x hx => hstructure x hx.symm⟩
    simp only [Range.contains] at hx
    omega
  · simp only [reservationRange, reservationLimit, List.foldl_cons, List.foldl_nil]
    split_ifs <;> omega

theorem length_fromRawParts_le {address length : ℕ} {memory bytes : List UInt8} {s s' : σ}
    (h : Returns (fromRawParts address memory length : Exec σ ε _) s bytes s') :
    bytes.length ≤ length := by
  unfold fromRawParts at h
  split at h
  · obtain ⟨rfl, -⟩ := returns_pure.mp h
    exact List.length_take_le _ _
  · simp at h

theorem length_index_le {bytes bs : List UInt8} {range : Range} {s s' : σ}
    (h : Returns (index bytes range : Exec σ ε _) s bs s') : bs.length ≤ bytes.length := by
  simp only [index, returns_bind, returns_require, returns_pure] at h
  obtain ⟨_, _, -, _, _, -, rfl, -⟩ := h
  rw [List.length_drop, List.length_take]
  omega

/-- The blocks of an accepted blob encode a tree and reservation entries. -/
theorem validated_of_fromPtr {address : ℕ} {memory : List UInt8} {fdt : Fdt} {s s' : σ}
    (h : Returns (Fdt.fromPtr address memory) s fdt s') : ∃ t es, fdt.Validated t es := by
  unfold Fdt.fromPtr at h
  split at h
  · simp at h
  split at h
  · simp at h
  simp only [returns_bind, returns_mapError] at h
  obtain ⟨headerBytes, _, -, header, _, -, h⟩ := h
  split at h
  · simp at h
  rename_i hadd
  simp only [returns_bind, returns_mapError, returns_pure] at h
  obtain ⟨bytes, _, hraw, stringsBytes, _, -, structureBytes, _, hindex, structureBlock, _, hnew, _,
    _, hsem, reservationBytes, _, -, reservations, _, hres, rfl, -⟩ := h
  obtain ⟨rfl, rfl, t, hname, hv, ht⟩ := returns_structureNew_iff.mp hnew
  have hok := ((decides_validateSemantics hname hv ht).returns_iff.mp hsem).1
  obtain ⟨es, -, -, hes, -, rfl⟩ := Reservations.returns_reservationsNew hres
  refine ⟨t, es, hname, hv, ht, hok, hes, rfl, ?_⟩
  -- the blob ends inside the address space, and the structure block is a part of it
  have htotal := (checkedAdd_eq_some.mp hadd).1
  have hbytes := length_fromRawParts_le hraw
  have := length_index_le hindex
  change structureBytes.length ≤ wordMax
  omega

namespace Fdt.Validated

variable {fdt : Fdt} {t : Tree} {es : List MemoryReservation}

theorem yields_memoryRanges (h : fdt.Validated t es) :
    ∃ it, (∀ s : σ, Returns (fdt.memoryRanges : Exec σ ε _) s it s) ∧
      ∀ ε' : Type, Yields (MemoryRanges.next : Exec _ ε' _) (t.memoryRanges fdt.strings) it := by
  obtain ⟨root, hroot, hview⟩ := returns_root (σ := σ) (ε := ε) fdt.strings h.name h.denotes
  obtain ⟨it, hnew, hy⟩ :=
    Barebone.Devicetree.yields_memoryRanges (σ := σ) (ε := ε) hview h.valid h.semantics
  refine ⟨it, fun s => ?_, hy⟩
  rw [Fdt.memoryRanges, returns_bind]
  exact ⟨root, s, hroot s, hnew s⟩

theorem yields_reservedMemoryRanges (h : fdt.Validated t es) :
    ∃ it, (∀ s : σ, Returns (fdt.reservedMemoryRanges : Exec σ ε _) s it s) ∧
      Yields (ReservedMemoryRanges.next : Exec _ ε _) (t.reservedRanges fdt.strings) it := by
  obtain ⟨root, hroot, hview⟩ := returns_root (σ := σ) (ε := ε) fdt.strings h.name h.denotes
  obtain ⟨it, hnew, hy⟩ :=
    Barebone.Devicetree.yields_reservedMemoryRanges (σ := σ) (ε := ε) hview h.valid h.semantics
  refine ⟨it, fun s => ?_, hy⟩
  rw [Fdt.reservedMemoryRanges, returns_bind]
  exact ⟨root, s, hroot s, hnew s⟩

theorem yields_memoryReservations (h : fdt.Validated t es) :
    Yields (MemoryReservations.next : Exec _ ε _) es fdt.memoryReservations := by
  have := MemoryReservations.yields (ε := ε) h.entries []
  rw [List.append_nil] at this
  rw [Fdt.memoryReservations, Reservations.iter, h.reservations]
  exact this

theorem valuesLength_le (h : fdt.Validated t es) :
    valuesLength t.symbols ≤ fdt.structureBlock.bytes.length := by
  obtain ⟨ls, -, hs, hb⟩ := h.denotes
  have := valuesLength_le_encodeAll ls
  rw [hs] at this
  rw [hb, encodeAll_append, List.length_append]
  omega

theorem valuesLength_lt (h : fdt.Validated t es) : valuesLength t.symbols < fdt.bound := by
  have := h.valuesLength_le
  rw [Fdt.bound]
  omega

/-- The ranges can be counted by a word. -/
theorem length_memoryRanges_le (h : fdt.Validated t es) :
    (t.memoryRanges fdt.strings).length ≤ wordMax :=
  t.length_memoryRanges_le.trans (h.valuesLength_le.trans h.size)

theorem length_memoryRanges_lt (h : fdt.Validated t es) :
    (t.memoryRanges fdt.strings).length < fdt.bound :=
  t.length_memoryRanges_le.trans_lt h.valuesLength_lt

theorem length_reservedRanges_lt (h : fdt.Validated t es) :
    (t.reservedRanges fdt.strings).length < fdt.bound :=
  t.length_reservedRanges_le.trans_lt h.valuesLength_lt

theorem length_entries_lt (h : fdt.Validated t es) : es.length < fdt.bound := by
  have := length_encodeEntries es
  rw [Fdt.bound, h.reservations, List.length_append]
  omega

end Fdt.Validated

/-- The total size declared in the header. -/
def declaredSize (memory : List UInt8) : ℕ := fromBE ((memory.drop 4).take 4)

/-- Construction is safe when the memory holds the header and the declared blob. -/
theorem safe_fromPtr {address : ℕ} {memory : List UInt8} (hheader : headerSize ≤ memory.length)
    (hsize : declaredSize memory ≤ memory.length) (s : σ) : Safe (Fdt.fromPtr address memory) s := by
  unfold Fdt.fromPtr
  split
  · exact safe_fail
  split
  · exact safe_fail
  refine safe_bind ?_ fun headerBytes s₁ hread => ?_
  · rw [readHeader, dif_pos hheader]
    exact safe_pure
  refine safe_bind (safe_mapError safe_ofExcept) fun header s₂ hnew => ?_
  obtain ⟨hnew, -⟩ := returns_ofExcept.mp (returns_mapError.mp hnew)
  have hplaced := Header.placed_of_new hnew
  obtain ⟨-, h₁, h₂⟩ := hplaced.structureBlock
  obtain ⟨-, h₃, h₄⟩ := hplaced.stringsBlock
  have htotal : header.totalSize ≤ memory.length := by
    rw [readHeader, dif_pos hheader] at hread
    obtain ⟨rfl, -⟩ := returns_pure.mp hread
    rw [hplaced.totalSize]
    change fromBE (((memory.take headerSize).drop 4).take 4) ≤ memory.length
    rwa [List.drop_take, List.take_take, Nat.min_eq_left (by decide)]
  split
  · exact safe_fail
  have hraw : Decides (fromRawParts address memory header.totalSize : Exec σ Error _)
      (· = memory.take header.totalSize) := by
    rw [fromRawParts, if_pos htotal]
    exact decides_pure _
  have hlen : (memory.take header.totalSize).length = header.totalSize := by
    rw [List.length_take]; omega
  obtain ⟨-, hr₁, hr₂⟩ := hplaced.inside_reservationRange
  refine safe_bind (hraw.safe _) fun bytes s₃ hb => ?_
  obtain ⟨rfl, -⟩ := hraw.returns_iff.mp hb
  refine safe_bind ((decides_index h₃ (by omega)).safe _) fun stringsBytes s₄ _ => ?_
  refine safe_bind ((decides_index h₁ (by omega)).safe _) fun structureBytes s₅ _ => ?_
  refine safe_bind (safe_mapError (safe_structureNew _ _ _)) fun structureBlock s₆ hst => ?_
  obtain ⟨-, rfl, t, hname, hv, ht⟩ := returns_structureNew_iff.mp (returns_mapError.mp hst)
  refine safe_bind (safe_mapError ((decides_validateSemantics hname hv ht).safe _)) fun _ s₇ _ => ?_
  refine safe_bind ((decides_index hr₁ (by simpa only [hlen] using hr₂)).safe _) fun _ s₈ _ => ?_
  exact safe_bind (safe_mapError (Reservations.safe_reservationsNew _ _)) fun _ _ _ => safe_pure

/-- **No blob makes the devicetree layer panic.** With the header and the declared blob readable,
construction returns; and for an accepted blob the three iterators over physical ranges can be
built and run to their end. -/
theorem fdt_from_ptr_safe {address : ℕ} {memory : List UInt8} (hheader : headerSize ≤ memory.length)
    (hsize : declaredSize memory ≤ memory.length) :
    Safe (Fdt.fromPtr address memory) () ∧
      ∀ fdt, Returns (Fdt.fromPtr address memory) () fdt () →
        (∃ it rs, Returns (fdt.memoryRanges : Exec Unit Empty _) () it () ∧
          Yields (MemoryRanges.next : Exec _ Empty _) rs it) ∧
        (∃ it rs, Returns (fdt.reservedMemoryRanges : Exec Unit Empty _) () it () ∧
          Yields (ReservedMemoryRanges.next : Exec _ Empty _) rs it) ∧
        ∃ rs, Yields (MemoryReservations.next : Exec _ Empty _) rs fdt.memoryReservations := by
  refine ⟨safe_fromPtr hheader hsize (), fun fdt h => ?_⟩
  obtain ⟨t, es, hv⟩ := validated_of_fromPtr h
  obtain ⟨it₁, h₁, hy₁⟩ := hv.yields_memoryRanges (σ := Unit) (ε := Empty)
  obtain ⟨it₂, h₂, hy₂⟩ := hv.yields_reservedMemoryRanges (σ := Unit) (ε := Empty)
  exact ⟨⟨it₁, _, h₁ (), hy₁ Empty⟩, ⟨it₂, _, h₂ (), hy₂⟩, es, hv.yields_memoryReservations⟩

/-- The `reg` of `c` consists of whole entries of the width that the cell counts of `parent`
give, and `rs` lists their addresses and sizes as unbounded numbers. -/
def DecodesReg (strings : Strings) (parent c : Tree) (rs : List RegRange) : Prop :=
  ∃ p, c.property strings (ascii "reg") = some p ∧
    (chunksExact (4 * (parent.addressCells strings + parent.sizeCells strings)) p.value).flatten =
      p.value ∧
    rs = (chunksExact (4 * (parent.addressCells strings + parent.sizeCells strings)) p.value).map
      fun entry => ⟨fromBE (entry.take (4 * parent.addressCells strings)),
        fromBE (entry.drop (4 * parent.addressCells strings))⟩

theorem decodesReg_of_regChild {strings : Strings} {parent c : Tree}
    (hpos : (parent.childAddressing strings).layout.entrySize ≠ 0)
    (hreg : c.HasReg strings (parent.childAddressing strings).layout)
    (hlen : c.RegLengthOk strings (parent.childAddressing strings)) :
    DecodesReg strings parent c (parent.regRanges strings c) := by
  obtain ⟨p, hp, -⟩ := hreg
  have hmod := hlen p hp
  rw [if_neg hpos] at hmod
  refine ⟨p, hp, flatten_chunksExact (Nat.pos_of_ne_zero hpos) hmod, ?_⟩
  rw [Tree.regRanges, hp]
  rfl

/-- **Decoded ranges.** For an accepted blob with tree `t`, the memory ranges are those of the
`reg` entries of the memory nodes, and the reserved ranges those of the children of the
`reserved-memory` node, in document order; all of them are nonempty and end inside the address
space. -/
theorem fdt_ranges_eq_tree {address : ℕ} {memory : List UInt8} {fdt : Fdt}
    (h : Returns (Fdt.fromPtr address memory) () fdt ()) :
    ∃ t : Tree, t.name = [] ∧ t.Valid fdt.strings ∧ Denotes fdt.structureBlock.bytes t ∧
      (∃ it, Returns (fdt.memoryRanges : Exec Unit Empty _) () it () ∧
        Yields (MemoryRanges.next : Exec _ Empty _)
          ((t.children.filter fun c => component c.name == ascii "memory").flatMap
            (t.regRanges fdt.strings)) it) ∧
      (∃ it, Returns (fdt.reservedMemoryRanges : Exec Unit Empty _) () it () ∧
        Yields (ReservedMemoryRanges.next : Exec _ Empty _)
          (match t.children.find? fun c => c.name == ascii "reserved-memory" with
            | none => []
            | some r => r.children.flatMap (r.regRanges fdt.strings)) it) ∧
      (∀ c ∈ t.children, component c.name = ascii "memory" →
        DecodesReg fdt.strings t c (t.regRanges fdt.strings c) ∧
        ∀ r ∈ t.regRanges fdt.strings c, 0 < r.size ∧ r.address + r.size ≤ 2 ^ 64 - 1) ∧
      ∀ m ∈ t.children, m.name = ascii "reserved-memory" → ∀ c ∈ m.children,
        DecodesReg fdt.strings m c (m.regRanges fdt.strings c) ∧
        ∀ r ∈ m.regRanges fdt.strings c, 0 < r.size ∧ r.address + r.size ≤ 2 ^ 64 - 1 := by
  obtain ⟨t, es, hv⟩ := validated_of_fromPtr h
  obtain ⟨it₁, h₁, hy₁⟩ := hv.yields_memoryRanges (σ := Unit) (ε := Empty)
  obtain ⟨it₂, h₂, hy₂⟩ := hv.yields_reservedMemoryRanges (σ := Unit) (ε := Empty)
  have hok := hv.semantics
  refine ⟨t, hv.name, hv.valid, hv.denotes, ⟨it₁, h₁ (), ?_⟩, ⟨it₂, h₂ (), hy₂⟩, fun c hc hm => ?_,
    fun m hm hname c hc => ?_⟩
  · have hf : (fun c : Tree => component c.name == ascii "memory") = fun c => decide c.IsMemory := by
      funext c
      exact beq_eq_decide _ _
    rw [hf]
    exact hy₁ Empty
  · have hreg := (hok.memory.2.2 c hc hm).2
    cases hok.addressing with
    | node _ _ regs _ =>
      exact ⟨decodesReg_of_regChild (ChildAddressing.entrySize_ne_zero hok.memory.1) hreg (regs c hc),
        Tree.regRanges_bounds hreg⟩
  · -- sibling names are distinct, so this child is the one that is found
    have hfind : t.reservedMemory = some m := hv.valid.find?_child hm hname
    have hrules := hok.reservedMemory m hfind
    have hreg := hrules.2.2.2.2.2 c hc
    cases hok.addressing.child hm with
    | node _ _ regs _ =>
      exact ⟨decodesReg_of_regChild (ChildAddressing.entrySize_ne_zero hrules.2.2.2.1) hreg
        (regs c hc), Tree.regRanges_bounds hreg⟩

/-! ## A blob -/

/-- A structure block with a memory node and a static reservation. -/
def sampleStructure : List UInt8 := encodeAll
  [.beginNode [] [0, 0, 0], .beginNode (ascii "cpus") [0, 0, 0], .endNode,
    .beginNode (ascii "memory@0") [0, 0, 0], .property 0 (ascii "memory" ++ [0]) [0],
    .property 12 (toBE 8 0x80000000 ++ toBE 4 0x4000) [], .endNode,
    .beginNode (ascii "reserved-memory") [], .property 16 (toBE 4 1) [], .property 31 (toBE 4 1) [],
    .property 43 [] [], .beginNode (ascii "fw") [0],
    .property 12 (toBE 4 0x80001000 ++ toBE 4 0x800) [], .endNode, .endNode, .endNode, .fdtEnd]

def sampleStrings : List UInt8 :=
  ascii "device_type" ++ [0] ++ ascii "reg" ++ [0] ++ ascii "#address-cells" ++ [0] ++
    ascii "#size-cells" ++ [0] ++ ascii "ranges" ++ [0]

/-- One reserved page, then the terminator. -/
def sampleReservations : List UInt8 := toBE 8 0x80003000 ++ toBE 8 0x1000 ++ toBE 8 0 ++ toBE 8 0

def sampleBlob : List UInt8 :=
  [0xd00dfeed, 318, 72, 268, 40, 17, 16, 0, 50, 196].flatMap (toBE 4) ++ sampleReservations ++
    sampleStructure ++ sampleStrings

def sampleFdt : Fdt :=
  ⟨⟨318, ⟨72, 268⟩, ⟨268, 318⟩, 40, 17, 16, 0⟩, ⟨sampleStructure⟩, ⟨sampleStrings⟩,
    ⟨sampleReservations⟩⟩

/-- The header of the sample blob. -/
def sampleHeader : HeaderBytes := ⟨sampleBlob.take headerSize, by decide +kernel⟩

theorem header_blocks_disjoint_sample :
    [sampleFdt.header.stringsRange, sampleFdt.header.structureRange,
      reservationRange sampleFdt.header].Pairwise Range.Apart :=
  (header_blocks_disjoint sampleHeader sampleFdt.header (by decide +kernel)).2.1

theorem fdt_from_ptr_safe_sample : Safe (Fdt.fromPtr 8 sampleBlob) () ∧
    ∀ fdt, Returns (Fdt.fromPtr 8 sampleBlob) () fdt () →
      (∃ it rs, Returns (fdt.memoryRanges : Exec Unit Empty _) () it () ∧
        Yields (MemoryRanges.next : Exec _ Empty _) rs it) ∧
      (∃ it rs, Returns (fdt.reservedMemoryRanges : Exec Unit Empty _) () it () ∧
        Yields (ReservedMemoryRanges.next : Exec _ Empty _) rs it) ∧
      ∃ rs, Yields (MemoryReservations.next : Exec _ Empty _) rs fdt.memoryReservations :=
  fdt_from_ptr_safe (by decide +kernel) (by decide +kernel)

theorem returns_sampleFdt : Returns (Fdt.fromPtr 8 sampleBlob) () sampleFdt () := by
  unfold Returns
  decide +kernel

theorem fdt_ranges_eq_tree_sample :
    ∃ t : Tree, t.name = [] ∧ t.Valid sampleFdt.strings ∧ Denotes sampleFdt.structureBlock.bytes t ∧
      ∃ it, Returns (sampleFdt.memoryRanges : Exec Unit Empty _) () it () ∧
        Yields (MemoryRanges.next : Exec _ Empty _)
          ((t.children.filter fun c => component c.name == ascii "memory").flatMap
            (t.regRanges sampleFdt.strings)) it := by
  obtain ⟨t, h₁, h₂, h₃, h₄, -⟩ := fdt_ranges_eq_tree returns_sampleFdt
  exact ⟨t, h₁, h₂, h₃, h₄⟩

end Barebone.Devicetree

import BareboneKernel.Fdt.View
import BareboneKernel.Lib.Word

/-!
# Devicetree semantics

The passes of `Structure::validate_semantics` over the views of a validated block, and the
iterators over the physical ranges they make safe:

* `addressing`: cell counts, unit addresses, lengths of `reg`;
* `RegRange`: entries of a `reg` property;
* `memory`, `reservedMemory`: the nodes that describe physical ranges.

Each iterator repeats decoding steps that the passes have checked and takes their failure as an
internal error.
-/

set_option autoImplicit false

namespace Barebone.Devicetree

open Exec Endian Word

variable {σ ε : Type}

/-- A byte-string literal. -/
def ascii (s : String) : List UInt8 := s.toUTF8.toList

/-! ## Addressing -/

/-- The number of cells of addresses and sizes in the `reg` of the children of a node. -/
structure ChildAddressing where
  addressCells : ℕ
  sizeCells : ℕ

/-- The sizes in bytes of the address and of a whole entry of a `reg`. -/
structure RegLayout where
  addressSize : ℕ
  entrySize : ℕ

def RegLayout.new (addressing : ChildAddressing) : Except SemanticError RegLayout :=
  let overflow := SemanticError.regEntrySizeOverflow addressing.addressCells addressing.sizeCells
  match checkedMul addressing.addressCells 4 with
  | none => .error overflow
  | some addressSize =>
    match checkedMul addressing.sizeCells 4 with
    | none => .error overflow
    | some sizeSize =>
      match checkedAdd addressSize sizeSize with
      | none => .error overflow
      | some entrySize => .ok ⟨addressSize, entrySize⟩

/-- The big-endian value of exactly four bytes. -/
def decodeU32 (bytes : List UInt8) : Option ℕ :=
  if bytes.length = 4 then some (fromBE bytes) else none

/-- A cell count: the value of a property of four bytes, or the default when there is none. -/
def parseCells (node : Node) (name : List UInt8) (default : ℕ) (invalid : ℕ → SemanticError) :
    Exec σ SemanticError ℕ := do
  match ← node.property name with
  | none => pure default
  | some property =>
    match decodeU32 property.value with
    | none => fail (invalid property.value.length)
    | some value => pure value

def parseAddressCells (node : Node) : Exec σ SemanticError ℕ :=
  parseCells node (ascii "#address-cells") 2 .invalidAddressCells

def parseSizeCells (node : Node) : Exec σ SemanticError ℕ :=
  parseCells node (ascii "#size-cells") 1 .invalidSizeCells

def parseChildAddressing (node : Node) : Exec σ SemanticError ChildAddressing := do
  let addressCells ← parseAddressCells node
  let sizeCells ← parseSizeCells node
  pure ⟨addressCells, sizeCells⟩

/-- The addressing of a node that has been validated. -/
def childAddressing (node : Node) : Exec σ ε ChildAddressing :=
  expect "validated node must contain valid address/size cell-count properties"
    (parseChildAddressing node)

def validateNodeAddressing (node : Node) : Exec σ SemanticError Unit :=
  if node.unitAddress.isNone then pure ()
  else do
    let hasReg := (← node.property (ascii "reg")).isSome
    let hasRanges := (← node.property (ascii "ranges")).isSome
    if !hasReg && !hasRanges then fail .unitAddressWithoutReg else pure ()

def validateNode (node : Node) : Exec σ SemanticError Unit := do
  let _ ← parseChildAddressing node
  validateNodeAddressing node

def validateReg (node : Node) (parentAddressing : ChildAddressing) : Exec σ SemanticError Unit := do
  match ← node.property (ascii "reg") with
  | none => pure ()
  | some reg =>
    let layout ← ofExcept (RegLayout.new parentAddressing)
    let length := reg.value.length
    if layout.entrySize = 0 then
      if length ≠ 0 then fail (.invalidRegLength length layout.entrySize) else pure ()
    else if length % layout.entrySize ≠ 0 then fail (.invalidRegLength length layout.entrySize)
    else pure ()

/-- Validates a node and everything below it. The depth of the recursion is bounded. -/
def validateSubtree : ℕ → Node → Exec σ SemanticError Unit
  | 0, _ => abort .exhausted
  | n + 1, parent => do
    validateNode parent
    let addressing ← childAddressing parent
    foldIter Children.next (fun _ child => do
      validateReg child addressing
      validateSubtree n child) parent.bound parent.children ()

def addressing.validate (root : Node) : Exec σ SemanticError Unit := validateSubtree root.bound root

/-! ## Entries of a `reg` property -/

inductive RegRangeError where
  | empty
  | addressDoesNotFitU64
  | sizeDoesNotFitU64
  | zeroSize
  | endOverflow
  deriving DecidableEq

/-- A physical range. `MemoryRange` and `ReservedMemoryRange` have the same fields. -/
structure RegRange where
  address : ℕ
  size : ℕ
  deriving DecidableEq

/-- The base of the positional system of cells. -/
def cellRadix : ℕ := 0x100000000

/-- The value of a string of cells, when it fits `u64`. -/
def decodeCellsU64 (bytes : List UInt8) : Option ℕ :=
  if bytes.length % 4 ≠ 0 then none
  else (chunksExact 4 bytes).foldlM (fun value cell => do
    let value ← checkedMul value cellRadix
    checkedAdd value (fromBE cell)) 0

/-- `slice::split_at` -/
def splitAt (bytes : List UInt8) (mid : ℕ) : Exec σ ε (List UInt8 × List UInt8) := do
  require (mid ≤ bytes.length) "mid > len"
  pure (bytes.take mid, bytes.drop mid)

def regRange.validateEntry (layout : RegLayout) (entry : List UInt8) : Exec σ RegRangeError Unit := do
  let (address, size) ← splitAt entry layout.addressSize
  match decodeCellsU64 address with
  | none => fail .addressDoesNotFitU64
  | some address =>
    match decodeCellsU64 size with
    | none => fail .sizeDoesNotFitU64
    | some size =>
      if size = 0 then fail .zeroSize
      else if (checkedAdd address size).isNone then fail .endOverflow
      else pure ()

def regRange.validate (bytes : List UInt8) (layout : RegLayout) : Exec σ RegRangeError Unit :=
  if bytes.isEmpty then fail .empty
  else do
    require (layout.entrySize ≠ 0) "chunk size must be non-zero"
    (chunksExact layout.entrySize bytes).foldlM (fun _ entry => regRange.validateEntry layout entry) ()

/-- The ranges of a validated `reg` property. -/
structure RegRanges where
  bytes : List UInt8
  layout : RegLayout

def decodeValidatedCellsU64 (bytes : List UInt8) : Exec σ ε ℕ :=
  match decodeCellsU64 bytes with
  | some value => pure value
  | none => abort (.panicked "validated range value must fit in u64")

def RegRanges.next : Exec RegRanges ε (Option RegRange) := do
  let it ← get
  if it.bytes.isEmpty then pure none
  else do
    let (entry, remaining) ← splitAt it.bytes it.layout.entrySize
    modify fun it => { it with bytes := remaining }
    let (address, size) ← splitAt entry it.layout.addressSize
    let address ← decodeValidatedCellsU64 address
    let size ← decodeValidatedCellsU64 size
    pure (some ⟨address, size⟩)

/-! ## Memory nodes -/

def memory.mapError : RegRangeError → SemanticError
  | .empty => .emptyMemoryReg
  | .addressDoesNotFitU64 => .memoryAddressDoesNotFitU64
  | .sizeDoesNotFitU64 => .memorySizeDoesNotFitU64
  | .zeroSize => .zeroMemorySize
  | .endOverflow => .memoryRangeEndOverflow

def isMemoryNode (node : Node) : Bool := node.nameComponent == ascii "memory"

def validateMemoryNode (node : Node) (layout : RegLayout) : Exec σ SemanticError Unit := do
  match ← node.property (ascii "device_type") with
  | none => fail .missingMemoryDeviceType
  | some deviceType =>
    if deviceType.value ≠ ascii "memory" ++ [0] then fail .invalidMemoryDeviceType
    else
      match ← node.property (ascii "reg") with
      | none => fail .missingMemoryReg
      | some reg => Exec.mapError memory.mapError (regRange.validate reg.value layout)

def memory.validate (root : Node) : Exec σ SemanticError Unit := do
  let addressing ← childAddressing root
  if addressing.addressCells = 0 then fail .invalidMemoryAddressCells
  else if addressing.sizeCells = 0 then fail .invalidMemorySizeCells
  else do
    let layout ← ofExcept (RegLayout.new addressing)
    foldIter Children.next (fun _ node =>
      if isMemoryNode node then validateMemoryNode node layout else pure ())
      root.bound root.children ()

/-- The ranges of all memory nodes. -/
structure MemoryRanges where
  nodes : NodeIter
  current : Option RegRanges
  layout : RegLayout

/-- The next range of the `reg` property being read; the property is given up at its end. -/
def nextOfCurrent (current : Option RegRanges) : Exec σ ε (Option (RegRange × RegRanges)) :=
  match current with
  | none => pure none
  | some ranges => do
    let (range, ranges) ← advance RegRanges.next ranges
    pure (range.map fun range => (range, ranges))

def MemoryRanges.new (root : Node) : Exec σ ε MemoryRanges := do
  let addressing ← childAddressing root
  let layout ← expect "validated memory addressing must be representable"
    (ofExcept (RegLayout.new addressing))
  pure ⟨root.children, none, layout⟩

def MemoryRanges.round : Unit → Exec MemoryRanges ε (Unit ⊕ Option RegRange) := fun _ => do
  let it ← get
  match ← nextOfCurrent it.current with
  | some (range, ranges) =>
    modify fun it => { it with current := some ranges }
    pure (.inr (some range))
  | none =>
    modify fun it => { it with current := none }
    let found ← zoom MemoryRanges.nodes (fun nodes it => { it with nodes := nodes })
      (findNext Children.next isMemoryNode (it.nodes.reader.bytes.length + 1))
    match found with
    | none => pure (.inr none)
    | some node =>
      match ← node.property (ascii "reg") with
      | none => abort (.panicked "validated memory node must contain reg")
      | some reg =>
        modify fun it => { it with current := some ⟨reg.value, it.layout⟩ }
        pure (.inl ())

def MemoryRanges.next : Exec MemoryRanges ε (Option RegRange) := do
  let it ← get
  iterate MemoryRanges.round (it.nodes.reader.bytes.length + 1) ()

/-! ## Reserved memory -/

def reservedMemory.mapError : RegRangeError → SemanticError
  | .empty => .emptyReservedMemoryReg
  | .addressDoesNotFitU64 => .reservedMemoryAddressDoesNotFitU64
  | .sizeDoesNotFitU64 => .reservedMemorySizeDoesNotFitU64
  | .zeroSize => .zeroReservedMemorySize
  | .endOverflow => .reservedMemoryRangeEndOverflow

def reservedMemoryNode (root : Node) : Exec σ ε (Option Node) :=
  root.child (ascii "reserved-memory")

def validateParent (node : Node) : Exec σ SemanticError Unit := do
  if (← node.property (ascii "#address-cells")).isNone then fail .missingReservedMemoryAddressCells
  else if (← node.property (ascii "#size-cells")).isNone then fail .missingReservedMemorySizeCells
  else
    match ← node.property (ascii "ranges") with
    | none => fail .missingReservedMemoryRanges
    | some ranges =>
      if !ranges.value.isEmpty then fail .nonEmptyReservedMemoryRanges else pure ()

def validateChild (node : Node) (layout : RegLayout) : Exec σ SemanticError Unit := do
  match ← node.property (ascii "reg") with
  | some reg => Exec.mapError reservedMemory.mapError (regRange.validate reg.value layout)
  | none =>
    if (← node.property (ascii "size")).isSome then fail .unsupportedDynamicReservedMemory
    else fail .missingReservedMemoryAllocation

def reservedMemory.validate (root : Node) : Exec σ SemanticError Unit := do
  match ← reservedMemoryNode root with
  | none => pure ()
  | some node =>
    validateParent node
    let addressing ← childAddressing node
    if addressing.addressCells = 0 then fail .invalidReservedMemoryAddressCells
    else if addressing.sizeCells = 0 then fail .invalidReservedMemorySizeCells
    else do
      let layout ← ofExcept (RegLayout.new addressing)
      foldIter Children.next (fun _ child => validateChild child layout) node.bound node.children ()

/-- The static ranges below `/reserved-memory`. -/
structure ReservedMemoryRanges where
  nodes : Option NodeIter
  current : Option RegRanges
  layout : Option RegLayout

def ReservedMemoryRanges.new (root : Node) : Exec σ ε ReservedMemoryRanges := do
  match ← reservedMemoryNode root with
  | none => pure ⟨none, none, none⟩
  | some node =>
    let addressing ← childAddressing node
    let layout ← expect "validated reserved-memory addressing must be representable"
      (ofExcept (RegLayout.new addressing))
    pure ⟨some node.children, none, some layout⟩

def ReservedMemoryRanges.round :
    Unit → Exec ReservedMemoryRanges ε (Unit ⊕ Option RegRange) := fun _ => do
  let it ← get
  match ← nextOfCurrent it.current with
  | some (range, ranges) =>
    modify fun it => { it with current := some ranges }
    pure (.inr (some range))
  | none =>
    modify fun it => { it with current := none }
    match it.nodes with
    | none => pure (.inr none)
    | some nodes =>
      let (found, nodes) ← advance Children.next nodes
      modify fun it => { it with nodes := some nodes }
      match found with
      | none => pure (.inr none)
      | some node =>
        match ← node.property (ascii "reg") with
        | none => abort (.panicked "validated static reserved-memory child must contain reg")
        | some reg =>
          match it.layout with
          | none => abort (.panicked "present reserved-memory node must have a validated layout")
          | some layout =>
            modify fun it => { it with current := some ⟨reg.value, layout⟩ }
            pure (.inl ())

def ReservedMemoryRanges.next : Exec ReservedMemoryRanges ε (Option RegRange) := do
  let it ← get
  iterate ReservedMemoryRanges.round ((it.nodes.map fun n => n.reader.bytes.length).getD 0 + 1) ()

/-! ## All passes -/

def validateRequiredRootNodes (root : Node) : Exec σ SemanticError Unit := do
  let (cpusSeen, memorySeen) ← foldIter Children.next (fun (seen : Bool × Bool) child =>
    pure (seen.1 || child.name == ascii "cpus", seen.2 || child.nameComponent == ascii "memory"))
    root.bound root.children (false, false)
  if !cpusSeen then fail .missingCpusNode
  else if !memorySeen then fail .missingMemoryNode
  else pure ()

def Structure.validateSemantics (structure_ : Structure) (strings : Strings) :
    Exec σ StructureError Unit := do
  let root ← structure_.root strings
  Exec.mapError .semantic (do
    validateRequiredRootNodes root
    addressing.validate root
    memory.validate root
    reservedMemory.validate root)

end Barebone.Devicetree

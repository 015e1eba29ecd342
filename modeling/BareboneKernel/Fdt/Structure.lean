import BareboneKernel.Fdt.Names

/-!
# The structure block

The single-pass validator of the structure block (`Structure::new`), with the two helpers that
scan an already consumed prefix again: `findPriorSiblingNode` for duplicate node names and
`findProperty` for duplicate property names.

Every loop reads at least one token of four bytes in each round, so the length of the block bounds
it.
-/

set_option autoImplicit false

namespace Barebone.Devicetree

open Exec Endian

/-- Errors of devicetree-wide semantic rules. -/
inductive SemanticError where
  | missingCpusNode
  | missingMemoryNode
  | unitAddressWithoutReg
  | invalidAddressCells (length : ℕ)
  | invalidSizeCells (length : ℕ)
  | invalidRegLength (length entrySize : ℕ)
  | regEntrySizeOverflow (addressCells sizeCells : ℕ)
  | missingMemoryDeviceType
  | invalidMemoryDeviceType
  | missingMemoryReg
  | memoryAddressDoesNotFitU64
  | memorySizeDoesNotFitU64
  | invalidMemoryAddressCells
  | invalidMemorySizeCells
  | emptyMemoryReg
  | zeroMemorySize
  | missingReservedMemoryAddressCells
  | missingReservedMemorySizeCells
  | missingReservedMemoryRanges
  | nonEmptyReservedMemoryRanges
  | invalidReservedMemoryAddressCells
  | invalidReservedMemorySizeCells
  | missingReservedMemoryAllocation
  | unsupportedDynamicReservedMemory
  | emptyReservedMemoryReg
  | reservedMemoryAddressDoesNotFitU64
  | reservedMemorySizeDoesNotFitU64
  | zeroReservedMemorySize
  | reservedMemoryRangeEndOverflow
  | memoryRangeEndOverflow
  deriving DecidableEq

/-- Errors encountered while validating a structure block. -/
inductive StructureError where
  | read (error : ReadError)
  | invalidToken (offset value : ℕ)
  | expectedRootNode (offset found : ℕ)
  | rootNameNotEmpty (offset : ℕ) (firstByte : UInt8)
  | unterminatedNodeName (offset : ℕ)
  | invalidNodeName (tokenOffset nameOffset parentDepth : ℕ) (source : NodeNameError)
  | duplicateNodeName (firstNodeOffset duplicateNodeOffset parentDepth : ℕ)
  | propertyAfterChild (offset depth : ℕ)
  | invalidPropertyName (propertyOffset nameOffset : ℕ) (source : PropertyNameError)
  | duplicatePropertyName (firstPropertyOffset duplicatePropertyOffset nameOffset depth : ℕ)
  | prematureEnd (offset depth : ℕ)
  | expectedEnd (offset found : ℕ)
  | trailingData (offset remaining : ℕ)
  | semantic (error : SemanticError)
  deriving DecidableEq

/-- Token values of a structure block. -/
inductive Token where
  | beginNode
  | endNode
  | property
  | nop
  | fdtEnd
  deriving DecidableEq

namespace Token

/-- The encoded value of a token. -/
def value : Token → ℕ
  | beginNode => 0x1
  | endNode => 0x2
  | property => 0x3
  | nop => 0x4
  | fdtEnd => 0x9

/-- Decodes a token value. -/
def parse (value offset : ℕ) : Except StructureError Token :=
  if value = beginNode.value then .ok beginNode
  else if value = endNode.value then .ok endNode
  else if value = property.value then .ok property
  else if value = nop.value then .ok nop
  else if value = fdtEnd.value then .ok fdtEnd
  else .error (.invalidToken offset value)

theorem parse_eq_ok {value offset : ℕ} {t : Token} : parse value offset = .ok t ↔ value = t.value := by
  unfold parse
  constructor
  · intro h
    split_ifs at h <;> cases h <;> assumption
  · rintro rfl
    cases t <;> simp [Token.value]

end Token

/-- Which tokens may still appear in the current node. -/
inductive NodePhase where
  | properties
  | children
  deriving DecidableEq

/-- Reads and decodes the next token, with the offset at which it begins. -/
def readToken : Exec Reader StructureError (ℕ × Token) := do
  let r ← get
  let value ← mapError .read Reader.readU32
  let token ← ofExcept (Token.parse value r.position)
  pure (r.position, token)

/-- Reads tokens until one other than `FDT_NOP` is found. -/
def readNonNopToken : Exec Reader StructureError (ℕ × Token) := do
  let r ← get
  iterate (fun _ => do
    let (offset, token) ← readToken
    if token ≠ .nop then pure (.inr (offset, token)) else pure (.inl ()))
    (r.bytes.length + 1) ()

/-- One round of the scan for an earlier sibling; the loop variables are the depth and the sibling
found so far. -/
def siblingRound (nodeOffset parentDepth : ℕ) (name : List UInt8) :
    ℕ × Option ℕ → Exec Reader StructureError ((ℕ × Option ℕ) ⊕ Option ℕ)
  | (depth, matchingSibling) => do
    let r ← get
    if r.position < nodeOffset then do
      let (tokenOffset, token) ← readToken
      match token with
      | .beginNode =>
        let nodeName ← mapError .read Reader.readNulTerminated
        let _ ← mapError .read Reader.alignTo4
        let matchingSibling :=
          if depth = parentDepth ∧ nodeName = name then some tokenOffset else matchingSibling
        -- a node that opens at the parent's depth is another candidate parent
        let matchingSibling := if depth + 1 = parentDepth then none else matchingSibling
        pure (.inl (depth + 1, matchingSibling))
      | .endNode =>
        require (0 < depth) "attempt to subtract with overflow"
        pure (.inl (depth - 1, matchingSibling))
      | .property =>
        let length ← mapError .read Reader.readU32
        let _ ← mapError .read Reader.readU32
        let _ ← mapError .read (Reader.readBytes length)
        let _ ← mapError .read Reader.alignTo4
        pure (.inl (depth, matchingSibling))
      | .nop => pure (.inl (depth, matchingSibling))
      | .fdtEnd => abort (.panicked "validated structure prefix cannot contain FDT_END")
    else pure (.inr matchingSibling)

/-- Searches the consumed prefix for an earlier sibling called `name`. -/
def findPriorSiblingNode {σ : Type} (bytes : List UInt8) (structureStart nodeOffset parentDepth : ℕ)
    (name : List UInt8) : Exec σ StructureError (Option ℕ) :=
  onLocal (Reader.new bytes) do
    let _ ← mapError .read (Reader.readBytes structureStart)
    iterate (siblingRound nodeOffset parentDepth name) (bytes.length + 1) (1, none)

/-- One round of the scan for an earlier property. Every token but `FDT_NOP` is read as a
property. -/
def propertyRound (propertiesEnd : ℕ) (name : List UInt8) (strings : Strings) :
    Unit → Exec Reader StructureError (Unit ⊕ Option ℕ) := fun _ => do
  let r ← get
  if r.position < propertiesEnd then do
    let (tokenOffset, token) ← readToken
    if token = .nop then pure (.inl ())
    else do
      let length ← mapError .read Reader.readU32
      let nameOffset ← mapError .read Reader.readU32
      match ← attempt (strings.validatePropertyName nameOffset) with
      | .error _ =>
        abort (.panicked "validated property prefix contains an invalid property-name reference")
      | .ok propertyName =>
        if propertyName = name then pure (.inr (some tokenOffset))
        else do
          let _ ← mapError .read (Reader.readBytes length)
          let _ ← mapError .read Reader.alignTo4
          pure (.inl ())
  else pure (.inr none)

/-- Searches the properties already consumed in the current node for `name`. -/
def findProperty {σ : Type} (bytes : List UInt8) (propertiesStart propertiesEnd : ℕ)
    (name : List UInt8) (strings : Strings) : Exec σ StructureError (Option ℕ) :=
  onLocal (Reader.new bytes) do
    let _ ← mapError .read (Reader.readBytes propertiesStart)
    iterate (propertyRound propertiesEnd name strings) (bytes.length + 1) ()

/-- Reads and validates one property of the current node, its token already consumed. -/
def validateProperty (bytes : List UInt8) (strings : Strings)
    (propertiesStart tokenOffset depth : ℕ) : Exec Reader StructureError Unit := do
  let length ← mapError .read Reader.readU32
  let nameOffset ← mapError .read Reader.readU32
  let name ← mapError (.invalidPropertyName tokenOffset nameOffset)
    (strings.validatePropertyName nameOffset)
  let _ ← mapError .read (Reader.readBytes length)
  let _ ← mapError .read Reader.alignTo4
  match ← findProperty bytes propertiesStart tokenOffset name strings with
  | some firstPropertyOffset =>
    fail (.duplicatePropertyName firstPropertyOffset tokenOffset nameOffset depth)
  | none => pure ()

/-- The variables of the validator's main loop. -/
structure LoopState where
  depth : ℕ
  phase : NodePhase
  propertiesStart : ℕ

/-- One round of the validator's main loop. -/
def structureRound (bytes : List UInt8) (strings : Strings) (rootContentStart : ℕ)
    (st : LoopState) : Exec Reader StructureError (LoopState ⊕ Unit) :=
  if st.depth > 0 then do
    let (tokenOffset, token) ← readToken
    match token with
    | .beginNode =>
      let r ← get
      let name ← mapError (fun _ => .unterminatedNodeName r.position) Reader.readNulTerminated
      ofExcept ((validateNodeName name).mapError (.invalidNodeName tokenOffset r.position st.depth))
      let _ ← mapError .read Reader.alignTo4
      match ← findPriorSiblingNode bytes rootContentStart tokenOffset st.depth name with
      | some firstNodeOffset => fail (.duplicateNodeName firstNodeOffset tokenOffset st.depth)
      | none =>
        let r ← get
        pure (.inl ⟨st.depth + 1, .properties, r.position⟩)
    | .endNode =>
      if st.depth - 1 > 0 then pure (.inl ⟨st.depth - 1, .children, st.propertiesStart⟩)
      else pure (.inl ⟨st.depth - 1, st.phase, st.propertiesStart⟩)
    | .property =>
      if st.phase = .children then fail (.propertyAfterChild tokenOffset st.depth)
      else do
        validateProperty bytes strings st.propertiesStart tokenOffset st.depth
        pure (.inl st)
    | .nop => pure (.inl st)
    | .fdtEnd => fail (.prematureEnd tokenOffset st.depth)
  else pure (.inr ())

/-- A structurally validated structure block. -/
structure Structure where
  bytes : List UInt8
  deriving DecidableEq

/-- Validates a structure block. -/
def Structure.new {σ : Type} (bytes : List UInt8) (strings : Strings) :
    Exec σ StructureError Structure :=
  onLocal (Reader.new bytes) do
    let (rootTokenOffset, token) ← readNonNopToken
    if token ≠ .beginNode then fail (.expectedRootNode rootTokenOffset token.value)
    else do
      let r ← get
      let firstByte ← mapError .read Reader.readU8
      if firstByte ≠ 0 then fail (.rootNameNotEmpty r.position firstByte)
      else do
        let _ ← mapError .read Reader.alignTo4
        let r ← get
        iterate (structureRound bytes strings r.position) (bytes.length + 1)
          ⟨1, .properties, r.position⟩
        let (endTokenOffset, token) ← readNonNopToken
        if token ≠ .fdtEnd then fail (.expectedEnd endTokenOffset token.value)
        else do
          let r ← get
          if r.remaining ≠ 0 then fail (.trailingData r.position r.remaining)
          else pure ⟨bytes⟩

end Barebone.Devicetree

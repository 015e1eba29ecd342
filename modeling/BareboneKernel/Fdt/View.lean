import BareboneKernel.Fdt.Structure
import BareboneKernel.Lib.Iter

/-!
# Navigation

The read-only views of a validated structure block: nodes, their properties, their children and
their descendants. The views read the block again and take every failure of a read as an internal
error, so their programs have no errors of their own; they can only be aborted.

A `Node` holds the bytes from its name on; they extend past its end.
-/

set_option autoImplicit false

namespace Barebone.Devicetree

open Exec

variable {ε : Type}

/-! ## The validated reader -/

namespace ValidatedReader

def readU32 : Exec Reader ε ℕ := expect "validated structure remains readable" Reader.readU32

def readBytes (length : ℕ) : Exec Reader ε (List UInt8) :=
  expect "validated structure remains readable" (Reader.readBytes length)

def readNulTerminated : Exec Reader ε (List UInt8) :=
  expect "validated node name remains readable" Reader.readNulTerminated

def alignTo4 : Exec Reader ε Unit := do
  let _ ← expect "validated structure contains required alignment" Reader.alignTo4
  pure ()

def readToken : Exec Reader ε Token := do
  let (_, token) ← expect "validated structure contains a valid token" Devicetree.readToken
  pure token

/-- Reads the next token other than `FDT_NOP`. -/
def readNonNopToken : Exec Reader ε Token := do
  let r ← get
  iterate (fun _ => do
    let token ← readToken
    if token ≠ .nop then pure (.inr token) else pure (.inl ())) (r.bytes.length + 1) ()

/-- Reads a node name and its padding. -/
def readNodeName : Exec Reader ε (List UInt8) := do
  let name ← readNulTerminated
  alignTo4
  pure name

/-- Skips the operands and padding of a property. -/
def skipProperty : Exec Reader ε Unit := do
  let length ← readU32
  let _ ← readU32
  let _ ← readBytes length
  alignTo4

end ValidatedReader

/-- A property of a node. -/
structure Property where
  name : List UInt8
  value : List UInt8
  deriving DecidableEq

/-- Reads a property and resolves its name. -/
def ValidatedReader.readProperty (strings : Strings) : Exec Reader ε Property := do
  let length ← readU32
  let nameOffset ← readU32
  let name ← expect "validated property references a validated property name"
    (strings.validatePropertyName nameOffset)
  let value ← readBytes length
  alignTo4
  pure ⟨name, value⟩

/-! ## Nodes and their iterators -/

/-- A view of one node: its full name and the bytes after its padded name. -/
structure Node where
  name : List UInt8
  content : List UInt8
  strings : Strings

/-- The properties of a node. -/
structure Properties where
  reader : Reader
  strings : Strings
  finished : Bool

namespace Properties

def new (content : List UInt8) (strings : Strings) : Properties := ⟨Reader.new content, strings, false⟩

def onReader {α : Type} (c : Exec Reader ε α) : Exec Properties ε α :=
  zoom reader (fun r it => { it with reader := r }) c

def nextRound : Unit → Exec Properties ε (Unit ⊕ Option Property) := fun _ => do
  match ← onReader ValidatedReader.readToken with
  | .property =>
    let it ← get
    let property ← onReader (ValidatedReader.readProperty it.strings)
    pure (.inr (some property))
  | .nop => pure (.inl ())
  | .beginNode | .endNode =>
    modify fun it => { it with finished := true }
    pure (.inr none)
  | .fdtEnd => abort (.panicked "validated node must end before the structure block terminator")

def next : Exec Properties ε (Option Property) := do
  let it ← get
  if it.finished then pure none else iterate nextRound (it.reader.bytes.length + 1) ()

end Properties

/-- The nodes below a node, at a depth relative to it. `Children` and `Descendants` have the same
fields; they differ in the depths whose nodes they yield and in the text of a panic. -/
structure NodeIter where
  reader : Reader
  strings : Strings
  depth : ℕ
  finished : Bool

namespace NodeIter

def new (content : List UInt8) (strings : Strings) : NodeIter :=
  ⟨Reader.new content, strings, 0, false⟩

def onReader {α : Type} (c : Exec Reader ε α) : Exec NodeIter ε α :=
  zoom reader (fun r it => { it with reader := r }) c

def nextRound (yields : ℕ → Bool) (message : String) :
    Unit → Exec NodeIter ε (Unit ⊕ Option Node) := fun _ => do
  match ← onReader ValidatedReader.readToken with
  | .property =>
    onReader ValidatedReader.skipProperty
    pure (.inl ())
  | .nop => pure (.inl ())
  | .beginNode =>
    let name ← onReader ValidatedReader.readNodeName
    let it ← get
    modify fun it => { it with depth := it.depth + 1 }
    if yields it.depth then pure (.inr (some ⟨name, it.reader.remainingBytes, it.strings⟩))
    else pure (.inl ())
  | .endNode =>
    let it ← get
    if it.depth = 0 then do
      modify fun it => { it with finished := true }
      pure (.inr none)
    else do
      modify fun it => { it with depth := it.depth - 1 }
      pure (.inl ())
  | .fdtEnd => abort (.panicked message)

def next (yields : ℕ → Bool) (message : String) : Exec NodeIter ε (Option Node) := do
  let it ← get
  if it.finished then pure none
  else iterate (nextRound yields message) (it.reader.bytes.length + 1) ()

end NodeIter

/-- `Children::next`: the nodes directly below. -/
def Children.next : Exec NodeIter ε (Option Node) :=
  NodeIter.next (· == 0) "validated node must end before the structure block terminator"

/-- `Descendants::next`: all nodes below. -/
def Descendants.next : Exec NodeIter ε (Option Node) :=
  NodeIter.next (fun _ => true) "validated node must end before structure terminator"

namespace Node

/-- The node-name component without its unit address. -/
def nameComponent (node : Node) : List UInt8 := component node.name

/-- The unit address, when present. -/
def unitAddress (node : Node) : Option (List UInt8) := Devicetree.unitAddress node.name

def properties (node : Node) : Properties := .new node.content node.strings

def children (node : Node) : NodeIter := .new node.content node.strings

def descendants (node : Node) : NodeIter := .new node.content node.strings

/-- A bound for the loops over the properties and the children of a node. -/
def bound (node : Node) : ℕ := node.content.length + 1

/-- The first property called `name`. -/
def property {σ : Type} (node : Node) (name : List UInt8) : Exec σ ε (Option Property) :=
  onLocal node.properties (findNext Properties.next (·.name == name) node.bound)

/-- The first child called `name`. -/
def child {σ : Type} (node : Node) (name : List UInt8) : Exec σ ε (Option Node) :=
  onLocal node.children (findNext Children.next (·.name == name) node.bound)

end Node

/-- The root of a validated structure block. -/
def Structure.root {σ : Type} (structure_ : Structure) (strings : Strings) : Exec σ ε Node :=
  onLocal (Reader.new structure_.bytes) do
    let token ← ValidatedReader.readNonNopToken
    require (token = .beginNode) "assertion failed: token == Token::BeginNode"
    let name ← ValidatedReader.readNodeName
    require (name = []) "assertion failed: name == []"
    let r ← get
    pure ⟨name, r.remainingBytes, strings⟩

end Barebone.Devicetree

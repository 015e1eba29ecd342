import BareboneKernel.Fdt.Structure

/-!
# The grammar of the structure block

* `Lexeme`: a token with its operands and its alignment padding, as it stands in the block;
  `Lexeme.encode` is its big-endian serialization;
* `Tree`: the tree a block denotes; `Tree.symbols` lists its tokens, without `FDT_NOP` and padding;
* `Denotes bytes t`: the block is the serialization of `t` with any `FDT_NOP` words between tokens
  and any padding bytes, followed by `FDT_END` and nothing else;
* `Tree.Valid`: the naming and uniqueness rules.

`Step` reads a block token by token with an explicit stack of open nodes. **`steps_iff`**: it
reaches the end with the tree `t` exactly when the tokens are those of the valid tree `t`.
-/

set_option autoImplicit false

namespace Barebone.Devicetree

open Endian

/-! ## Lexemes -/

/-- A token with its operands and padding. -/
inductive Lexeme where
  | beginNode (name pad : List UInt8)
  | endNode
  | property (nameOffset : ℕ) (value pad : List UInt8)
  | nop
  | fdtEnd

namespace Lexeme

/-- The big-endian serialization of a lexeme. -/
def encode : Lexeme → List UInt8
  | beginNode name pad => toBE 4 Token.beginNode.value ++ ((name ++ [0]) ++ pad)
  | endNode => toBE 4 Token.endNode.value
  | property nameOffset value pad =>
    toBE 4 Token.property.value ++ (toBE 4 value.length ++ (toBE 4 nameOffset ++ (value ++ pad)))
  | nop => toBE 4 Token.nop.value
  | fdtEnd => toBE 4 Token.fdtEnd.value

/-- The operands fit their fields and the padding reaches the next multiple of four. -/
def WF : Lexeme → Prop
  | beginNode name pad => 0 ∉ name ∧ pad.length = padding (name.length + 1)
  | property nameOffset value pad =>
    nameOffset < 2 ^ 32 ∧ value.length < 2 ^ 32 ∧ pad.length = padding value.length
  | _ => True

theorem length_encode_mod {l : Lexeme} (h : l.WF) : l.encode.length % 4 = 0 := by
  cases l with
  | beginNode name pad =>
    have := add_padding_mod (name.length + 1)
    have := h.2
    simp only [encode, List.length_append, length_toBE, List.length_singleton]
    omega
  | property nameOffset value pad =>
    have := add_padding_mod value.length
    have := h.2.2
    simp only [encode, List.length_append, length_toBE]
    omega
  | _ => simp [encode]

theorem four_le_length_encode (l : Lexeme) : 4 ≤ l.encode.length := by
  cases l <;> simp [encode]

end Lexeme

/-- The serialization of a sequence of lexemes. -/
def encodeAll (ls : List Lexeme) : List UInt8 := ls.flatMap Lexeme.encode

@[simp] theorem encodeAll_nil : encodeAll [] = [] := rfl

@[simp] theorem encodeAll_cons (l : Lexeme) (ls : List Lexeme) :
    encodeAll (l :: ls) = l.encode ++ encodeAll ls := rfl

@[simp] theorem encodeAll_append (ls ls' : List Lexeme) :
    encodeAll (ls ++ ls') = encodeAll ls ++ encodeAll ls' := List.flatMap_append

theorem length_encodeAll_mod {ls : List Lexeme} (h : ∀ l ∈ ls, l.WF) :
    (encodeAll ls).length % 4 = 0 := by
  induction ls with
  | nil => rfl
  | cons l ls ih =>
    have := Lexeme.length_encode_mod (h l List.mem_cons_self)
    have := ih fun l' hl => h l' (List.mem_cons_of_mem _ hl)
    rw [encodeAll_cons, List.length_append]
    omega

theorem length_le_length_encodeAll (ls : List Lexeme) : 4 * ls.length ≤ (encodeAll ls).length := by
  induction ls with
  | nil => simp
  | cons l ls ih =>
    have := l.four_le_length_encode
    rw [encodeAll_cons, List.length_append, List.length_cons]
    omega

/-! ## Trees -/

/-- A property: the strings-block offset of its name and its value. -/
structure PropertyEntry where
  nameOffset : ℕ
  value : List UInt8
  deriving DecidableEq

/-- A devicetree. -/
inductive Tree where
  | node (name : List UInt8) (properties : List PropertyEntry) (children : List Tree)

/-- The meaningful part of a lexeme. -/
inductive Symbol where
  | opening (name : List UInt8)
  | closing
  | property (entry : PropertyEntry)
  | stop

/-- The symbol of a lexeme; `FDT_NOP` has none. -/
def Lexeme.symbol : Lexeme → Option Symbol
  | .beginNode name _ => some (.opening name)
  | .endNode => some .closing
  | .property nameOffset value _ => some (.property ⟨nameOffset, value⟩)
  | .nop => none
  | .fdtEnd => some .stop

/-- The symbols of a sequence of lexemes. -/
def symbols (ls : List Lexeme) : List Symbol := ls.filterMap Lexeme.symbol

namespace Tree

def name : Tree → List UInt8
  | node name _ _ => name

def properties : Tree → List PropertyEntry
  | node _ properties _ => properties

def children : Tree → List Tree
  | node _ _ children => children

mutual

/-- The token sequence of a tree. -/
def symbols : Tree → List Symbol
  | node name properties children =>
    .opening name :: (properties.map .property ++ (forest children ++ [.closing]))

/-- The token sequence of consecutive siblings. -/
def forest : List Tree → List Symbol
  | [] => []
  | t :: ts => t.symbols ++ forest ts

end

theorem forest_append (ts ts' : List Tree) : forest (ts ++ ts') = forest ts ++ forest ts' := by
  induction ts with
  | nil => simp [forest]
  | cons t ts ih => simp [forest, ih]

/-- The naming and uniqueness rules below a node: property offsets resolve, to pairwise distinct
names; names of children are valid and pairwise distinct; and so on in every child. -/
inductive Valid (strings : Strings) : Tree → Prop
  | node {name : List UInt8} {properties : List PropertyEntry} {children : List Tree}
      (resolves : ∀ p ∈ properties, ∃ n, strings.Resolves p.nameOffset n)
      (distinct : properties.Pairwise fun p q => ∀ n, strings.Resolves p.nameOffset n →
        ¬ strings.Resolves q.nameOffset n)
      (names : ∀ c ∈ children, ValidNodeName c.name)
      (siblings : children.Pairwise fun a b => a.name ≠ b.name)
      (below : ∀ c ∈ children, Valid strings c) :
      Valid strings (node name properties children)

end Tree

/-- The block is a serialization of the tree. -/
def Denotes (bytes : List UInt8) (t : Tree) : Prop :=
  ∃ ls : List Lexeme, (∀ l ∈ ls, l.WF) ∧ symbols ls = t.symbols ∧
    bytes = encodeAll (ls ++ [.fdtEnd])

/-! ## Reading with a stack of open nodes -/

/-- A node whose end has not been read. -/
structure OpenNode where
  name : List UInt8
  properties : List PropertyEntry
  children : List Tree

/-- The node, closed. -/
def OpenNode.close (n : OpenNode) : Tree := .node n.name n.properties n.children

/-- The node with one more child. -/
def OpenNode.addChild (n : OpenNode) (t : Tree) : OpenNode := { n with children := n.children ++ [t] }

/-- The node with one more property. -/
def OpenNode.addProperty (n : OpenNode) (p : PropertyEntry) : OpenNode :=
  { n with properties := n.properties ++ [p] }

/-- How far a block has been read. -/
inductive ParseState where
  | start
  | inside (node : OpenNode) (outer : List OpenNode)
  | closed (t : Tree)
  | done (t : Tree)

/-- One lexeme. -/
inductive Step (strings : Strings) : ParseState → Lexeme → ParseState → Prop
  | startNop : Step strings .start .nop .start
  | root (pad : List UInt8) : Step strings .start (.beginNode [] pad) (.inside ⟨[], [], []⟩ [])
  | insideNop (n : OpenNode) (outer : List OpenNode) :
      Step strings (.inside n outer) .nop (.inside n outer)
  | beginNode {n : OpenNode} {outer : List OpenNode} {name pad : List UInt8}
      (valid : ValidNodeName name) (fresh : ∀ c ∈ n.children, c.name ≠ name) :
      Step strings (.inside n outer) (.beginNode name pad) (.inside ⟨name, [], []⟩ (n :: outer))
  | property {n : OpenNode} {outer : List OpenNode} {nameOffset : ℕ} {value pad name : List UInt8}
      (first : n.children = []) (resolves : strings.Resolves nameOffset name)
      (fresh : ∀ p ∈ n.properties, ¬ strings.Resolves p.nameOffset name) :
      Step strings (.inside n outer) (.property nameOffset value pad)
        (.inside (n.addProperty ⟨nameOffset, value⟩) outer)
  | endInner (n p : OpenNode) (outer : List OpenNode) :
      Step strings (.inside n (p :: outer)) .endNode (.inside (p.addChild n.close) outer)
  | endRoot (n : OpenNode) : Step strings (.inside n []) .endNode (.closed n.close)
  | closedNop (t : Tree) : Step strings (.closed t) .nop (.closed t)
  | stop (t : Tree) : Step strings (.closed t) .fdtEnd (.done t)

/-- A sequence of lexemes. -/
inductive Steps (strings : Strings) : ParseState → List Lexeme → ParseState → Prop
  | nil (s : ParseState) : Steps strings s [] s
  | cons {s s' s'' : ParseState} {l : Lexeme} {ls : List Lexeme} (head : Step strings s l s')
      (tail : Steps strings s' ls s'') : Steps strings s (l :: ls) s''

section Steps

variable {strings : Strings}

theorem Steps.append {s s' s'' : ParseState} {ls ls' : List Lexeme} (h : Steps strings s ls s')
    (h' : Steps strings s' ls' s'') : Steps strings s (ls ++ ls') s'' := by
  induction h with
  | nil => exact h'
  | cons head _ ih => exact .cons head (ih h')

theorem Steps.snoc {s s' s'' : ParseState} {ls : List Lexeme} {l : Lexeme}
    (h : Steps strings s ls s') (h' : Step strings s' l s'') : Steps strings s (ls ++ [l]) s'' :=
  h.append (.cons h' (.nil _))

theorem Steps.append_inv {s s'' : ParseState} {ls ls' : List Lexeme}
    (h : Steps strings s (ls ++ ls') s'') : ∃ s', Steps strings s ls s' ∧ Steps strings s' ls' s'' := by
  induction ls generalizing s with
  | nil => exact ⟨s, .nil s, h⟩
  | cons l ls ih =>
    cases h with
    | cons head tail =>
      obtain ⟨s', h₁, h₂⟩ := ih tail
      exact ⟨s', .cons head h₁, h₂⟩

/-! ### Soundness: the symbols read are those of the state, and the state is valid -/

/-- The symbols of an open node. -/
def OpenNode.symbols (n : OpenNode) : List Symbol :=
  .opening n.name :: (n.properties.map .property ++ Tree.forest n.children)

/-- The symbols of the enclosing open nodes, innermost first in the list. -/
def outerSymbols : List OpenNode → List Symbol
  | [] => []
  | n :: outer => outerSymbols outer ++ n.symbols

/-- The symbols of a parse state. -/
def ParseState.symbols : ParseState → List Symbol
  | .start => []
  | .inside n outer => outerSymbols outer ++ n.symbols
  | .closed t => t.symbols
  | .done t => t.symbols ++ [.stop]

theorem OpenNode.symbols_close (n : OpenNode) : n.close.symbols = n.symbols ++ [.closing] := by
  simp [OpenNode.close, OpenNode.symbols, Tree.symbols]

theorem OpenNode.symbols_addChild (n : OpenNode) (t : Tree) :
    (n.addChild t).symbols = n.symbols ++ t.symbols := by
  simp [OpenNode.addChild, OpenNode.symbols, Tree.forest_append, Tree.forest]

theorem Step.symbols_eq {s s' : ParseState} {l : Lexeme} (h : Step strings s l s') :
    s'.symbols = s.symbols ++ l.symbol.toList := by
  cases h with
  | property first _ _ =>
    simp [ParseState.symbols, OpenNode.symbols, OpenNode.addProperty, Lexeme.symbol, first,
      Tree.forest]
  | endInner n p outer =>
    simp [ParseState.symbols, outerSymbols, OpenNode.symbols_addChild, OpenNode.symbols_close,
      Lexeme.symbol]
  | endRoot n => simp [ParseState.symbols, outerSymbols, OpenNode.symbols_close, Lexeme.symbol]
  | _ => simp [ParseState.symbols, outerSymbols, OpenNode.symbols, Lexeme.symbol, Tree.forest]

theorem Steps.symbols_eq {s s' : ParseState} {ls : List Lexeme} (h : Steps strings s ls s') :
    s'.symbols = s.symbols ++ symbols ls := by
  induction h with
  | nil => simp [symbols]
  | @cons s s' s'' l ls head _ ih =>
    rw [ih, head.symbols_eq, List.append_assoc]
    cases hl : l.symbol <;> simp [symbols, hl]

/-- The rules hold for the node as far as it has been read. -/
def OpenNode.Valid (strings : Strings) (n : OpenNode) : Prop := n.close.Valid strings

/-- The rules hold for all open nodes: each is valid so far and fits into the node around it. -/
def StackValid (strings : Strings) : OpenNode → List OpenNode → Prop
  | n, [] => n.Valid strings ∧ n.name = []
  | n, p :: outer => n.Valid strings ∧ ValidNodeName n.name ∧ (∀ c ∈ p.children, c.name ≠ n.name) ∧
      StackValid strings p outer

/-- The rules hold for what has been read. -/
def ParseState.Valid (strings : Strings) : ParseState → Prop
  | .start => True
  | .inside n outer => StackValid strings n outer
  | .closed t => t.Valid strings ∧ t.name = []
  | .done t => t.Valid strings ∧ t.name = []

theorem OpenNode.valid_new (name : List UInt8) : OpenNode.Valid strings ⟨name, [], []⟩ :=
  .node (by simp) .nil (by simp) .nil (by simp)

theorem OpenNode.Valid.addChild {n : OpenNode} {t : Tree} (hn : n.Valid strings)
    (ht : t.Valid strings) (hname : ValidNodeName t.name) (hfresh : ∀ c ∈ n.children, c.name ≠ t.name) :
    (n.addChild t).Valid strings := by
  rcases hn with @⟨_, _, _, h₁, h₂, h₃, h₄, h₅⟩
  refine .node h₁ h₂ ?_ ?_ ?_
  · intro c hc
    rcases List.mem_append.mp hc with hc | hc
    · exact h₃ c hc
    · rw [List.mem_singleton.mp hc]; exact hname
  · refine List.pairwise_append.mpr ⟨h₄, List.pairwise_singleton _ _, fun a ha b hb => ?_⟩
    rw [List.mem_singleton.mp hb]
    exact hfresh a ha
  · intro c hc
    rcases List.mem_append.mp hc with hc | hc
    · exact h₅ c hc
    · rw [List.mem_singleton.mp hc]; exact ht

theorem OpenNode.Valid.addProperty {n : OpenNode} {p : PropertyEntry} {name : List UInt8}
    (hn : n.Valid strings) (hp : strings.Resolves p.nameOffset name)
    (hfresh : ∀ q ∈ n.properties, ¬ strings.Resolves q.nameOffset name) :
    (n.addProperty p).Valid strings := by
  rcases hn with @⟨_, _, _, h₁, h₂, h₃, h₄, h₅⟩
  refine .node ?_ ?_ h₃ h₄ h₅
  · intro q hq
    rcases List.mem_append.mp hq with hq | hq
    · exact h₁ q hq
    · rw [List.mem_singleton.mp hq]; exact ⟨name, hp⟩
  · refine List.pairwise_append.mpr ⟨h₂, List.pairwise_singleton _ _, fun a ha b hb n' hn' hb' => ?_⟩
    rw [List.mem_singleton.mp hb] at hb'
    exact hfresh a ha (hp.unique hb' ▸ hn')

theorem stackValid_update {n n' : OpenNode} {outer : List OpenNode} (h : StackValid strings n outer)
    (hv : n'.Valid strings) (hname : n'.name = n.name) : StackValid strings n' outer := by
  cases outer with
  | nil => exact ⟨hv, hname.trans h.2⟩
  | cons p outer =>
    obtain ⟨-, h₁, h₂, h₃⟩ := h
    refine ⟨hv, ?_, ?_, h₃⟩
    · rw [hname]; exact h₁
    · rw [hname]; exact h₂

theorem stackValid_head {n : OpenNode} {outer : List OpenNode} (h : StackValid strings n outer) :
    n.Valid strings := by
  cases outer with
  | nil => exact h.1
  | cons p outer => exact h.1

theorem Step.valid {s s' : ParseState} {l : Lexeme} (h : Step strings s l s')
    (hs : s.Valid strings) : s'.Valid strings := by
  cases h with
  | startNop => trivial
  | root => exact ⟨OpenNode.valid_new [], rfl⟩
  | insideNop => exact hs
  | beginNode valid fresh => exact ⟨OpenNode.valid_new _, valid, fresh, hs⟩
  | property first resolves fresh =>
    exact stackValid_update hs ((stackValid_head hs).addProperty resolves fresh) rfl
  | endInner n p outer =>
    obtain ⟨hn, hname, hfresh, hp⟩ := hs
    exact stackValid_update hp ((stackValid_head hp).addChild hn hname hfresh) rfl
  | endRoot n => exact hs
  | closedNop => exact hs
  | stop => exact hs

theorem Steps.valid {s s' : ParseState} {ls : List Lexeme} (h : Steps strings s ls s')
    (hs : s.Valid strings) : s'.Valid strings := by
  induction h with
  | nil => exact hs
  | cons head _ ih => exact ih (head.valid hs)

/-! ### Completeness: the lexemes of a valid tree can be read -/

/-- A state in which `FDT_NOP` changes nothing. -/
def Idle (strings : Strings) (s : ParseState) : Prop := Step strings s .nop s

theorem steps_nops {s : ParseState} (hs : Idle strings s) {ls : List Lexeme} (h : symbols ls = []) :
    Steps strings s ls s := by
  induction ls with
  | nil => exact .nil s
  | cons l ls ih =>
    rw [symbols, List.filterMap_eq_nil_iff] at h
    have hl := h l List.mem_cons_self
    cases l with
    | nop =>
      exact .cons hs (ih (List.filterMap_eq_nil_iff.mpr fun l' hl' =>
        h l' (List.mem_cons_of_mem _ hl')))
    | _ => simp [Lexeme.symbol] at hl

/-- The lexeme of the first symbol, after the `FDT_NOP`s before it. -/
theorem symbols_eq_cons {ls : List Lexeme} {y : Symbol} {ys : List Symbol}
    (h : symbols ls = y :: ys) : ∃ nops l ls', ls = nops ++ l :: ls' ∧ symbols nops = [] ∧
      l.symbol = some y ∧ symbols ls' = ys := by
  obtain ⟨nops, l, ls', rfl, hn, hl, hr⟩ := List.filterMap_eq_cons_iff.mp h
  exact ⟨nops, l, ls', rfl, List.filterMap_eq_nil_iff.mpr hn, hl, hr⟩

theorem symbols_eq_append {ls : List Lexeme} {xs ys : List Symbol} (h : symbols ls = xs ++ ys) :
    ∃ ls₁ ls₂, ls = ls₁ ++ ls₂ ∧ symbols ls₁ = xs ∧ symbols ls₂ = ys :=
  List.filterMap_eq_append_iff.mp h

theorem steps_properties {ps : List PropertyEntry} : ∀ (n : OpenNode) (outer : List OpenNode)
    {ls : List Lexeme}, n.children = [] →
    (∀ p ∈ ps, ∃ name, strings.Resolves p.nameOffset name) →
    ((n.properties ++ ps).Pairwise fun p q => ∀ name, strings.Resolves p.nameOffset name →
      ¬ strings.Resolves q.nameOffset name) →
    symbols ls = ps.map .property →
    Steps strings (.inside n outer) ls (.inside { n with properties := n.properties ++ ps } outer) := by
  induction ps with
  | nil =>
    intro n outer ls _ _ _ hls
    rw [List.append_nil]
    exact steps_nops (.insideNop n outer) hls
  | cons p ps ih =>
    intro n outer ls hc hr hd hls
    obtain ⟨nops, l, ls', rfl, hn, hl, hls'⟩ := symbols_eq_cons hls
    cases l with
    | property nameOffset value pad =>
      obtain rfl : (⟨nameOffset, value⟩ : PropertyEntry) = p := by simpa [Lexeme.symbol] using hl
      obtain ⟨name, hname⟩ := hr _ List.mem_cons_self
      have hfresh : ∀ q ∈ n.properties, ¬ strings.Resolves q.nameOffset name := fun q hq hres =>
        (List.pairwise_append.mp hd).2.2 q hq _ List.mem_cons_self name hres hname
      refine (steps_nops (.insideNop n outer) hn).append (.cons (.property hc hname hfresh) ?_)
      have := ih (n.addProperty ⟨nameOffset, value⟩) outer hc
        (fun q hq => hr q (List.mem_cons_of_mem _ hq)) (by simpa [OpenNode.addProperty] using hd) hls'
      simpa [OpenNode.addProperty] using this
    | _ => simp [Lexeme.symbol] at hl

theorem steps_closing {n p : OpenNode} {outer : List OpenNode} {ls : List Lexeme}
    (h : symbols ls = [.closing]) :
    Steps strings (.inside n (p :: outer)) ls (.inside (p.addChild n.close) outer) := by
  obtain ⟨nops, l, ls', rfl, hn, hl, hls'⟩ := symbols_eq_cons h
  cases l with
  | endNode =>
    exact (steps_nops (.insideNop n _) hn).append (.cons (.endInner n p outer)
      (steps_nops (.insideNop _ _) hls'))
  | _ => simp [Lexeme.symbol] at hl

theorem steps_root_closing {n : OpenNode} {ls : List Lexeme} (h : symbols ls = [.closing]) :
    Steps strings (.inside n []) ls (.closed n.close) := by
  obtain ⟨nops, l, ls', rfl, hn, hl, hls'⟩ := symbols_eq_cons h
  cases l with
  | endNode =>
    exact (steps_nops (.insideNop n _) hn).append (.cons (.endRoot n)
      (steps_nops (.closedNop _) hls'))
  | _ => simp [Lexeme.symbol] at hl

/-- Consecutive siblings, given each of them. -/
theorem steps_forest {ts : List Tree}
    (hts : ∀ t ∈ ts, ∀ {n : OpenNode} {outer : List OpenNode} {ls : List Lexeme},
      (∀ c ∈ n.children, c.name ≠ t.name) → symbols ls = t.symbols →
      Steps strings (.inside n outer) ls (.inside (n.addChild t) outer)) :
    ∀ (n : OpenNode) (outer : List OpenNode) {ls : List Lexeme},
    ((n.children ++ ts).Pairwise fun a b => a.name ≠ b.name) → symbols ls = Tree.forest ts →
    Steps strings (.inside n outer) ls (.inside { n with children := n.children ++ ts } outer) := by
  induction ts with
  | nil =>
    intro n outer ls _ hls
    rw [List.append_nil]
    exact steps_nops (.insideNop n outer) hls
  | cons t ts ih =>
    intro n outer ls hd hls
    rw [Tree.forest] at hls
    obtain ⟨ls₁, ls₂, rfl, h₁, h₂⟩ := symbols_eq_append hls
    have hfresh : ∀ c ∈ n.children, c.name ≠ t.name := fun c hc =>
      (List.pairwise_append.mp hd).2.2 c hc t List.mem_cons_self
    refine (hts t List.mem_cons_self hfresh h₁).append ?_
    have := ih (fun t' ht' => hts t' (List.mem_cons_of_mem _ ht')) (n.addChild t) outer
      (by simpa [OpenNode.addChild] using hd) h₂
    simpa [OpenNode.addChild] using this

/-- The part of a valid node after its opening token. -/
theorem steps_content {ps : List PropertyEntry} {cs : List Tree} {name : List UInt8}
    {outer : List OpenNode} {ls : List Lexeme} (hv : (Tree.node name ps cs).Valid strings)
    (hcs : ∀ t ∈ cs, ∀ {n : OpenNode} {outer : List OpenNode} {ls : List Lexeme},
      (∀ c ∈ n.children, c.name ≠ t.name) → symbols ls = t.symbols →
      Steps strings (.inside n outer) ls (.inside (n.addChild t) outer))
    (hls : symbols ls = ps.map .property ++ Tree.forest cs) :
    Steps strings (.inside ⟨name, [], []⟩ outer) ls (.inside ⟨name, ps, cs⟩ outer) := by
  rcases hv with @⟨_, _, _, h₁, h₂, h₃, h₄, h₅⟩
  obtain ⟨ls₁, ls₂, rfl, hp, hc⟩ := symbols_eq_append hls
  have hps := steps_properties ⟨name, [], []⟩ outer rfl h₁ (by simpa using h₂) hp
  have hfs := steps_forest hcs ⟨name, ps, []⟩ outer (by simpa using h₄) hc
  exact hps.append hfs

theorem steps_tree {t : Tree} (ht : t.Valid strings) : ValidNodeName t.name →
    ∀ {n : OpenNode} {outer : List OpenNode} {ls : List Lexeme},
    (∀ c ∈ n.children, c.name ≠ t.name) → symbols ls = t.symbols →
    Steps strings (.inside n outer) ls (.inside (n.addChild t) outer) := by
  induction ht with
  | @node name ps cs h₁ h₂ h₃ h₄ h₅ ih =>
    intro hname n outer ls hfresh hls
    rw [Tree.symbols, ← List.append_assoc] at hls
    obtain ⟨nops, l, ls', rfl, hn, hl, hls'⟩ := symbols_eq_cons hls
    obtain ⟨ls₁, ls₂, rfl, hbody, hclose⟩ := symbols_eq_append hls'
    cases l with
    | beginNode name' pad =>
      obtain rfl : name' = name := by simpa [Lexeme.symbol] using hl
      refine (steps_nops (.insideNop n outer) hn).append (.cons (.beginNode hname hfresh) ?_)
      exact (steps_content (.node h₁ h₂ h₃ h₄ h₅) (fun t ht => ih t ht (h₃ t ht)) hbody).append
        (steps_closing hclose)
    | _ => simp [Lexeme.symbol] at hl

/-- **Reading a block.** The lexemes lead to the end with the tree `t` exactly when `t` is valid,
has an empty root name and its symbols, closed by `FDT_END`, are those of the lexemes. -/
theorem steps_iff {ls : List Lexeme} {t : Tree} :
    Steps strings .start (ls ++ [.fdtEnd]) (.done t) ↔
      t.Valid strings ∧ t.name = [] ∧ symbols ls = t.symbols := by
  constructor
  · intro h
    obtain ⟨hv, hname⟩ := h.valid trivial
    have hs := h.symbols_eq
    have : symbols (ls ++ [.fdtEnd]) = symbols ls ++ [.stop] := by simp [symbols, Lexeme.symbol]
    rw [this] at hs
    exact ⟨hv, hname, (List.append_cancel_right hs).symm⟩
  · rintro ⟨hv, hname, hls⟩
    obtain ⟨name, ps, cs⟩ := t
    obtain rfl : name = [] := hname
    rw [Tree.symbols, ← List.append_assoc] at hls
    obtain ⟨nops, l, ls', rfl, hn, hl, hls'⟩ := symbols_eq_cons hls
    obtain ⟨ls₁, ls₂, rfl, hbody, hclose⟩ := symbols_eq_append hls'
    have hcs : ∀ t ∈ cs, ValidNodeName t.name ∧ t.Valid strings := by
      rcases hv with @⟨_, _, _, h₁, h₂, h₃, h₄, h₅⟩
      exact fun t ht => ⟨h₃ t ht, h₅ t ht⟩
    cases l with
    | beginNode name' pad =>
      obtain rfl : name' = [] := by simpa [Lexeme.symbol] using hl
      refine Steps.snoc ?_ (.stop _)
      refine (steps_nops .startNop hn).append (.cons (.root pad) ?_)
      exact (steps_content hv (fun t ht => steps_tree (hcs t ht).2 (hcs t ht).1) hbody).append
        (steps_root_closing hclose)
    | _ => simp [Lexeme.symbol] at hl

end Steps

end Barebone.Devicetree

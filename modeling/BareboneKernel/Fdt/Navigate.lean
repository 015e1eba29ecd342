import BareboneKernel.Fdt.Accept
import BareboneKernel.Fdt.View

/-!
# The views decode the validated tree

* `Reader.At r ls rest`: the reader stands before the lexemes `ls`;
* `Views node t`: the content of the node view starts with the body of the tree `t`;
* **`Views.yields_properties`**, **`Views.yields_children`**: the iterators of such a view yield
  the properties of `t` with their names resolved, and views of the children of `t`, and then
  nothing;
* `Denotes.unique`: a block denotes at most one tree;
* **`structure_root_decodes`**: reading an accepted block from its root yields the tree it denotes.
-/

set_option autoImplicit false

namespace Barebone.Devicetree

open Exec Endian

variable {σ ε : Type}

/-! ## Readers before a sequence of lexemes -/

/-- The reader is aligned and its unread bytes are the serialization of `ls`, then `rest`. -/
structure Reader.At (r : Reader) (ls : List Lexeme) (rest : List UInt8) : Prop where
  aligned : r.offset % 4 = 0
  wf : ∀ l ∈ ls, l.WF
  unread : r.remainingBytes = encodeAll ls ++ rest

theorem Reader.At.cons {r : Reader} {l : Lexeme} {ls : List Lexeme} {rest : List UInt8}
    (h : r.At (l :: ls) rest) : ∃ r', r.Consumes l.encode r' ∧ r'.At ls rest := by
  have hu := h.unread
  rw [encodeAll_cons, List.append_assoc] at hu
  obtain ⟨r', hc, hrest⟩ := Reader.exists_consumes hu
  have hl := h.wf l List.mem_cons_self
  exact ⟨r', hc, hc.offset_mod_encode h.aligned hl, fun l' hl' => h.wf l' (List.mem_cons_of_mem _ hl'),
    hrest⟩

theorem Reader.At.length_le {r : Reader} {ls : List Lexeme} {rest : List UInt8} (h : r.At ls rest) :
    ls.length ≤ r.bytes.length := by
  have h₁ := congrArg List.length h.unread
  have h₂ := length_le_length_encodeAll ls
  rw [Reader.length_remainingBytes, List.length_append] at h₁
  omega

theorem Reader.At.length_append_le {r : Reader} {ls ls' : List Lexeme} {rest : List UInt8}
    (h : r.At (ls ++ ls') rest) : ls.length ≤ r.bytes.length := by
  have := h.length_le
  rw [List.length_append] at this
  omega

theorem Reader.at_new {ls : List Lexeme} {rest bytes : List UInt8} (hwf : ∀ l ∈ ls, l.WF)
    (h : bytes = encodeAll ls ++ rest) : (Reader.new bytes).At ls rest :=
  ⟨rfl, hwf, h⟩

namespace ValidatedReader

theorem returns_readToken {r r' : Reader} {t : Token} :
    Returns (readToken : Exec Reader ε Token) r t r' ↔ r.Consumes (toBE 4 t.value) r' := by
  simp only [readToken, returns_bind, returns_expect, returns_pure]
  constructor
  · rintro ⟨⟨o, t'⟩, r₁, h, rfl, rfl⟩
    exact (Devicetree.returns_readToken.mp h).2
  · intro h
    exact ⟨(r.position, t), r', Devicetree.returns_readToken.mpr ⟨rfl, h⟩, rfl, rfl⟩

theorem returns_readNodeName {r r' : Reader} {name pad : List UInt8} (hr : r.offset % 4 = 0)
    (hl : (Lexeme.beginNode name pad).WF) (hc : r.Consumes ((name ++ [0]) ++ pad) r') :
    Returns (readNodeName : Exec Reader ε _) r name r' := by
  obtain ⟨r₁, h₁, h₂⟩ := (returns_nodeOperands hr).mpr ⟨hl, hc⟩
  simp only [readNodeName, readNulTerminated, alignTo4, returns_bind, returns_expect, returns_pure]
  exact ⟨name, r₁, h₁, (), r', ⟨pad, r', h₂, trivial, rfl⟩, rfl, rfl⟩

theorem returns_skipProperty {r r' : Reader} {nameOffset : ℕ} {value pad : List UInt8}
    (hr : r.offset % 4 = 0) (hl : (Lexeme.property nameOffset value pad).WF)
    (hc : r.Consumes (toBE 4 value.length ++ (toBE 4 nameOffset ++ (value ++ pad))) r') :
    Returns (skipProperty : Exec Reader ε _) r () r' := by
  obtain ⟨r₁, r₂, r₃, h₁, h₂, h₃, h₄⟩ := (returns_propertyOperands hr).mpr ⟨rfl, hl, hc⟩
  simp only [skipProperty, readU32, readBytes, alignTo4, returns_bind, returns_expect, returns_pure]
  exact ⟨_, r₁, h₁, nameOffset, r₂, h₂, value, r₃, h₃, pad, r', h₄, trivial, rfl⟩

theorem returns_readProperty {strings : Strings} {r r' : Reader} {nameOffset : ℕ}
    {value pad name : List UInt8} (hr : r.offset % 4 = 0)
    (hl : (Lexeme.property nameOffset value pad).WF)
    (hc : r.Consumes (toBE 4 value.length ++ (toBE 4 nameOffset ++ (value ++ pad))) r')
    (hname : strings.Resolves nameOffset name) :
    Returns (readProperty strings : Exec Reader ε _) r ⟨name, value⟩ r' := by
  obtain ⟨r₁, r₂, r₃, h₁, h₂, h₃, h₄⟩ := (returns_propertyOperands hr).mpr ⟨rfl, hl, hc⟩
  simp only [readProperty, readU32, readBytes, alignTo4, returns_bind, returns_expect, returns_pure,
    Strings.returns_validatePropertyName]
  exact ⟨_, r₁, h₁, nameOffset, r₂, h₂, name, r₂, ⟨hname, rfl⟩, value, r₃, h₃, (), r',
    ⟨pad, r', h₄, trivial, rfl⟩, rfl, rfl⟩

end ValidatedReader

/-! ## Properties -/

/-- The name at an offset of the strings block. -/
def Strings.nameAt (strings : Strings) (offset : ℕ) : List UInt8 :=
  (strings.bytes.drop offset).takeWhile (· != 0)

theorem Strings.Resolves.nameAt_eq {strings : Strings} {offset : ℕ} {name : List UInt8}
    (h : strings.Resolves offset name) : strings.nameAt offset = name := by
  obtain ⟨-, ⟨rest, hr⟩, -, -, hv⟩ := h
  have hne : ∀ b ∈ name, (b != 0) = true := fun b hb =>
    bne_iff_ne.mpr (ne_nul_of_isPropertyCharacter (hv b hb))
  rw [nameAt, hr, List.takeWhile_append_of_pos hne]
  simp

/-- A property entry with its name resolved. -/
def PropertyEntry.resolve (strings : Strings) (p : PropertyEntry) : Property :=
  ⟨strings.nameAt p.nameOffset, p.value⟩

namespace Properties

theorem returns_onReader {α : Type} {c : Exec Reader ε α} {it : Properties} {a : α} {r' : Reader}
    (h : Returns c it.reader a r') : Returns (onReader c) it a { it with reader := r' } :=
  returns_zoom.mpr ⟨r', h, rfl⟩

theorem returns_readToken {it : Properties} {t : Token} {r' : Reader}
    (h : it.reader.Consumes (toBE 4 t.value) r') :
    Returns (onReader ValidatedReader.readToken : Exec Properties ε Token) it t
      { it with reader := r' } :=
  returns_onReader (ValidatedReader.returns_readToken.mpr h)

/-- The loop skips `FDT_NOP`s. -/
theorem rounds_nops {nops : List Lexeme} : ∀ (it : Properties) {ls : List Lexeme}
    {rest : List UInt8}, symbols nops = [] → it.reader.At (nops ++ ls) rest →
    ∃ r', r'.At ls rest ∧ Rounds (nextRound (ε := ε)) nops.length () it () { it with reader := r' } := by
  induction nops with
  | nil => intro it ls rest _ h; exact ⟨it.reader, h, .zero () it⟩
  | cons l nops ih =>
    intro it ls rest hs h
    obtain ⟨r₁, hc, h₁⟩ := h.cons
    cases l with
    | nop =>
      obtain ⟨r', h', hr⟩ := ih { it with reader := r₁ } hs h₁
      refine ⟨r', h', .succ ?_ hr⟩
      rw [nextRound, returns_bind]
      exact ⟨.nop, _, returns_readToken hc, returns_pure.mpr ⟨rfl, rfl⟩⟩
    | _ => simp [symbols, Lexeme.symbol] at hs

theorem returns_next {it it' : Properties} {k : ℕ} {s : Properties} {a : Option Property}
    (hf : it.finished = false) (hk : k ≤ it.reader.bytes.length)
    (h : Rounds (nextRound (ε := ε)) k () it () s) (h' : Returns (nextRound (ε := ε) ()) s (.inr a) it') :
    Returns (next : Exec Properties ε _) it a it' := by
  rw [next, returns_bind]
  refine ⟨it, it, returns_get.mpr ⟨rfl, rfl⟩, ?_⟩
  rw [hf]
  exact returns_iterate_of_rounds h h' (by omega)

theorem returns_next_of_finished {it : Properties} (h : it.finished = true) :
    Returns (next : Exec Properties ε _) it none it := by
  rw [next, returns_bind]
  refine ⟨it, it, returns_get.mpr ⟨rfl, rfl⟩, ?_⟩
  rw [h]
  exact returns_pure.mpr ⟨rfl, rfl⟩

/-- The properties before the first other token are yielded, in order. -/
theorem yields {ps : List PropertyEntry} : ∀ (it : Properties) {ls : List Lexeme}
    {rest : List UInt8} {y : Symbol} {ys : List Symbol},
    (∀ p ∈ ps, ∃ n, it.strings.Resolves p.nameOffset n) → it.finished = false →
    it.reader.At ls rest → symbols ls = ps.map .property ++ y :: ys →
    (y = .closing ∨ ∃ n, y = .opening n) →
    Yields (next : Exec Properties ε _) (ps.map (·.resolve it.strings)) it := by
  induction ps with
  | nil =>
    intro it ls rest y ys _ hf h hs hy
    obtain ⟨nops, l, ls', rfl, hn, hl, -⟩ := symbols_eq_cons hs
    obtain ⟨r₁, h₁, hr⟩ := rounds_nops (ε := ε) it hn h
    obtain ⟨r₂, hc, -⟩ := h₁.cons
    have hk := h.length_append_le
    -- only the token is read
    have hend : ∃ r₃, Returns (nextRound (ε := ε) ()) { it with reader := r₁ } (.inr none)
        { it with reader := r₃, finished := true } := by
      simp only [nextRound, returns_bind]
      cases l with
      | endNode =>
        refine ⟨r₂, .endNode, _, returns_readToken hc, ?_⟩
        simp only [returns_bind, returns_modify, returns_pure]
        exact ⟨(), _, rfl, trivial, rfl⟩
      | beginNode name pad =>
        obtain ⟨r₃, ht, -⟩ := Reader.consumes_append.mp hc
        refine ⟨r₃, .beginNode, _, returns_readToken ht, ?_⟩
        simp only [returns_bind, returns_modify, returns_pure]
        exact ⟨(), _, rfl, trivial, rfl⟩
      | _ => rcases hy with rfl | ⟨n, rfl⟩ <;> simp [Lexeme.symbol] at hl
    obtain ⟨r₃, hend⟩ := hend
    exact ⟨_, returns_next hf hk hr hend, returns_next_of_finished rfl⟩
  | cons p ps ih =>
    intro it ls rest y ys hres hf h hs hy
    obtain ⟨nops, l, ls', rfl, hn, hl, hs'⟩ := symbols_eq_cons hs
    obtain ⟨r₁, h₁, hr⟩ := rounds_nops (ε := ε) it hn h
    obtain ⟨r₂, hc, h₂⟩ := h₁.cons
    have hk := h.length_append_le
    cases l with
    | property nameOffset value pad =>
      obtain rfl : (⟨nameOffset, value⟩ : PropertyEntry) = p := by simpa [Lexeme.symbol] using hl
      obtain ⟨name, hname⟩ := hres _ List.mem_cons_self
      obtain ⟨r₃, ht, ho⟩ := Reader.consumes_append.mp hc
      have hwl := h₁.wf _ List.mem_cons_self
      have hprop : PropertyEntry.resolve it.strings ⟨nameOffset, value⟩ = ⟨name, value⟩ := by
        rw [PropertyEntry.resolve, hname.nameAt_eq]
      refine ⟨{ it with reader := r₂ }, returns_next hf hk hr ?_, ?_⟩
      · change Returns _ _ (Sum.inr (some (PropertyEntry.resolve it.strings ⟨nameOffset, value⟩))) _
        rw [nextRound, returns_bind, hprop]
        refine ⟨.property, _, returns_readToken ht, ?_⟩
        simp only [returns_bind, returns_get, returns_pure]
        refine ⟨_, _, ⟨rfl, rfl⟩, ⟨name, value⟩, _, returns_onReader
          (ValidatedReader.returns_readProperty (ht.offset_mod h₁.aligned) hwl ho hname), rfl, rfl⟩
      · exact ih { it with reader := r₂ } (fun q hq => hres q (List.mem_cons_of_mem _ hq)) hf
          h₂ hs' hy
    | _ => simp [Lexeme.symbol] at hl

end Properties

/-! ## Children -/

/-- The tokens of a tree after its name. -/
def Tree.body (t : Tree) : List Symbol :=
  t.properties.map .property ++ (Tree.forest t.children ++ [.closing])

theorem Tree.symbols_eq (t : Tree) : t.symbols = .opening t.name :: t.body := by
  cases t
  rw [Tree.symbols]
  rfl

/-- The depth after a sequence of tokens among which there is no node to yield and no end of the
node being iterated. -/
def skip : ℕ → List Symbol → Option ℕ
  | d, [] => some d
  | d, .property _ :: ys => skip d ys
  | d + 1, .opening _ :: ys => skip (d + 2) ys
  | d + 1, .closing :: ys => skip d ys
  | _, _ :: _ => none

theorem skip_properties (d : ℕ) (ps : List PropertyEntry) (ys : List Symbol) :
    skip d (ps.map .property ++ ys) = skip d ys := by
  induction ps with
  | nil => rfl
  | cons p ps ih => simpa [skip] using ih

mutual

theorem skip_tree (d : ℕ) : ∀ (t : Tree) (ys : List Symbol),
    skip (d + 1) (t.symbols ++ ys) = skip (d + 1) ys
  | .node name ps cs, ys => by
    rw [Tree.symbols, List.cons_append, skip, List.append_assoc, skip_properties, List.append_assoc,
      skip_forest (d + 1) cs]
    simp [skip]

theorem skip_forest (d : ℕ) : ∀ (ts : List Tree) (ys : List Symbol),
    skip (d + 1) (Tree.forest ts ++ ys) = skip (d + 1) ys
  | [], ys => by simp [Tree.forest]
  | t :: ts, ys => by rw [Tree.forest, List.append_assoc, skip_tree d t, skip_forest d ts]

end

/-- Inside a node, its body leads back to where it began. -/
theorem skip_body (t : Tree) : skip 1 t.body = some 0 := by
  rw [Tree.body, skip_properties, skip_forest]
  rfl

namespace NodeIter

theorem returns_onReader {α : Type} {c : Exec Reader ε α} {it : NodeIter} {a : α} {r' : Reader}
    (h : Returns c it.reader a r') : Returns (onReader c) it a { it with reader := r' } :=
  returns_zoom.mpr ⟨r', h, rfl⟩

theorem returns_readToken {it : NodeIter} {t : Token} {r' : Reader}
    (h : it.reader.Consumes (toBE 4 t.value) r') :
    Returns (onReader ValidatedReader.readToken : Exec NodeIter ε Token) it t
      { it with reader := r' } :=
  returns_onReader (ValidatedReader.returns_readToken.mpr h)

variable (yields : ℕ → Bool) (message : String)

theorem returns_property {it : NodeIter} {nameOffset : ℕ} {value pad : List UInt8} {r' : Reader}
    (hr : it.reader.offset % 4 = 0) (hl : (Lexeme.property nameOffset value pad).WF)
    (hc : it.reader.Consumes (Lexeme.property nameOffset value pad).encode r') :
    Returns (nextRound (ε := ε) yields message ()) it (.inl ()) { it with reader := r' } := by
  obtain ⟨r₁, ht, ho⟩ := Reader.consumes_append.mp hc
  rw [nextRound, returns_bind]
  refine ⟨.property, _, returns_readToken ht, ?_⟩
  simp only [returns_bind, returns_pure]
  exact ⟨(), _, returns_onReader
    (ValidatedReader.returns_skipProperty (ht.offset_mod hr) hl ho), trivial, rfl⟩

theorem returns_nop {it : NodeIter} {r' : Reader} (hc : it.reader.Consumes Lexeme.nop.encode r') :
    Returns (nextRound (ε := ε) yields message ()) it (.inl ()) { it with reader := r' } := by
  rw [nextRound, returns_bind]
  exact ⟨.nop, _, returns_readToken hc, returns_pure.mpr ⟨rfl, rfl⟩⟩

theorem returns_beginNode (it : NodeIter) {name pad : List UInt8} {r' : Reader}
    (hr : it.reader.offset % 4 = 0) (hl : (Lexeme.beginNode name pad).WF)
    (hc : it.reader.Consumes (Lexeme.beginNode name pad).encode r') :
    Returns (nextRound (ε := ε) yields message ()) it
      (if yields it.depth then .inr (some ⟨name, r'.remainingBytes, it.strings⟩) else .inl ())
      { it with reader := r', depth := it.depth + 1 } := by
  obtain ⟨r₁, ht, ho⟩ := Reader.consumes_append.mp hc
  rw [nextRound, returns_bind]
  refine ⟨.beginNode, _, returns_readToken ht, ?_⟩
  simp only [returns_bind, returns_get, returns_modify]
  refine ⟨name, _, returns_onReader
    (ValidatedReader.returns_readNodeName (ht.offset_mod hr) hl ho), _, _, ⟨rfl, rfl⟩, (), _, rfl, ?_⟩
  dsimp only
  split <;> exact returns_pure.mpr ⟨rfl, rfl⟩

theorem returns_endNode (it : NodeIter) {r' : Reader}
    (hc : it.reader.Consumes Lexeme.endNode.encode r') :
    Returns (nextRound (ε := ε) yields message ()) it
      (if it.depth = 0 then .inr none else .inl ())
      (if it.depth = 0 then { it with reader := r', finished := true }
        else { it with reader := r', depth := it.depth - 1 }) := by
  rw [nextRound, returns_bind]
  refine ⟨.endNode, _, returns_readToken hc, ?_⟩
  simp only [returns_bind, returns_get]
  refine ⟨_, _, ⟨rfl, rfl⟩, ?_⟩
  dsimp only
  split
  · simp only [returns_bind, returns_modify, returns_pure]
    exact ⟨(), _, rfl, trivial, rfl⟩
  · simp only [returns_bind, returns_modify, returns_pure]
    exact ⟨(), _, rfl, trivial, rfl⟩

/-- The loop passes over the lexemes that `skip` allows when nodes below depth zero are not
yielded. -/
theorem rounds_skip (hy : ∀ d, yields (d + 1) = false) {pre : List Lexeme} :
    ∀ (it : NodeIter) {d d' : ℕ} {ls : List Lexeme} {rest : List UInt8},
    it.depth = d → skip d (symbols pre) = some d' → it.reader.At (pre ++ ls) rest →
    ∃ r', r'.At ls rest ∧ Rounds (nextRound (ε := ε) yields message) pre.length () it ()
      { it with reader := r', depth := d' } := by
  induction pre with
  | nil =>
    rintro it d d' ls rest rfl hs h
    obtain rfl : it.depth = d' := by simpa [symbols, skip] using hs
    exact ⟨it.reader, h, .zero () it⟩
  | cons l pre ih =>
    rintro it d d' ls rest rfl hs h
    obtain ⟨r₁, hc, h₁⟩ := h.cons
    have hwl := h.wf _ List.mem_cons_self
    cases l with
    | nop =>
      obtain ⟨r', h', hr⟩ := ih { it with reader := r₁ } rfl hs h₁
      exact ⟨r', h', .succ (returns_nop yields message hc) hr⟩
    | property nameOffset value pad =>
      obtain ⟨r', h', hr⟩ := ih { it with reader := r₁ } (d := it.depth) rfl
        (by simpa [symbols, Lexeme.symbol, skip] using hs) h₁
      exact ⟨r', h', .succ (returns_property yields message h.aligned hwl hc) hr⟩
    | beginNode name pad =>
      obtain ⟨e, he⟩ : ∃ e, it.depth = e + 1 := by
        cases hd : it.depth with
        | zero => rw [hd] at hs; simp [symbols, Lexeme.symbol, skip] at hs
        | succ e => exact ⟨e, rfl⟩
      have hbegin := returns_beginNode (ε := ε) yields message it h.aligned hwl hc
      rw [he, hy] at hbegin
      rw [he] at hs
      obtain ⟨r', h', hr⟩ := ih { it with reader := r₁, depth := e + 1 + 1 } (d := e + 2) rfl
        (by simpa [symbols, Lexeme.symbol, skip] using hs) h₁
      exact ⟨r', h', .succ hbegin hr⟩
    | endNode =>
      obtain ⟨e, he⟩ : ∃ e, it.depth = e + 1 := by
        cases hd : it.depth with
        | zero => rw [hd] at hs; simp [symbols, Lexeme.symbol, skip] at hs
        | succ e => exact ⟨e, rfl⟩
      have hend := returns_endNode (ε := ε) yields message it hc
      rw [he] at hs
      simp only [he, Nat.succ_ne_zero, if_false, Nat.add_sub_cancel] at hend
      obtain ⟨r', h', hr⟩ := ih { it with reader := r₁, depth := e } (d := e) rfl
        (by simpa [symbols, Lexeme.symbol, skip] using hs) h₁
      exact ⟨r', h', .succ hend hr⟩
    | fdtEnd => cases hd : it.depth <;> rw [hd] at hs <;> simp [symbols, Lexeme.symbol, skip] at hs

theorem returns_next {it it' : NodeIter} {k : ℕ} {s : NodeIter} {a : Option Node}
    (hf : it.finished = false) (hk : k ≤ it.reader.bytes.length)
    (h : Rounds (nextRound (ε := ε) yields message) k () it () s)
    (h' : Returns (nextRound (ε := ε) yields message ()) s (.inr a) it') :
    Returns (next (ε := ε) yields message) it a it' := by
  rw [next, returns_bind]
  refine ⟨it, it, returns_get.mpr ⟨rfl, rfl⟩, ?_⟩
  rw [hf]
  exact returns_iterate_of_rounds h h' (by omega)

theorem returns_next_of_finished {it : NodeIter} (h : it.finished = true) :
    Returns (next (ε := ε) yields message) it none it := by
  rw [next, returns_bind]
  refine ⟨it, it, returns_get.mpr ⟨rfl, rfl⟩, ?_⟩
  rw [h]
  exact returns_pure.mpr ⟨rfl, rfl⟩

end NodeIter

/-- The content of the view starts with the body of the tree. -/
structure Views (strings : Strings) (node : Node) (t : Tree) : Prop where
  name : node.name = t.name
  strings : node.strings = strings
  content : ∃ ls rest, (∀ l ∈ ls, l.WF) ∧ symbols ls = t.body ∧ node.content = encodeAll ls ++ rest

theorem symbols_append (ls ls' : List Lexeme) : symbols (ls ++ ls') = symbols ls ++ symbols ls' :=
  List.filterMap_append

theorem symbols_cons {l : Lexeme} {y : Symbol} (h : l.symbol = some y) (ls : List Lexeme) :
    symbols (l :: ls) = y :: symbols ls := List.filterMap_cons_some h

/-- From depth `d` below a child to the token behind it. -/
theorem NodeIter.rounds_leave (yields : ℕ → Bool) (message : String)
    (hy : ∀ d, yields (d + 1) = false) (it : NodeIter) {ls₁ nops ls : List Lexeme}
    {rest : List UInt8} {d : ℕ} (hd : it.depth = d) (hskip : skip d (symbols ls₁) = some 0)
    (hn : symbols nops = []) (h : it.reader.At (ls₁ ++ (nops ++ ls)) rest) :
    ∃ r', r'.At ls rest ∧ (ls₁ ++ nops).length ≤ it.reader.bytes.length ∧
      Rounds (nextRound (ε := ε) yields message) (ls₁ ++ nops).length () it ()
        { it with reader := r', depth := 0 } := by
  rw [← List.append_assoc] at h
  have hskip' : skip d (symbols (ls₁ ++ nops)) = some 0 := by
    rw [symbols_append, hn, List.append_nil]
    exact hskip
  obtain ⟨r', hat, hr⟩ := rounds_skip yields message hy it hd hskip' h
  exact ⟨r', hat, h.length_append_le, hr⟩

/-- From anywhere inside a child the remaining children are yielded, in order. -/
theorem Children.yields {strings : Strings} {cs : List Tree} :
    ∀ (it : NodeIter) {ls : List Lexeme} {rest : List UInt8} {pre : List Symbol} {d : ℕ},
    it.strings = strings → it.finished = false → it.depth = d → it.reader.At ls rest →
    symbols ls = pre ++ (Tree.forest cs ++ [.closing]) → skip d pre = some 0 →
    ∃ ns, Yields (Children.next : Exec NodeIter ε _) ns it ∧ List.Forall₂ (Views strings) ns cs := by
  have hy : ∀ d : ℕ, (d + 1 == 0) = false := fun d => rfl
  induction cs with
  | nil =>
    intro it ls rest pre d hst hf hd h hs hskip
    rw [Tree.forest, List.nil_append] at hs
    obtain ⟨ls₁, ls₂, rfl, rfl, h₂⟩ := symbols_eq_append hs
    obtain ⟨nops, l, ls', rfl, hn, hl, -⟩ := symbols_eq_cons h₂
    cases l with
    | endNode =>
      obtain ⟨r₁, hat, hk, hr⟩ := NodeIter.rounds_leave (ε := ε) (· == 0)
        "validated node must end before the structure block terminator" hy it hd hskip hn h
      obtain ⟨r₂, hc, -⟩ := hat.cons
      have hend := NodeIter.returns_endNode (ε := ε) (· == 0)
        "validated node must end before the structure block terminator"
        { it with reader := r₁, depth := 0 } hc
      refine ⟨[], ⟨_, NodeIter.returns_next _ _ hf hk hr hend, ?_⟩, .nil⟩
      exact NodeIter.returns_next_of_finished _ _ rfl
    | _ => simp [Lexeme.symbol] at hl
  | cons c cs ih =>
    intro it ls rest pre d hst hf hd h hs hskip
    rw [Tree.forest, Tree.symbols_eq, List.append_assoc, List.cons_append] at hs
    obtain ⟨ls₁, ls₂, rfl, rfl, h₂⟩ := symbols_eq_append hs
    obtain ⟨nops, l, ls', rfl, hn, hl, h₃⟩ := symbols_eq_cons h₂
    cases l with
    | beginNode name pad =>
      obtain rfl : name = c.name := by simpa [Lexeme.symbol] using hl
      obtain ⟨r₁, hat, hk, hr⟩ := NodeIter.rounds_leave (ε := ε) (· == 0)
        "validated node must end before the structure block terminator" hy it hd hskip hn h
      obtain ⟨r₂, hc, hat₂⟩ := hat.cons
      have hbegin := NodeIter.returns_beginNode (ε := ε) (· == 0)
        "validated node must end before the structure block terminator"
        { it with reader := r₁, depth := 0 } hat.aligned (hat.wf _ List.mem_cons_self) hc
      have hview : Views strings ⟨c.name, r₂.remainingBytes, it.strings⟩ c := by
        refine ⟨rfl, hst, ?_⟩
        obtain ⟨body, after, rfl, hb, -⟩ := symbols_eq_append h₃
        refine ⟨body, encodeAll after ++ rest, fun l hl => hat₂.wf l (List.mem_append_left _ hl), hb, ?_⟩
        rw [hat₂.unread, encodeAll_append, List.append_assoc]
      obtain ⟨ns, hns, hviews⟩ := ih { it with reader := r₂, depth := 0 + 1 } hst hf rfl hat₂
        h₃ (skip_body c)
      exact ⟨_ :: ns, ⟨_, NodeIter.returns_next _ _ hf hk hr hbegin, hns⟩, .cons hview hviews⟩
    | _ => simp [Lexeme.symbol] at hl

/-- **Properties of a view.** They are the properties of the tree, with their names resolved. -/
theorem Views.yields_properties {strings : Strings} {node : Node} {t : Tree}
    (h : Views strings node t) (hv : t.Valid strings) :
    Yields (Properties.next : Exec Properties ε _) (t.properties.map (·.resolve strings))
      node.properties := by
  obtain ⟨ls, rest, hwf, hs, hc⟩ := h.content
  obtain ⟨name, ps, cs⟩ := t
  rcases hv with @⟨_, _, _, hres, -, -, -, -⟩
  have hat : (Reader.new node.content).At ls rest := Reader.at_new hwf hc
  have hst := h.strings
  have key : ∀ (y : Symbol) (ys : List Symbol), symbols ls = ps.map .property ++ y :: ys →
      (y = .closing ∨ ∃ n, y = .opening n) →
      Yields (Properties.next : Exec Properties ε _) (ps.map (·.resolve strings)) node.properties :=
    fun y ys hs' hy => by
      have := Properties.yields (ε := ε) node.properties
        (by rw [← hst] at hres; exact hres) rfl hat hs' hy
      rw [show node.properties.strings = strings from hst] at this
      exact this
  rw [Tree.body] at hs
  cases cs with
  | nil => exact key .closing [] hs (.inl rfl)
  | cons c cs =>
    refine key (.opening c.name) (c.body ++ (Tree.forest cs ++ [.closing])) ?_ (.inr ⟨_, rfl⟩)
    rw [hs]
    simp [Tree.properties, Tree.children, Tree.forest, Tree.symbols_eq]

/-- **Children of a view.** They are views of the children of the tree. -/
theorem Views.yields_children {strings : Strings} {node : Node} {t : Tree}
    (h : Views strings node t) :
    ∃ ns, Yields (Children.next : Exec NodeIter ε _) ns node.children ∧
      List.Forall₂ (Views strings) ns t.children := by
  obtain ⟨ls, rest, hwf, hs, hc⟩ := h.content
  refine Children.yields node.children (d := 0) h.strings rfl rfl (Reader.at_new hwf hc) hs ?_
  have := skip_properties 0 t.properties []
  rw [List.append_nil] at this
  rw [this]
  rfl

theorem Views.length_le {strings : Strings} {node : Node} {t : Tree} (h : Views strings node t) :
    t.properties.length < node.bound ∧ t.children.length < node.bound := by
  obtain ⟨ls, rest, -, hs, hc⟩ := h.content
  have h₁ := length_le_length_encodeAll ls
  have h₂ : (symbols ls).length ≤ ls.length := List.length_filterMap_le _ _
  have h₃ : ∀ ts : List Tree, ts.length ≤ (Tree.forest ts).length := by
    intro ts
    induction ts with
    | nil => simp
    | cons t ts ih => simp [Tree.forest, Tree.symbols_eq]; omega
  have h₄ := h₃ t.children
  rw [hs] at h₂
  simp only [Tree.body, List.length_append, List.length_map] at h₂
  rw [Node.bound, hc, List.length_append]
  omega

/-- Looking up a property of a view is looking it up in the tree. -/
theorem Views.returns_property {strings : Strings} {node : Node} {t : Tree} (s : σ)
    (name : List UInt8) (h : Views strings node t) (hv : t.Valid strings) :
    Returns (node.property name : Exec σ ε _) s
      ((t.properties.map (·.resolve strings)).find? (·.name == name)) s := by
  obtain ⟨it', hr, -, -⟩ := Yields.findNext (p := fun p => p.name == name)
    (h.yields_properties (ε := ε) hv)
    (show _ < node.bound by rw [List.length_map]; exact h.length_le.1)
  exact returns_onLocal.mpr ⟨rfl, it', hr⟩

/-! ## The root -/

theorem ValidatedReader.returns_readNonNopToken {r r' : Reader} {nops : List Lexeme}
    {rest : List UInt8} {t : Token} (hn : symbols nops = []) (ht : t ≠ .nop)
    (h : r.At nops rest) (hc : r.Consumes (encodeAll nops ++ toBE 4 t.value) r') :
    Returns (readNonNopToken : Exec Reader ε Token) r t r' := by
  rw [readNonNopToken, returns_bind]
  refine ⟨r, r, returns_get.mpr ⟨rfl, rfl⟩, ?_⟩
  have hlen := h.length_le
  suffices ∀ (nops : List Lexeme) (r : Reader) (fuel : ℕ), symbols nops = [] →
      r.Consumes (encodeAll nops ++ toBE 4 t.value) r' → nops.length < fuel →
      Returns (iterate (fun _ => do
        let token ← (readToken : Exec Reader ε Token)
        if token ≠ .nop then pure (.inr token) else pure (.inl ())) fuel ()) r t r' from
    this nops r _ hn hc (by omega)
  intro nops
  induction nops with
  | nil =>
    intro r fuel _ hc hf
    obtain ⟨fuel, rfl⟩ : ∃ k, fuel = k + 1 := ⟨fuel - 1, by omega⟩
    refine returns_iterate_succ.mpr (.inr ?_)
    rw [returns_bind]
    exact ⟨t, r', returns_readToken.mpr hc, by simp [ht]⟩
  | cons l nops ih =>
    intro r fuel hn hc hf
    rw [List.length_cons] at hf
    obtain ⟨fuel, rfl⟩ : ∃ k, fuel = k + 1 := ⟨fuel - 1, by omega⟩
    cases l with
    | nop =>
      rw [encodeAll_cons, List.append_assoc] at hc
      obtain ⟨r₁, h₁, h₂⟩ := Reader.consumes_append.mp hc
      refine returns_iterate_succ.mpr (.inl ⟨(), r₁, ?_, ih r₁ fuel hn h₂ (by omega)⟩)
      rw [returns_bind]
      exact ⟨.nop, r₁, returns_readToken.mpr h₁, returns_pure.mpr ⟨rfl, rfl⟩⟩
    | _ => simp [symbols, Lexeme.symbol] at hn

/-- **The root view** of a block that denotes `t` is a view of `t`. -/
theorem returns_root (strings : Strings) {bytes : List UInt8} {t : Tree} (hname : t.name = [])
    (h : Denotes bytes t) :
    ∃ root, (∀ s, Returns (Structure.root ⟨bytes⟩ strings : Exec σ ε Node) s root s) ∧
      Views strings root t := by
  obtain ⟨ls, hwf, hs, hb⟩ := h
  rw [Tree.symbols_eq, hname] at hs
  obtain ⟨nops, l, ls', rfl, hn, hl, hs'⟩ := symbols_eq_cons hs
  cases l with
  | beginNode name pad =>
    obtain rfl : name = [] := by simpa [Lexeme.symbol] using hl
    have hwf' : ∀ l ∈ (nops ++ .beginNode [] pad :: ls') ++ [.fdtEnd], l.WF := by
      intro l hl
      rcases List.mem_append.mp hl with h | h
      · exact hwf l h
      · rw [List.mem_singleton.mp h]; trivial
    have hb' : bytes = (encodeAll nops ++ toBE 4 Token.beginNode.value) ++ ((([] ++ [0]) ++ pad) ++
        encodeAll (ls' ++ [.fdtEnd])) := by
      rw [hb]
      simp [Lexeme.encode]
    obtain ⟨r₁, hc₁, hr₁⟩ := Reader.exists_consumes (r := Reader.new bytes) hb'
    obtain ⟨r₂, hc₂, hr₂⟩ := Reader.exists_consumes hr₁
    have hmod := length_encodeAll_mod (show ∀ l ∈ nops, l.WF from fun l hl => hwf' l (by simp [hl]))
    have hroot : (Lexeme.beginNode [] pad).WF := hwf _ (by simp)
    have htok := ValidatedReader.returns_readNonNopToken (ε := ε) (t := .beginNode) hn (by decide)
      (Reader.at_new (fun l hl => hwf' l (by simp [hl])) (hb'.trans (List.append_assoc _ _ _))) hc₁
    have hname' := ValidatedReader.returns_readNodeName (ε := ε) (r := r₁)
      (by rw [hc₁.offset, List.length_append, length_toBE]; simp only [Reader.new]; omega) hroot hc₂
    refine ⟨⟨[], r₂.remainingBytes, strings⟩, fun s => returns_onLocal.mpr ⟨rfl, r₂, ?_⟩,
      hname.symm, rfl, ?_⟩
    · simp only [returns_bind, returns_require, returns_get, returns_pure]
      exact ⟨.beginNode, r₁, htok, (), r₁, ⟨rfl, rfl⟩, [], r₂, hname', (), r₂, ⟨rfl, rfl⟩, r₂, r₂,
        ⟨rfl, rfl⟩, rfl, rfl⟩
    · refine ⟨ls', encodeAll [.fdtEnd], fun l hl => hwf l (by simp [hl]), hs', ?_⟩
      rw [hr₂, encodeAll_append]
  | _ => simp [Lexeme.symbol] at hl

/-! ## A block denotes at most one tree -/

/-- Reads one lexeme. -/
def readLexeme : Exec Reader StructureError Lexeme := do
  match ← readToken with
  | (_, .beginNode) =>
    let name ← mapError .read Reader.readNulTerminated
    let pad ← mapError .read Reader.alignTo4
    pure (.beginNode name pad)
  | (_, .endNode) => pure .endNode
  | (_, .property) =>
    let length ← mapError .read Reader.readU32
    let nameOffset ← mapError .read Reader.readU32
    let value ← mapError .read (Reader.readBytes length)
    let pad ← mapError .read Reader.alignTo4
    pure (.property nameOffset value pad)
  | (_, .nop) => pure .nop
  | (_, .fdtEnd) => pure .fdtEnd

theorem returns_readLexeme {r r' : Reader} {l : Lexeme} (hr : r.offset % 4 = 0) (hl : l.WF)
    (hc : r.Consumes l.encode r') : Returns readLexeme r l r' := by
  rw [readLexeme, returns_bind]
  cases l with
  | beginNode name pad =>
    obtain ⟨r₁, ht, ho⟩ := Reader.consumes_append.mp hc
    obtain ⟨r₂, h₁, h₂⟩ := (returns_nodeOperands (ht.offset_mod hr)).mpr ⟨hl, ho⟩
    refine ⟨(r.position, .beginNode), r₁, returns_readToken.mpr ⟨rfl, ht⟩, ?_⟩
    simp only [returns_bind, returns_mapError, returns_pure]
    exact ⟨name, r₂, h₁, pad, r', h₂, rfl, rfl⟩
  | property nameOffset value pad =>
    obtain ⟨r₁, ht, ho⟩ := Reader.consumes_append.mp hc
    obtain ⟨r₂, r₃, r₄, h₁, h₂, h₃, h₄⟩ :=
      (returns_propertyOperands (ht.offset_mod hr)).mpr ⟨rfl, hl, ho⟩
    refine ⟨(r.position, .property), r₁, returns_readToken.mpr ⟨rfl, ht⟩, ?_⟩
    simp only [returns_bind, returns_mapError, returns_pure]
    exact ⟨_, r₂, h₁, nameOffset, r₃, h₂, value, r₄, h₃, pad, r', h₄, rfl, rfl⟩
  | endNode =>
    exact ⟨(r.position, .endNode), r', returns_readToken.mpr ⟨rfl, hc⟩, returns_pure.mpr ⟨rfl, rfl⟩⟩
  | nop =>
    exact ⟨(r.position, .nop), r', returns_readToken.mpr ⟨rfl, hc⟩, returns_pure.mpr ⟨rfl, rfl⟩⟩
  | fdtEnd =>
    exact ⟨(r.position, .fdtEnd), r', returns_readToken.mpr ⟨rfl, hc⟩, returns_pure.mpr ⟨rfl, rfl⟩⟩

theorem encodeAll_inj {ls : List Lexeme} : ∀ {ls' : List Lexeme}, (∀ l ∈ ls, l.WF) →
    (∀ l ∈ ls', l.WF) → encodeAll ls = encodeAll ls' → ls = ls' := by
  have hne (l : Lexeme) (ls : List Lexeme) : encodeAll (l :: ls) ≠ [] := by
    have := l.four_le_length_encode
    rw [encodeAll_cons, ← List.length_pos_iff, List.length_append]
    omega
  induction ls with
  | nil =>
    intro ls' _ _ h
    cases ls' with
    | nil => rfl
    | cons l' ls' => exact absurd h.symm (hne l' ls')
  | cons l ls ih =>
    intro ls' hwf hwf' h
    cases ls' with
    | nil => exact absurd h (hne l ls)
    | cons l' ls' =>
      obtain ⟨r₁, hc₁, hx⟩ := Reader.exists_consumes (r := Reader.new (encodeAll (l :: ls)))
        (encodeAll_cons l ls)
      obtain ⟨r₂, hc₂, hy⟩ := Reader.exists_consumes (r := Reader.new (encodeAll (l :: ls)))
        (h.trans (encodeAll_cons l' ls'))
      obtain ⟨rfl, rfl⟩ := (returns_readLexeme rfl (hwf l List.mem_cons_self) hc₁).unique
        (returns_readLexeme rfl (hwf' l' List.mem_cons_self) hc₂)
      rw [ih (fun l hl => hwf l (List.mem_cons_of_mem _ hl))
        (fun l hl => hwf' l (List.mem_cons_of_mem _ hl)) (hx.symm.trans hy)]

/-- The properties of a node end where its children or its end begin. -/
theorem Tree.properties_inj (ts ts' : List Tree) : ∀ (ps ps' : List PropertyEntry) {x y : List Symbol},
    ps.map Symbol.property ++ (Tree.forest ts ++ ([Symbol.closing] ++ x)) =
      ps'.map Symbol.property ++ (Tree.forest ts' ++ ([Symbol.closing] ++ y)) →
    ps = ps' ∧ Tree.forest ts ++ ([.closing] ++ x) = Tree.forest ts' ++ ([.closing] ++ y)
  | [], [], x, y, h => ⟨rfl, h⟩
  | [], p' :: ps', x, y, h => by cases ts <;> simp [Tree.forest, Tree.symbols_eq] at h
  | p :: ps, [], x, y, h => by cases ts' <;> simp [Tree.forest, Tree.symbols_eq] at h
  | p :: ps, p' :: ps', x, y, h => by
    obtain ⟨hp, hps⟩ := List.cons.inj h
    obtain rfl := Symbol.property.inj hp
    obtain ⟨rfl, h'⟩ := Tree.properties_inj ts ts' ps ps' hps
    exact ⟨rfl, h'⟩

mutual

/-- A tree can be told from the tokens that follow it. -/
theorem Tree.symbols_inj : ∀ (t t' : Tree) {x y : List Symbol},
    t.symbols ++ x = t'.symbols ++ y → t = t' ∧ x = y
  | .node name ps cs, .node name' ps' cs', x, y, h => by
    simp only [Tree.symbols, List.cons_append, List.append_assoc, List.cons.injEq,
      Symbol.opening.injEq] at h
    obtain ⟨rfl, h⟩ := h
    obtain ⟨rfl, h'⟩ := Tree.properties_inj cs cs' ps ps' h
    obtain ⟨rfl, rfl⟩ := Tree.forest_inj cs cs' h'
    exact ⟨rfl, rfl⟩

theorem Tree.forest_inj : ∀ (ts ts' : List Tree) {x y : List Symbol},
    Tree.forest ts ++ ([.closing] ++ x) = Tree.forest ts' ++ ([.closing] ++ y) → ts = ts' ∧ x = y
  | [], [], x, y, h => by simpa [Tree.forest] using h
  | [], t' :: ts', x, y, h => by simp [Tree.forest, Tree.symbols_eq] at h
  | t :: ts, [], x, y, h => by simp [Tree.forest, Tree.symbols_eq] at h
  | t :: ts, t' :: ts', x, y, h => by
    simp only [Tree.forest, List.append_assoc] at h
    obtain ⟨rfl, h'⟩ := Tree.symbols_inj t t' h
    obtain ⟨rfl, rfl⟩ := Tree.forest_inj ts ts' h'
    exact ⟨rfl, rfl⟩

end

/-- **A block denotes at most one tree.** -/
theorem Denotes.unique {bytes : List UInt8} {t t' : Tree} (h : Denotes bytes t)
    (h' : Denotes bytes t') : t = t' := by
  obtain ⟨ls, hwf, hs, hb⟩ := h
  obtain ⟨ls', hwf', hs', hb'⟩ := h'
  have hfin : ∀ {ls : List Lexeme}, (∀ l ∈ ls, l.WF) → ∀ l ∈ ls ++ [.fdtEnd], l.WF := by
    intro ls h l hl
    rcases List.mem_append.mp hl with hl | hl
    · exact h l hl
    · rw [List.mem_singleton.mp hl]; trivial
  have := List.append_cancel_right (encodeAll_inj (hfin hwf) (hfin hwf') (hb.symm.trans hb'))
  rw [this, hs'] at hs
  exact (Tree.symbols_inj t t' (x := []) (y := []) (by rw [hs])).1

/-! ## Reading the whole tree -/

/-- A tree with the names of its properties. -/
inductive NamedTree where
  | node (name : List UInt8) (properties : List Property) (children : List NamedTree)

mutual

/-- The tree with its property names resolved. -/
def Tree.named (strings : Strings) : Tree → NamedTree
  | .node name properties children =>
    .node name (properties.map (·.resolve strings)) (Tree.namedForest strings children)

def Tree.namedForest (strings : Strings) : List Tree → List NamedTree
  | [] => []
  | t :: ts => t.named strings :: Tree.namedForest strings ts

end

/-- Reads a node with all its properties and its children, each of them by `readChild`. -/
def readNode (readChild : Node → Exec σ ε NamedTree) (node : Node) : Exec σ ε NamedTree := do
  let properties ← foldIter Properties.next (fun ps p => pure (ps ++ [p])) node.bound
    node.properties []
  let children ← foldIter Children.next (fun ts child => do
    let t ← readChild child
    pure (ts ++ [t])) node.bound node.children []
  pure (.node node.name properties children)

/-- Reads a node with everything below it. -/
def readTree : ℕ → Node → Exec σ ε NamedTree
  | 0 => fun _ => abort .exhausted
  | n + 1 => readNode (readTree n)

/-- The view decodes to the tree: it has the name, its iterators yield the resolved properties and
views of the children, and these decode in turn. -/
inductive Decodes (strings : Strings) : Node → Tree → Prop
  | mk {node : Node} {t : Tree} {ns : List Node} (name : node.name = t.name)
      (properties : Yields (Properties.next : Exec Properties Empty _)
        (t.properties.map (·.resolve strings)) node.properties)
      (children : Yields (Children.next : Exec NodeIter Empty _) ns node.children)
      (length : ns.length = t.children.length)
      (below : ∀ i (hn : i < ns.length) (ht : i < t.children.length),
        Decodes strings (ns.get ⟨i, hn⟩) (t.children.get ⟨i, ht⟩)) : Decodes strings node t

theorem Tree.length_symbols_lt {t c : Tree} (h : c ∈ t.children) :
    c.symbols.length < t.symbols.length := by
  have key : ∀ ts : List Tree, c ∈ ts → c.symbols.length ≤ (Tree.forest ts).length := by
    intro ts hc
    induction ts with
    | nil => simp at hc
    | cons t ts ih =>
      rw [Tree.forest, List.length_append]
      rcases List.mem_cons.mp hc with rfl | hc
      · omega
      · have := ih hc
        omega
  have := key _ h
  rw [Tree.symbols_eq t, Tree.body, List.length_cons, List.length_append, List.length_append]
  omega

theorem Tree.Valid.children {strings : Strings} {t : Tree} (h : t.Valid strings) :
    ∀ c ∈ t.children, c.Valid strings := by
  rcases h with @⟨_, _, _, -, -, -, -, h⟩
  exact h

/-- Sibling names are distinct, so a child is found by its name. -/
theorem Tree.Valid.find?_child {strings : Strings} {t c : Tree} {name : List UInt8}
    (h : t.Valid strings) (hc : c ∈ t.children) (hname : c.name = name) :
    t.children.find? (·.name == name) = some c := by
  rcases h with @⟨_, _, cs, -, -, -, h, -⟩
  have hc' : c ∈ cs := hc
  change cs.find? _ = _
  clear hc
  induction cs with
  | nil => simp at hc'
  | cons d cs ih =>
    rw [List.pairwise_cons] at h
    rcases List.mem_cons.mp hc' with rfl | hmem
    · rw [List.find?_cons_of_pos (by simp [hname])]
    · rw [List.find?_cons_of_neg (by simpa [hname] using h.1 c hmem)]
      exact ih h.2 hmem

theorem Views.decodes {strings : Strings} {node : Node} {t : Tree} (h : Views strings node t)
    (hv : t.Valid strings) : Decodes strings node t := by
  induction hn : t.symbols.length using Nat.strong_induction_on generalizing node t with
  | _ n ih =>
    subst hn
    obtain ⟨ns, hns, hviews⟩ := h.yields_children (ε := Empty)
    have hlen := hviews.length_eq
    refine .mk h.name (h.yields_properties hv) hns hlen fun i hi hi' => ?_
    have hmem := List.get_mem t.children ⟨i, hi'⟩
    exact ih _ (Tree.length_symbols_lt hmem) (hviews.get hi hi') (hv.children _ hmem) rfl

/-- A fold that appends the results of a program that returns on every value. -/
theorem returns_foldlM_append {α β : Type} {f : α → Exec σ ε β} {s : σ} {as : List α} :
    ∀ (acc : List β) {bs : List β}, List.Forall₂ (fun a b => Returns (f a) s b s) as bs →
      Returns (as.foldlM (fun acc a => do let b ← f a; pure (acc ++ [b])) acc) s (acc ++ bs) s := by
  induction as with
  | nil =>
    intro acc bs h
    cases h
    rw [List.append_nil]
    exact returns_pure.mpr ⟨rfl, rfl⟩
  | cons a as ih =>
    intro acc bs h
    cases h with
    | @cons _ b _ bs hb hbs =>
      rw [List.foldlM_cons, returns_bind]
      refine ⟨acc ++ [b], s, ?_, ?_⟩
      · rw [returns_bind]
        exact ⟨b, s, hb, returns_pure.mpr ⟨rfl, rfl⟩⟩
      · rw [List.append_cons acc b bs]
        exact ih _ hbs

theorem Views.returns_readTree {strings : Strings} {fuel : ℕ} (s : σ) : ∀ {node : Node} {t : Tree},
    Views strings node t → t.Valid strings → t.symbols.length ≤ fuel →
    Returns (readTree fuel node : Exec σ ε _) s (t.named strings) s := by
  induction fuel with
  | zero =>
    intro node t _ _ hf
    rw [Tree.symbols_eq, List.length_cons] at hf
    omega
  | succ fuel ih =>
    intro node t h hv hf
    obtain ⟨ns, hns, hviews⟩ := h.yields_children (ε := ε)
    obtain ⟨hp, hc⟩ := h.length_le
    rw [← hviews.length_eq] at hc
    have hprops : Returns (σ := σ) (ε := ε) ((t.properties.map (·.resolve strings)).foldlM
        (fun ps p => pure (ps ++ [p])) []) s (t.properties.map (·.resolve strings)) s := by
      have := returns_foldlM_append (σ := σ) (ε := ε) (f := fun p : Property => pure p) (s := s)
        [] (List.forall₂_same.mpr fun p (_ : p ∈ t.properties.map (·.resolve strings)) =>
          returns_pure.mpr ⟨rfl, rfl⟩)
      exact this
    have hforest : Returns (σ := σ) (ε := ε) (ns.foldlM (fun ts child => do
        let t ← readTree fuel child
        pure (ts ++ [t])) []) s (Tree.namedForest strings t.children) s := by
      refine returns_foldlM_append [] ?_
      have hbelow : ∀ c ∈ t.children, c.Valid strings ∧ c.symbols.length ≤ fuel := fun c hc =>
        ⟨hv.children c hc, by have := Tree.length_symbols_lt hc; omega⟩
      clear hns hc
      revert hbelow
      generalize t.children = cs at hviews
      induction hviews with
      | nil => intro _; exact .nil
      | @cons n c ns cs hview _ ih' =>
        intro hbelow
        obtain ⟨h₁, h₂⟩ := hbelow c List.mem_cons_self
        exact .cons (ih hview h₁ h₂) (ih' fun c' hc' => hbelow c' (List.mem_cons_of_mem _ hc'))
    rw [readTree, readNode, foldIter_eq (h.yields_properties hv) (by rwa [List.length_map]), returns_bind]
    refine ⟨_, s, hprops, ?_⟩
    rw [foldIter_eq hns hc, returns_bind]
    refine ⟨_, s, hforest, returns_pure.mpr ⟨?_, rfl⟩⟩
    rw [h.name]
    cases t
    rfl

/-- **Reading an accepted block.** From the root of a block that `Structure::new` accepts, the views
decode the tree the block denotes, and reading it recursively returns that tree. -/
theorem structure_root_decodes {bytes : List UInt8} {strings : Strings} {t : Tree}
    (haccepted : Returns (Structure.new bytes strings) () ⟨bytes⟩ ()) (ht : Denotes bytes t) :
    ∃ root, Returns (Structure.root ⟨bytes⟩ strings : Exec Unit Empty Node) () root () ∧
      Decodes strings root t ∧
      Returns (readTree bytes.length root : Exec Unit Empty NamedTree) () (t.named strings) () := by
  obtain ⟨-, -, t', hname, hv, ht'⟩ := returns_structureNew_iff.mp haccepted
  obtain rfl := ht.unique ht'
  obtain ⟨root, hroot, hview⟩ := returns_root (σ := Unit) (ε := Empty) strings hname ht
  refine ⟨root, hroot (), hview.decodes hv, hview.returns_readTree () hv ?_⟩
  obtain ⟨ls, -, hs, hb⟩ := ht
  have h₁ : (symbols ls).length ≤ ls.length := List.length_filterMap_le _ _
  have h₂ := length_le_length_encodeAll (ls ++ [.fdtEnd])
  rw [← hb, List.length_append] at h₂
  rw [← hs]
  omega

/-- A root with one property and one child, and an `FDT_NOP` between them. -/
def sampleBlock : List UInt8 :=
  [0, 0, 0, 1, 0, 7, 7, 7, 0, 0, 0, 3, 0, 0, 0, 1, 0, 0, 0, 0, 5, 9, 9, 9, 0, 0, 0, 4,
    0, 0, 0, 1, 99, 0, 8, 8, 0, 0, 0, 2, 0, 0, 0, 2, 0, 0, 0, 9]

/-- The tree of `sampleBlock`. -/
def sampleTree : Tree := .node [] [⟨0, [5]⟩] [.node [99] [] []]

theorem sampleBlock_denotes : Denotes sampleBlock sampleTree := by
  refine ⟨[.beginNode [] [7, 7, 7], .property 0 [5] [9, 9, 9], .nop, .beginNode [99] [8, 8],
    .endNode, .endNode], ?_, rfl, ?_⟩
  · simp [Lexeme.WF, padding]
  · decide

theorem structure_root_decodes_sample :
    ∃ root, Returns (Structure.root ⟨sampleBlock⟩ ⟨[112, 0]⟩ : Exec Unit Empty Node) () root () ∧
      Decodes ⟨[112, 0]⟩ root sampleTree ∧
      Returns (readTree sampleBlock.length root : Exec Unit Empty NamedTree) ()
        (sampleTree.named ⟨[112, 0]⟩) () := by
  refine structure_root_decodes ?_ sampleBlock_denotes
  unfold Returns
  decide +kernel

end Barebone.Devicetree

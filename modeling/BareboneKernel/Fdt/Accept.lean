import BareboneKernel.Fdt.Rescan

/-!
# The validator accepts the grammar

`Structure::new` keeps a depth, a phase and the start of the current property list where the
grammar has a stack of open nodes. `Tracks` relates the two: it says which lexemes have been
consumed, that they lead to the given state of the grammar, and that the loop variables describe
that state.

* `returns_structureRound`: a round of the main loop is one step of the grammar;
* `returns_structureNew`: a block is accepted exactly when its lexemes lead to the end;
* `safe_structureNew`: the validator always ends and never panics;
* **`structure_new_iff_denotes`**: the accepted blocks are the serializations of valid trees.
-/

set_option autoImplicit false

namespace Barebone.Devicetree

open Exec Endian

/-! ## Tokens other than `FDT_NOP` -/

theorem symbols_replicate_nop (k : ℕ) : symbols (List.replicate k .nop) = [] := by
  simp [symbols, Lexeme.symbol]

theorem wf_replicate_nop {k : ℕ} {l : Lexeme} (h : l ∈ List.replicate k Lexeme.nop) : l.WF := by
  rw [List.eq_of_mem_replicate h]
  trivial

/-- One round of `readNonNopToken`. -/
def nonNopRound : Unit → Exec Reader StructureError (Unit ⊕ (ℕ × Token)) := fun _ => do
  let (offset, token) ← readToken
  if token ≠ .nop then pure (.inr (offset, token)) else pure (.inl ())

theorem returns_nonNopRound {r r' : Reader} {x : Unit ⊕ (ℕ × Token)} :
    Returns (nonNopRound ()) r x r' ↔ (x = .inl () ∧ r.Consumes Lexeme.nop.encode r') ∨
      ∃ t, t ≠ .nop ∧ x = .inr (r.position, t) ∧ r.Consumes (toBE 4 t.value) r' := by
  rw [nonNopRound, returns_bind]
  constructor
  · rintro ⟨⟨offset, t⟩, r₁, ht, h⟩
    obtain ⟨rfl, hc⟩ := returns_readToken.mp ht
    dsimp only at h
    split at h
    · obtain ⟨rfl, rfl⟩ := returns_pure.mp h
      exact .inr ⟨t, ‹_›, rfl, hc⟩
    · obtain ⟨rfl, rfl⟩ := returns_pure.mp h
      obtain rfl : t = .nop := not_not.mp ‹_›
      exact .inl ⟨rfl, hc⟩
  · rintro (⟨rfl, hc⟩ | ⟨t, ht, rfl, hc⟩)
    · exact ⟨(r.position, .nop), r', returns_readToken.mpr ⟨rfl, hc⟩, returns_pure.mpr ⟨rfl, rfl⟩⟩
    · refine ⟨(r.position, t), r', returns_readToken.mpr ⟨rfl, hc⟩, ?_⟩
      dsimp only
      rw [if_pos ht]
      exact returns_pure.mpr ⟨rfl, rfl⟩

theorem nonNop_sound {fuel : ℕ} : ∀ {r r' : Reader} {p : ℕ × Token},
    Returns (iterate nonNopRound fuel ()) r p r' → p.2 ≠ .nop ∧ ∃ k,
      r.Consumes (encodeAll (List.replicate k .nop) ++ toBE 4 p.2.value) r' := by
  induction fuel with
  | zero => intro r r' p h; exact absurd h (by simp [iterate])
  | succ fuel ih =>
    intro r r' p h
    rcases returns_iterate_succ.mp h with ⟨_, r₁, h₁, h₂⟩ | h
    · rcases returns_nonNopRound.mp h₁ with ⟨-, hc⟩ | ⟨t, -, hx, -⟩
      · obtain ⟨hne, k, hk⟩ := ih h₂
        refine ⟨hne, k + 1, ?_⟩
        rw [List.replicate_succ, encodeAll_cons, List.append_assoc]
        exact hc.trans hk
      · cases hx
    · rcases returns_nonNopRound.mp h with ⟨hx, -⟩ | ⟨t, ht, hx, hc⟩
      · cases hx
      · cases hx
        exact ⟨ht, 0, hc⟩

theorem nonNop_complete {t : Token} (ht : t ≠ .nop) {r' : Reader} (k : ℕ) : ∀ {r : Reader} {fuel : ℕ},
    r.Consumes (encodeAll (List.replicate k .nop) ++ toBE 4 t.value) r' → k < fuel →
    ∃ offset, Returns (iterate nonNopRound fuel ()) r (offset, t) r' := by
  induction k with
  | zero =>
    intro r fuel hc hf
    obtain ⟨fuel, rfl⟩ : ∃ m, fuel = m + 1 := ⟨fuel - 1, by omega⟩
    exact ⟨r.position, returns_iterate_succ.mpr
      (.inr (returns_nonNopRound.mpr (.inr ⟨t, ht, rfl, hc⟩)))⟩
  | succ k ih =>
    intro r fuel hc hf
    rw [List.replicate_succ, encodeAll_cons, List.append_assoc] at hc
    obtain ⟨r₁, h₁, h₂⟩ := Reader.consumes_append.mp hc
    obtain ⟨fuel, rfl⟩ : ∃ m, fuel = m + 1 := ⟨fuel - 1, by omega⟩
    obtain ⟨offset, h⟩ := ih h₂ (show k < fuel by omega)
    exact ⟨offset, returns_iterate_succ.mpr
      (.inl ⟨(), r₁, returns_nonNopRound.mpr (.inl ⟨rfl, h₁⟩), h⟩)⟩

theorem readNonNopToken_eq : readNonNopToken =
    (get >>= fun r => iterate nonNopRound (r.bytes.length + 1) ()) := rfl

theorem readNonNopToken_sound {r r' : Reader} {offset : ℕ} {t : Token}
    (h : Returns readNonNopToken r (offset, t) r') : t ≠ .nop ∧ ∃ k,
      r.Consumes (encodeAll (List.replicate k .nop) ++ toBE 4 t.value) r' := by
  rw [readNonNopToken_eq, returns_bind] at h
  obtain ⟨_, _, hr, h⟩ := h
  obtain ⟨rfl, rfl⟩ := returns_get.mp hr
  exact nonNop_sound h

theorem readNonNopToken_complete {t : Token} (ht : t ≠ .nop) {k : ℕ} {r r' : Reader}
    (hc : r.Consumes (encodeAll (List.replicate k .nop) ++ toBE 4 t.value) r') :
    ∃ offset, Returns readNonNopToken r (offset, t) r' := by
  have hlen := length_le_length_encodeAll (List.replicate k .nop)
  have hrest := congrArg List.length hc.rest
  rw [Reader.length_remainingBytes, List.length_append, List.length_append] at hrest
  rw [List.length_replicate] at hlen
  obtain ⟨offset, h⟩ := nonNop_complete ht k hc (show k < r.bytes.length + 1 by omega)
  refine ⟨offset, ?_⟩
  rw [readNonNopToken_eq, returns_bind]
  exact ⟨r, r, returns_get.mpr ⟨rfl, rfl⟩, h⟩

/-- The bytes a reader still has, which every round of a loop decreases. -/
theorem Reader.Consumes.remaining_lt {r r' : Reader} {bs : List UInt8} (h : r.Consumes bs r')
    (hbs : 0 < bs.length) : r'.remaining < r.remaining := by
  have := congrArg List.length h.rest
  rw [Reader.length_remainingBytes, List.length_append, Reader.length_remainingBytes] at this
  simp only [Reader.remaining]
  omega

theorem safe_readNonNopToken (r : Reader) : Safe readNonNopToken r := by
  rw [readNonNopToken_eq]
  refine safe_bind safe_get fun r₀ r₁ h => ?_
  obtain ⟨rfl, rfl⟩ := returns_get.mp h
  refine safe_iterate (fun _ _ => True) (fun _ r => r.remaining) ?_ ?_ trivial ?_
  · intro _ r _
    refine safe_bind (safe_readToken r) fun p r' _ => ?_
    obtain ⟨offset, t⟩ := p
    dsimp only
    split <;> exact safe_pure
  · intro _ r _ r' _ h
    refine ⟨trivial, ?_⟩
    rcases returns_nonNopRound.mp h with ⟨-, hc⟩ | ⟨t, -, hx, -⟩
    · exact hc.remaining_lt (by simp [Lexeme.encode])
    · cases hx
  · simp only [Reader.remaining]
    omega

/-! ## Inverting the grammar at its two ends -/

theorem Steps.start_inv {strings : Strings} {t : Tree} : ∀ {ls : List Lexeme},
    Steps strings .start ls (.done t) → ∃ k pad ls',
      ls = List.replicate k .nop ++ .beginNode [] pad :: ls' ∧
        Steps strings (.inside ⟨[], [], []⟩ []) ls' (.done t) := by
  intro ls
  induction ls with
  | nil => intro h; cases h
  | cons l ls ih =>
    intro h
    cases h with
    | cons head tail =>
      cases head with
      | startNop =>
        obtain ⟨k, pad, ls', rfl, h'⟩ := ih tail
        exact ⟨k + 1, pad, ls', rfl, h'⟩
      | root pad => exact ⟨0, pad, ls, rfl, tail⟩

theorem Steps.closed_inv {strings : Strings} {t t' : Tree} : ∀ {ls : List Lexeme},
    Steps strings (.closed t) ls (.done t') → ∃ k, ls = List.replicate k .nop ++ [.fdtEnd] := by
  intro ls
  induction ls with
  | nil => intro h; cases h
  | cons l ls ih =>
    intro h
    cases h with
    | cons head tail =>
      cases head with
      | closedNop =>
        obtain ⟨k, rfl⟩ := ih tail
        exact ⟨k + 1, rfl⟩
      | stop =>
        cases tail with
        | nil => exact ⟨0, rfl⟩
        | cons head _ => cases head

theorem Steps.closed_unique {strings : Strings} {t t' : Tree} : ∀ {ls : List Lexeme},
    Steps strings (.closed t) ls (.done t') → t = t' := by
  intro ls
  induction ls with
  | nil => intro h; cases h
  | cons l ls ih =>
    intro h
    cases h with
    | cons head tail =>
      cases head with
      | closedNop => exact ih tail
      | stop =>
        cases tail with
        | nil => rfl
        | cons head _ => cases head

/-! ## The loop variables and the stack -/

/-- The loop variables describe the state of the grammar: the depth is the height of the stack, the
phase tells whether the innermost node has a child, and the lexemes since `propertiesStart` are the
properties of that node. -/
def Agrees (all : List Lexeme) (st : LoopState) : ParseState → Prop
  | .inside n outer => st.depth = outer.length + 1 ∧ (st.phase = .properties ↔ n.children = []) ∧
      (n.children = [] → ∃ before props, all = before ++ props ∧
        (encodeAll before).length = st.propertiesStart ∧ symbols props = n.properties.map .property)
  | .closed _ => st.depth = 0
  | _ => False

/-- The validator has consumed the lexemes `hd`, up to the name of the root, and `ls`; they lead to
the state `s` and the loop variables describe it. -/
structure Tracks (strings : Strings) (bytes : List UInt8) (hd ls : List Lexeme) (r : Reader)
    (st : LoopState) (s : ParseState) : Prop where
  wf : ∀ l ∈ hd ++ ls, l.WF
  consumed : (Reader.new bytes).Consumes (encodeAll (hd ++ ls)) r
  steps : Steps strings (.inside ⟨[], [], []⟩ []) ls s
  agrees : Agrees (hd ++ ls) st s

/-- The loop variables after a lexeme that ends at `position`. -/
def LoopState.next (st : LoopState) (position : ℕ) : Lexeme → LoopState
  | .beginNode _ _ => ⟨st.depth + 1, .properties, position⟩
  | .endNode =>
    if st.depth - 1 > 0 then ⟨st.depth - 1, .children, st.propertiesStart⟩
    else ⟨st.depth - 1, st.phase, st.propertiesStart⟩
  | _ => st

section Tracks

variable {strings : Strings} {bytes : List UInt8} {hd ls : List Lexeme} {r r' : Reader}
  {st : LoopState} {s s' : ParseState} {n : OpenNode} {outer : List OpenNode}

theorem Tracks.position (h : Tracks strings bytes hd ls r st s) :
    r.position = (encodeAll (hd ++ ls)).length := by
  rw [Reader.position, h.consumed.offset]
  simp [Reader.new]

theorem Tracks.offset_mod (h : Tracks strings bytes hd ls r st s) : r.offset % 4 = 0 := by
  have := length_encodeAll_mod h.wf
  rw [← h.position] at this
  exact this

theorem Tracks.bytes_eq (h : Tracks strings bytes hd ls r st s) :
    bytes = encodeAll (hd ++ ls) ++ r.remainingBytes := h.consumed.rest

theorem Tracks.reader_bytes (h : Tracks strings bytes hd ls r st s) : r.bytes = bytes :=
  h.consumed.bytes

/-- The properties read so far in the innermost node all resolve. -/
theorem Tracks.resolves (h : Tracks strings bytes hd ls r st (.inside n outer)) :
    ∀ p ∈ n.properties, ∃ name, strings.Resolves p.nameOffset name := by
  have hv := stackValid_head (h.steps.valid (s := .inside _ _) ⟨OpenNode.valid_new [], rfl⟩)
  rcases hv with @⟨_, _, _, h₁, -, -, -, -⟩
  exact h₁

theorem Tracks.no_children (h : Tracks strings bytes hd ls r st (.inside n outer))
    (hp : st.phase ≠ .children) : n.children = [] := by
  apply h.agrees.2.1.mp
  cases hph : st.phase with
  | properties => rfl
  | children => exact absurd hph hp

theorem Agrees.step {l : Lexeme} (h : Step strings (.inside n outer) l s')
    (hs : Agrees (hd ++ ls) st (.inside n outer))
    (hpos : r'.position = (encodeAll (hd ++ (ls ++ [l]))).length) :
    Agrees (hd ++ (ls ++ [l])) (st.next r'.position l) s' := by
  cases h with
  | insideNop =>
    obtain ⟨h₁, h₂, h₃⟩ := hs
    refine ⟨h₁, h₂, fun hc => ?_⟩
    obtain ⟨before, props, he, hl, hp⟩ := h₃ hc
    refine ⟨before, props ++ [.nop], by rw [← List.append_assoc, he, List.append_assoc], hl, ?_⟩
    simpa [symbols, Lexeme.symbol, List.filterMap_cons] using hp
  | beginNode =>
    obtain ⟨h₁, -, -⟩ := hs
    refine ⟨by simp [LoopState.next, h₁], by simp [LoopState.next], fun _ => ?_⟩
    exact ⟨_, [], (List.append_nil _).symm, hpos.symm, rfl⟩
  | property first =>
    obtain ⟨h₁, h₂, h₃⟩ := hs
    refine ⟨h₁, h₂, fun hc => ?_⟩
    obtain ⟨before, props, he, hl, hp⟩ := h₃ hc
    refine ⟨before, props ++ [_], by rw [← List.append_assoc, he, List.append_assoc], hl, ?_⟩
    simp only [symbols] at hp
    simp [symbols, Lexeme.symbol, hp, OpenNode.addProperty]
  | endInner =>
    obtain ⟨h₁, -, -⟩ := hs
    have hd : st.depth - 1 > 0 := by rw [h₁]; simp
    simp only [LoopState.next, if_pos hd]
    refine ⟨by simp [h₁], by simp [OpenNode.addChild], fun hc => ?_⟩
    simp [OpenNode.addChild] at hc
  | endRoot =>
    obtain ⟨h₁, -, -⟩ := hs
    have hd : ¬ st.depth - 1 > 0 := by rw [h₁]; simp
    simp only [LoopState.next, if_neg hd]
    simp [Agrees, h₁]

theorem Tracks.step {l : Lexeme} (h : Tracks strings bytes hd ls r st (.inside n outer))
    (hs : Step strings (.inside n outer) l s') (hl : l.WF) (hc : r.Consumes l.encode r') :
    Tracks strings bytes hd (ls ++ [l]) r' (st.next r'.position l) s' := by
  have hc' : (Reader.new bytes).Consumes (encodeAll (hd ++ (ls ++ [l]))) r' := by
    have := h.consumed.trans hc
    simpa using this
  refine ⟨?_, hc', h.steps.snoc hs, h.agrees.step hs ?_⟩
  · rw [← List.append_assoc]
    intro l' hl'
    rcases List.mem_append.mp hl' with h' | h'
    · exact h.wf l' h'
    · rw [List.mem_singleton.mp h']; exact hl
  · rw [Reader.position, hc'.offset]
    simp [Reader.new]

/-! ## One round -/

theorem returns_validateProperty {depth : ℕ} {r₁ : Reader} {u : Unit}
    (h : Tracks strings bytes hd ls r st (.inside n outer)) (hn : n.children = [])
    (ht : r.Consumes (toBE 4 Token.property.value) r₁) :
    Returns (validateProperty bytes strings st.propertiesStart r.position depth) r₁ u r' ↔
      ∃ nameOffset value pad name, (Lexeme.property nameOffset value pad).WF ∧
        r.Consumes (Lexeme.property nameOffset value pad).encode r' ∧
        strings.Resolves nameOffset name ∧
        ∀ p ∈ n.properties, ¬ strings.Resolves p.nameOffset name := by
  obtain ⟨before, props, he, hstart, hprops⟩ := h.agrees.2.2 hn
  have hr₁ := ht.offset_mod h.offset_mod
  have hfind (name : List UInt8) (r₂ : Reader) := returns_findProperty bytes name r₂ hprops
    h.resolves (he ▸ h.wf) (he ▸ h.bytes_eq)
  rw [hstart, ← he, ← h.position] at hfind
  have hnone (name : List UInt8) : (¬ ∃ p ∈ n.properties, strings.Resolves p.nameOffset name) ↔
      ∀ p ∈ n.properties, ¬ strings.Resolves p.nameOffset name := by simp
  simp only [validateProperty, returns_bind, returns_mapError, Strings.returns_validatePropertyName]
  constructor
  · rintro ⟨length, r₂, h₁, nameOffset, r₃, h₂, name, _, ⟨hres, rfl⟩, value, r₄, h₃, pad, r₅, h₄,
      m, r₆, hm, hend⟩
    obtain ⟨rfl, hwf, hc⟩ := (returns_propertyOperands hr₁).mp ⟨r₂, _, r₄, h₁, h₂, h₃, h₄⟩
    obtain ⟨m', hm', hiff, -⟩ := hfind name r₅
    obtain ⟨rfl, rfl⟩ := hm.unique hm'
    cases m with
    | some o => simp at hend
    | none =>
      obtain ⟨-, rfl⟩ := returns_pure.mp hend
      refine ⟨nameOffset, value, pad, name, hwf, ht.trans hc, hres, ?_⟩
      exact (hnone name).mp fun hex => by simpa using hiff.mpr hex
  · rintro ⟨nameOffset, value, pad, name, hwf, hc, hres, hfresh⟩
    obtain ⟨r₁', ht', ho⟩ := Reader.consumes_append.mp hc
    obtain rfl := ht.unique ht'
    obtain ⟨r₂, r₃, r₄, h₁, h₂, h₃, h₄⟩ := (returns_propertyOperands hr₁).mpr ⟨rfl, hwf, ho⟩
    obtain ⟨m, hm, hiff, -⟩ := hfind name r'
    refine ⟨_, r₂, h₁, nameOffset, r₃, h₂, name, r₃, ⟨hres, rfl⟩, value, r₄, h₃, pad, r', h₄,
      m, r', hm, ?_⟩
    cases m with
    | some o => exact absurd (hiff.mp rfl) ((hnone name).mpr hfresh)
    | none => exact returns_pure.mpr ⟨rfl, rfl⟩

/-- **One round.** Inside the root, a round of the main loop is one step of the grammar. -/
theorem returns_structureRound {x : LoopState ⊕ Unit}
    (h : Tracks strings bytes hd ls r st (.inside n outer)) :
    Returns (structureRound bytes strings (encodeAll hd).length st) r x r' ↔
      ∃ l s', x = .inl (st.next r'.position l) ∧ l.WF ∧ r.Consumes l.encode r' ∧
        Step strings (.inside n outer) l s' := by
  obtain ⟨hdepth, hphase, -⟩ := h.agrees
  have hfind (name : List UInt8) (r₂ : Reader) := returns_findPriorSiblingNode name r₂ h.steps
    h.wf h.bytes_eq
  rw [← hdepth, ← h.position] at hfind
  have hnone (name : List UInt8) : (¬ ∃ c ∈ n.children, c.name = name) ↔
      ∀ c ∈ n.children, c.name ≠ name := by simp
  rw [structureRound, if_pos (show st.depth > 0 by omega), returns_bind]
  constructor
  · rintro ⟨⟨offset, t⟩, r₁, ht, hbody⟩
    obtain ⟨rfl, hc⟩ := returns_readToken.mp ht
    have hr₁ := hc.offset_mod h.offset_mod
    cases t with
    | beginNode =>
      simp only [returns_bind, returns_mapError, returns_get, returns_ofExcept] at hbody
      obtain ⟨_, _, ⟨rfl, rfl⟩, name, r₂, h₁, _, _, ⟨hvalid, rfl⟩, pad, r₃, h₂, m, r₄, hm, hend⟩ :=
        hbody
      obtain ⟨hwf, ho⟩ := (returns_nodeOperands hr₁).mp ⟨_, h₁, h₂⟩
      obtain ⟨m', hm', hiff, -⟩ := hfind name r₃
      obtain ⟨rfl, rfl⟩ := hm.unique hm'
      have hname : ValidNodeName name := by
        rw [← validateNodeName_eq_ok_iff]
        revert hvalid
        cases validateNodeName name <;> simp [Except.mapError]
      cases m with
      | some o => simp at hend
      | none =>
        simp only [returns_bind, returns_get, returns_pure] at hend
        obtain ⟨_, _, ⟨rfl, rfl⟩, rfl, rfl⟩ := hend
        refine ⟨.beginNode name pad, _, rfl, hwf, hc.trans ho, .beginNode hname ?_⟩
        exact (hnone name).mp fun hex => by simpa using hiff.mpr hex
    | endNode =>
      have hx : x = .inl (st.next r₁.position .endNode) ∧ r' = r₁ := by
        unfold LoopState.next
        split_ifs at hbody ⊢ <;> exact returns_pure.mp hbody
      obtain ⟨rfl, rfl⟩ := hx
      cases outer with
      | nil => exact ⟨.endNode, _, rfl, trivial, hc, .endRoot n⟩
      | cons p outer => exact ⟨.endNode, _, rfl, trivial, hc, .endInner n p outer⟩
    | property =>
      dsimp only at hbody
      split at hbody
      · simp at hbody
      · rename_i hp
        have hn := h.no_children hp
        rw [returns_bind] at hbody
        obtain ⟨u, r₂, hv, hend⟩ := hbody
        obtain ⟨rfl, rfl⟩ := returns_pure.mp hend
        obtain ⟨nameOffset, value, pad, name, hwf, hc', hres, hfresh⟩ :=
          (returns_validateProperty h hn hc).mp hv
        exact ⟨.property nameOffset value pad, _, rfl, hwf, hc', .property hn hres hfresh⟩
    | nop =>
      obtain ⟨rfl, rfl⟩ := returns_pure.mp hbody
      exact ⟨.nop, _, rfl, trivial, hc, .insideNop n outer⟩
    | fdtEnd => simp at hbody
  · rintro ⟨l, s', rfl, hwf, hc, hstep⟩
    cases hstep with
    | insideNop =>
      exact ⟨(r.position, .nop), r', returns_readToken.mpr ⟨rfl, hc⟩, returns_pure.mpr ⟨rfl, rfl⟩⟩
    | @beginNode _ _ name pad hname hfresh =>
      obtain ⟨r₁, ht, ho⟩ := Reader.consumes_append.mp hc
      obtain ⟨r₂, h₁, h₂⟩ :=
        (returns_nodeOperands (ht.offset_mod h.offset_mod)).mpr ⟨hwf, ho⟩
      obtain ⟨m, hm, hiff, -⟩ := hfind name r'
      refine ⟨(r.position, .beginNode), r₁, returns_readToken.mpr ⟨rfl, ht⟩, ?_⟩
      simp only [returns_bind, returns_mapError, returns_get, returns_ofExcept]
      have hvalid : ∀ f : NodeNameError → StructureError,
          (validateNodeName name).mapError f = .ok () := fun f => by
        rw [validateNodeName_eq_ok_iff.mpr hname]
        rfl
      refine ⟨r₁, r₁, ⟨rfl, rfl⟩, name, r₂, h₁, (), r₂, ⟨hvalid _, rfl⟩, pad, r', h₂,
        m, r', hm, ?_⟩
      cases m with
      | some o => exact absurd (hiff.mp rfl) ((hnone name).mpr hfresh)
      | none =>
        simp only [returns_bind, returns_get, returns_pure]
        exact ⟨r', r', ⟨rfl, rfl⟩, rfl, rfl⟩
    | @property _ _ nameOffset value pad name first hres hfresh =>
      obtain ⟨r₁, ht, ho⟩ := Reader.consumes_append.mp hc
      refine ⟨(r.position, .property), r₁, returns_readToken.mpr ⟨rfl, ht⟩, ?_⟩
      have hp : ¬ st.phase = .children := by rw [hphase.mpr first]; simp
      dsimp only
      rw [if_neg hp, returns_bind]
      exact ⟨(), r', (returns_validateProperty h first ht).mpr
        ⟨nameOffset, value, pad, name, hwf, hc, hres, hfresh⟩, returns_pure.mpr ⟨rfl, rfl⟩⟩
    | endInner | endRoot =>
      refine ⟨(r.position, .endNode), r', returns_readToken.mpr ⟨rfl, hc⟩, ?_⟩
      unfold LoopState.next
      dsimp only
      split_ifs <;> exact returns_pure.mpr ⟨rfl, rfl⟩

/-! ## The main loop -/

/-- The states of the grammar between the name of the root and the end of the main loop. -/
def InLoop (s : ParseState) : Prop := (∃ n outer, s = .inside n outer) ∨ ∃ t, s = .closed t

theorem InLoop.step {l : Lexeme} (h : Step strings (.inside n outer) l s') : InLoop s' := by
  cases h with
  | endRoot => exact .inr ⟨_, rfl⟩
  | _ => exact .inl ⟨_, _, rfl⟩

/-- At depth zero the loop is left. -/
theorem returns_structureRound_closed {t : Tree} {x : LoopState ⊕ Unit}
    (h : Tracks strings bytes hd ls r st (.closed t)) :
    Returns (structureRound bytes strings (encodeAll hd).length st) r x r' ↔ x = .inr () ∧ r' = r := by
  have hd0 : ¬ st.depth > 0 := by rw [show st.depth = 0 from h.agrees]; simp
  rw [structureRound, if_neg hd0]
  exact returns_pure

/-- **The rounds of the main loop** read one lexeme each, and every earlier round has read those
before. -/
theorem Tracks.rounds {k : ℕ} {st' : LoopState}
    (hr : Rounds (structureRound bytes strings (encodeAll hd).length) k st r st' r') :
    ∀ {ls : List Lexeme} {s : ParseState}, InLoop s → Tracks strings bytes hd ls r st s →
    ∃ ls' s', ls'.length = k ∧ InLoop s' ∧ Tracks strings bytes hd (ls ++ ls') r' st' s' ∧
      Steps strings s ls' s' ∧ ∀ j ≤ k, ∃ st₁ r₁ s₁,
        Rounds (structureRound bytes strings (encodeAll hd).length) j st r st₁ r₁ ∧ InLoop s₁ ∧
        Tracks strings bytes hd (ls ++ ls'.take j) r₁ st₁ s₁ ∧
        Steps strings s₁ (ls'.drop j) s' := by
  induction hr with
  | zero b s₀ =>
    intro ls s hs h
    rw [← List.append_nil ls] at h
    refine ⟨[], s, rfl, hs, h, .nil s, fun j hj => ?_⟩
    obtain rfl := Nat.le_zero.mp hj
    exact ⟨b, s₀, s, .zero b s₀, hs, h, .nil s⟩
  | @succ k st st₁ st₂ r r₁ r₂ head _ ih =>
    rintro ls s (⟨n, outer, rfl⟩ | ⟨t, rfl⟩) h
    · obtain ⟨l, s', hx, hwf, hc, hstep⟩ := (returns_structureRound h).mp head
      cases hx
      obtain ⟨ls', s'', hlen, hs'', h', hsteps, hprev⟩ := ih (.step hstep) (h.step hstep hwf hc)
      rw [← List.append_cons] at h'
      refine ⟨l :: ls', s'', by rw [List.length_cons, hlen], hs'', h', .cons hstep hsteps,
        fun j hj => ?_⟩
      cases j with
      | zero =>
        refine ⟨st, r, .inside n outer, .zero st r, .inl ⟨n, outer, rfl⟩, ?_, .cons hstep hsteps⟩
        rw [List.take_zero, List.append_nil]
        exact h
      | succ j =>
        obtain ⟨st₃, r₃, s₃, h₃, hs₃, ht₃, hst₃⟩ := hprev j (Nat.le_of_succ_le_succ hj)
        rw [← List.append_cons] at ht₃
        exact ⟨st₃, r₃, s₃, .succ head h₃, hs₃, ht₃, hst₃⟩
    · exact absurd ((returns_structureRound_closed h).mp head).1 (by simp)

theorem structureLoop_sound {fuel : ℕ} (hs : InLoop s) (h : Tracks strings bytes hd ls r st s)
    (hret : Returns (iterate (structureRound bytes strings (encodeAll hd).length) fuel st) r () r') :
    ∃ ls' t st', Tracks strings bytes hd ls' r' st' (.closed t) := by
  obtain ⟨k, st₁, r₁, hrounds, hexit⟩ := exists_rounds_of_returns hret
  obtain ⟨ls', s', -, ⟨n, outer, rfl⟩ | ⟨t, rfl⟩, h', -⟩ := Tracks.rounds hrounds hs h
  · obtain ⟨l, s', hx, -⟩ := (returns_structureRound h').mp hexit
    cases hx
  · obtain ⟨-, rfl⟩ := (returns_structureRound_closed h').mp hexit
    exact ⟨_, t, st₁, h'⟩

theorem structureLoop_complete {t : Tree} {ls₂ : List Lexeme} : ∀ {ls : List Lexeme} {r : Reader}
    {st : LoopState} {n : OpenNode} {outer : List OpenNode} {fuel : ℕ},
    Tracks strings bytes hd ls r st (.inside n outer) →
    Steps strings (.inside n outer) ls₂ (.done t) → (∀ l ∈ ls₂, l.WF) →
    r.Consumes (encodeAll ls₂) r' → ls₂.length < fuel →
    ∃ ls₃ r₁, Returns (iterate (structureRound bytes strings (encodeAll hd).length) fuel st) r () r₁ ∧
      r₁.Consumes (encodeAll ls₃) r' ∧ Steps strings (.closed t) ls₃ (.done t) := by
  induction ls₂ with
  | nil => intro ls r st n outer fuel _ hs; cases hs
  | cons l ls₂ ih =>
    intro ls r st n outer fuel htr hs hwf hc hf
    obtain ⟨fuel, rfl⟩ : ∃ k, fuel = k + 1 := ⟨fuel - 1, by omega⟩
    have hf' : ls₂.length < fuel := by rw [List.length_cons] at hf; omega
    obtain ⟨r₁, h₁, h₂⟩ := Reader.consumes_append.mp hc
    have hwl := hwf l List.mem_cons_self
    cases hs with
    | @cons _ s' _ _ _ head tail =>
    have hround := (returns_structureRound htr).mpr ⟨l, s', rfl, hwl, h₁, head⟩
    have htr' := htr.step head hwl h₁
    by_cases hs' : ∃ n' outer', s' = .inside n' outer'
    · obtain ⟨n', outer', rfl⟩ := hs'
      obtain ⟨ls₃, r₂, hi, hc₃, hs₃⟩ := ih htr' tail
        (fun l' hl' => hwf l' (List.mem_cons_of_mem _ hl')) h₂ hf'
      exact ⟨ls₃, r₂, returns_iterate_succ.mpr (.inl ⟨_, r₁, hround, hi⟩), hc₃, hs₃⟩
    · obtain ⟨t', rfl⟩ : ∃ t', s' = .closed t' := by
        cases head with
        | endRoot => exact ⟨_, rfl⟩
        | _ => exact absurd ⟨_, _, rfl⟩ hs'
      obtain rfl : t' = t := Steps.closed_unique tail
      refine ⟨ls₂, r₁, returns_iterate_succ.mpr (.inl ⟨_, r₁, hround, ?_⟩), h₂, tail⟩
      obtain ⟨fuel, rfl⟩ : ∃ k, fuel = k + 1 := ⟨fuel - 1, by omega⟩
      exact returns_iterate_succ.mpr (.inr ((returns_structureRound_closed htr').mpr ⟨rfl, rfl⟩))

theorem safe_structureRound (h : Tracks strings bytes hd ls r st (.inside n outer)) :
    Safe (structureRound bytes strings (encodeAll hd).length st) r := by
  obtain ⟨hdepth, -, -⟩ := h.agrees
  rw [structureRound, if_pos (show st.depth > 0 by omega)]
  refine safe_bind (safe_readToken r) fun p r₁ ht => ?_
  obtain ⟨offset, t⟩ := p
  obtain ⟨rfl, hc⟩ := returns_readToken.mp ht
  cases t with
  | beginNode =>
    refine safe_bind safe_get fun _ _ _ => ?_
    refine safe_bind (safe_mapError (Reader.safe_readNulTerminated _)) fun name _ _ => ?_
    refine safe_bind safe_ofExcept fun _ _ _ => ?_
    refine safe_bind (safe_mapError (Reader.safe_alignTo4 _)) fun _ r₂ _ => ?_
    obtain ⟨m, hm, -⟩ := returns_findPriorSiblingNode name r₂ h.steps h.wf h.bytes_eq
    rw [← hdepth, ← h.position] at hm
    refine safe_bind hm.safe fun m' _ _ => ?_
    cases m' with
    | some o => exact safe_fail
    | none => exact safe_bind safe_get fun _ _ _ => safe_pure
  | endNode =>
    dsimp only
    split <;> exact safe_pure
  | property =>
    dsimp only
    split
    · exact safe_fail
    · rename_i hp
      obtain ⟨before, props, he, hstart, hprops⟩ := h.agrees.2.2 (h.no_children hp)
      refine safe_bind ?_ fun _ _ _ => safe_pure
      refine safe_bind (safe_mapError (Reader.safe_readU32 _)) fun _ _ _ => ?_
      refine safe_bind (safe_mapError (Reader.safe_readU32 _)) fun _ _ _ => ?_
      refine safe_bind (safe_mapError (Strings.safe_validatePropertyName _ _ _)) fun name _ _ => ?_
      refine safe_bind (safe_mapError (Reader.safe_readBytes _ _)) fun _ _ _ => ?_
      refine safe_bind (safe_mapError (Reader.safe_alignTo4 _)) fun _ r₂ _ => ?_
      obtain ⟨m, hm, -⟩ := returns_findProperty bytes name r₂ hprops h.resolves (he ▸ h.wf)
        (he ▸ h.bytes_eq)
      rw [hstart, ← he, ← h.position] at hm
      refine safe_bind hm.safe fun m' _ _ => ?_
      cases m' with
      | some o => exact safe_fail
      | none => exact safe_pure
  | nop => exact safe_pure
  | fdtEnd => exact safe_fail

theorem safe_structureLoop (h : Tracks strings bytes hd ls r st (.inside n outer)) :
    Safe (iterate (structureRound bytes strings (encodeAll hd).length) (bytes.length + 1) st) r := by
  refine safe_iterate
    (fun st r => ∃ ls s, InLoop s ∧ Tracks strings bytes hd ls r st s) (fun _ r => r.remaining) ?_ ?_
    ⟨ls, _, .inl ⟨n, outer, rfl⟩, h⟩ ?_
  · rintro st r ⟨ls, s, ⟨n, outer, rfl⟩ | ⟨t, rfl⟩, h⟩
    · exact safe_structureRound h
    · exact ((returns_structureRound_closed h).mpr ⟨rfl, rfl⟩).safe
  · rintro st r st' r' ⟨ls, s, ⟨n, outer, rfl⟩ | ⟨t, rfl⟩, h⟩ hret
    · obtain ⟨l, s', hx, hwf, hc, hstep⟩ := (returns_structureRound h).mp hret
      cases hx
      exact ⟨⟨_, s', .step hstep, h.step hstep hwf hc⟩,
        hc.remaining_lt (by have := l.four_le_length_encode; omega)⟩
    · exact absurd ((returns_structureRound_closed h).mp hret).1 (by simp)
  · rw [Reader.remaining, h.reader_bytes]
    omega

end Tracks

/-! ## The whole block -/

section Block

variable {σ : Type} {strings : Strings} {bytes : List UInt8}

variable (strings) in
/-- The loop starts when the leading `FDT_NOP`s, the root token and its empty name are consumed. -/
theorem tracks_root {k : ℕ} {pad : List UInt8} {r : Reader}
    (hwf : (Lexeme.beginNode [] pad).WF)
    (hc : (Reader.new bytes).Consumes (encodeAll (List.replicate k .nop ++ [.beginNode [] pad])) r) :
    Tracks strings bytes (List.replicate k .nop ++ [.beginNode [] pad]) [] r
      ⟨1, .properties, r.position⟩ (.inside ⟨[], [], []⟩ []) where
  wf := by
    rw [List.append_nil]
    intro l hl
    rcases List.mem_append.mp hl with h | h
    · exact wf_replicate_nop h
    · rw [List.mem_singleton.mp h]; exact hwf
  consumed := by rw [List.append_nil]; exact hc
  steps := .nil _
  agrees := by
    refine ⟨rfl, by simp, fun _ => ⟨_, [], rfl, ?_, rfl⟩⟩
    simp [Reader.position, hc.offset, Reader.new]

/-- The root token with its empty name, as the validator reads it. -/
theorem returns_rootName {r r' : Reader} {pad : List UInt8} (hr : r.offset % 4 = 0) :
    (∃ r₁, Returns Reader.readU8 r 0 r₁ ∧ Returns Reader.alignTo4 r₁ pad r') ↔
      (Lexeme.beginNode [] pad).WF ∧ r.Consumes (([] ++ [0]) ++ pad) r' := by
  rw [← returns_nodeOperands hr]
  simp [Reader.returns_readU8, Reader.returns_readNulTerminated]

variable (strings) in
/-- What has been read when the main loop starts. -/
theorem tracks_start {o : ℕ} {pad : List UInt8} {r₁ r₂ r₃ : Reader}
    (h₁ : Returns readNonNopToken (Reader.new bytes) (o, .beginNode) r₁)
    (h₂ : Returns Reader.readU8 r₁ 0 r₂) (h₃ : Returns Reader.alignTo4 r₂ pad r₃) :
    ∃ k, r₃.position = (encodeAll (List.replicate k .nop ++ [.beginNode [] pad])).length ∧
      Tracks strings bytes (List.replicate k .nop ++ [.beginNode [] pad]) [] r₃
        ⟨1, .properties, r₃.position⟩ (.inside ⟨[], [], []⟩ []) := by
  obtain ⟨-, k, hc₁⟩ := readNonNopToken_sound h₁
  have hr₁ : r₁.offset % 4 = 0 := by
    have := length_encodeAll_mod fun l hl => wf_replicate_nop (k := k) hl
    rw [hc₁.offset, List.length_append, length_toBE]
    simp only [Reader.new]
    omega
  obtain ⟨hwf, hc₂⟩ := (returns_rootName hr₁).mp ⟨r₂, h₂, h₃⟩
  have hc : (Reader.new bytes).Consumes
      (encodeAll (List.replicate k .nop ++ [.beginNode [] pad])) r₃ := by
    have := hc₁.trans hc₂
    simpa [Lexeme.encode] using this
  have htr := tracks_root strings hwf hc
  exact ⟨k, by simpa using htr.position, htr⟩

/-- What has been read when `FDT_END` follows the main loop. -/
theorem tracks_end {k : ℕ} {pad : List UInt8} {ls : List Lexeme} {r r' : Reader} {st : LoopState}
    {t : Tree} {o : ℕ}
    (h : Tracks strings bytes (List.replicate k .nop ++ [.beginNode [] pad]) ls r st (.closed t))
    (hend : Returns readNonNopToken r (o, .fdtEnd) r') :
    ∃ ls, (∀ l ∈ ls, l.WF) ∧ (Reader.new bytes).Consumes (encodeAll (ls ++ [.fdtEnd])) r' ∧
      Steps strings .start (ls ++ [.fdtEnd]) (.done t) := by
  obtain ⟨-, k', hc⟩ := readNonNopToken_sound hend
  refine ⟨List.replicate k .nop ++ [.beginNode [] pad] ++ ls ++ List.replicate k' .nop, ?_, ?_, ?_⟩
  · intro l hl
    rcases List.mem_append.mp hl with h' | h'
    · exact h.wf l h'
    · exact wf_replicate_nop h'
  · have := h.consumed.trans hc
    simpa [Lexeme.encode] using this
  · refine Steps.snoc ?_ (.stop t)
    refine Steps.append ?_ (steps_nops (.closedNop t) (symbols_replicate_nop k'))
    refine Steps.append ?_ h.steps
    exact (steps_nops .startNop (symbols_replicate_nop k)).snoc (.root pad)

theorem returns_structureNew {s s' : σ} {st : Structure} :
    Returns (Structure.new bytes strings) s st s' ↔ s' = s ∧ st = ⟨bytes⟩ ∧
      ∃ ls t, (∀ l ∈ ls, l.WF) ∧ bytes = encodeAll (ls ++ [.fdtEnd]) ∧
        Steps strings .start (ls ++ [.fdtEnd]) (.done t) := by
  rw [Structure.new, returns_onLocal]
  refine and_congr_right fun _ => ?_
  constructor
  · rintro ⟨r', h⟩
    simp only [returns_bind] at h
    obtain ⟨⟨o, t⟩, r₁, h₁, h⟩ := h
    split at h
    · simp at h
    obtain rfl : t = .beginNode := not_not.mp ‹_›
    simp only [returns_bind, returns_get, returns_mapError] at h
    obtain ⟨_, r₁, ⟨rfl, rfl⟩, b, r₂, h₂, h⟩ := h
    split at h
    · simp at h
    obtain rfl : b = 0 := not_not.mp ‹_›
    simp only [returns_bind, returns_get, returns_mapError] at h
    obtain ⟨pad, _, h₃, _, r₃, ⟨rfl, rfl⟩, _, r₄, h₄, ⟨o', t'⟩, r₅, h₅, h⟩ := h
    obtain ⟨k, hstart, htr⟩ := tracks_start strings h₁ h₂ h₃
    rw [hstart] at h₄
    rw [hstart] at htr
    obtain ⟨ls, t, st', htr'⟩ := structureLoop_sound (.inl ⟨_, _, rfl⟩) htr h₄
    split at h
    · simp at h
    obtain rfl : t' = .fdtEnd := not_not.mp ‹_›
    simp only [returns_bind, returns_get] at h
    obtain ⟨_, _, ⟨rfl, rfl⟩, h⟩ := h
    split at h
    · simp at h
    obtain ⟨rfl, rfl⟩ := returns_pure.mp h
    have hrem : r'.remainingBytes = [] := by
      rw [← List.length_eq_zero_iff, Reader.length_remainingBytes]
      exact not_not.mp ‹_›
    obtain ⟨ls', hwf, hc, hsteps⟩ := tracks_end htr' h₅
    have hb := hc.rest
    rw [hrem, Reader.remainingBytes_new, List.append_nil] at hb
    exact ⟨rfl, ls', t, hwf, hb, hsteps⟩
  · rintro ⟨rfl, ls, t, hwf, hb, hs⟩
    obtain ⟨k, pad, ls', he, hs'⟩ := hs.start_inv
    rw [he] at hb
    have hwf' : ∀ l ∈ List.replicate k .nop ++ (.beginNode [] pad :: ls'), l.WF := by
      rw [← he]
      intro l hl
      rcases List.mem_append.mp hl with h | h
      · exact hwf l h
      · rw [List.mem_singleton.mp h]; trivial
    obtain ⟨r', hc, hrem⟩ := Reader.exists_consumes (r := Reader.new bytes)
      (hb.trans (List.append_nil _).symm)
    rw [List.append_cons, encodeAll_append] at hc
    obtain ⟨r₃, hc₃, hc₄⟩ := Reader.consumes_append.mp hc
    have hroot : (Lexeme.beginNode [] pad).WF := hwf' _ (by simp)
    have htr := tracks_root strings hroot hc₃
    have hstart : r₃.position = (encodeAll (List.replicate k .nop ++ [.beginNode [] pad])).length := by
      simpa using htr.position
    have hlen := length_le_length_encodeAll (List.replicate k .nop ++ (.beginNode [] pad :: ls'))
    rw [← hb, List.length_append, List.length_cons] at hlen
    obtain ⟨ls₃, r₄, h₄, hc₅, hs₃⟩ := structureLoop_complete htr hs'
      (fun l hl => hwf' l (by simp [hl])) hc₄ (show ls'.length < bytes.length + 1 by omega)
    obtain ⟨k', rfl⟩ := hs₃.closed_inv
    obtain ⟨o', h₅⟩ := readNonNopToken_complete (t := .fdtEnd) (by decide)
      (show r₄.Consumes (encodeAll (List.replicate k' .nop) ++ toBE 4 Token.fdtEnd.value) r' by
        simpa [Lexeme.encode] using hc₅)
    -- the leading tokens
    rw [encodeAll_append] at hc₃
    obtain ⟨r₀, hc₀, hb₀⟩ := Reader.consumes_append.mp hc₃
    rw [encodeAll_cons, encodeAll_nil, List.append_nil] at hb₀
    obtain ⟨r₁, hc₁, hc₂⟩ := Reader.consumes_append.mp hb₀
    obtain ⟨o, h₁⟩ := readNonNopToken_complete (t := .beginNode) (by decide) (hc₀.trans hc₁)
    have hr₁ : r₁.offset % 4 = 0 := by
      have := length_encodeAll_mod fun l hl => wf_replicate_nop (k := k) hl
      rw [hc₁.offset, hc₀.offset, length_toBE]
      simp only [Reader.new]
      omega
    obtain ⟨r₂, h₂, h₃⟩ := (returns_rootName hr₁).mpr ⟨hroot, hc₂⟩
    have hrem' : r'.remaining = 0 := by
      rw [Reader.remaining, ← Reader.length_remainingBytes, hrem]
      rfl
    refine ⟨r', ?_⟩
    simp only [returns_bind]
    refine ⟨(o, .beginNode), r₁, h₁, ?_⟩
    simp only [ne_eq, not_true, if_false, returns_bind, returns_get, returns_mapError]
    refine ⟨r₁, r₁, ⟨rfl, rfl⟩, 0, r₂, h₂, ?_⟩
    simp only [not_true, if_false, returns_bind, returns_get, returns_mapError]
    refine ⟨pad, r₃, h₃, r₃, r₃, ⟨rfl, rfl⟩, (), r₄, hstart ▸ h₄, (o', .fdtEnd), r', h₅, ?_⟩
    simp only [not_true, if_false, returns_bind, returns_get]
    refine ⟨r', r', ⟨rfl, rfl⟩, ?_⟩
    simp [hrem']

/-- **The validator always ends.** No block and no strings block make it panic. -/
theorem safe_structureNew (bytes : List UInt8) (strings : Strings) (s : σ) :
    Safe (Structure.new bytes strings) s := by
  refine safe_onLocal ?_
  refine safe_bind (safe_readNonNopToken _) fun p r₁ h₁ => ?_
  obtain ⟨o, t⟩ := p
  dsimp only
  split
  · exact safe_fail
  obtain rfl : t = .beginNode := not_not.mp ‹_›
  refine safe_bind safe_get fun _ r₁ hr => ?_
  obtain ⟨rfl, rfl⟩ := returns_get.mp hr
  refine safe_bind (safe_mapError (Reader.safe_readU8 _)) fun b r₂ h₂ => ?_
  split
  · exact safe_fail
  obtain rfl : b = 0 := not_not.mp ‹_›
  refine safe_bind (safe_mapError (Reader.safe_alignTo4 _)) fun pad _ h₃ => ?_
  refine safe_bind safe_get fun _ r₃ hr => ?_
  obtain ⟨rfl, rfl⟩ := returns_get.mp hr
  obtain ⟨k, hstart, htr⟩ := tracks_start strings h₁ (returns_mapError.mp h₂)
    (returns_mapError.mp h₃)
  rw [hstart] at htr
  rw [hstart]
  refine safe_bind (safe_structureLoop htr) fun _ r₄ _ => ?_
  refine safe_bind (safe_readNonNopToken _) fun p r₅ _ => ?_
  obtain ⟨o', t'⟩ := p
  dsimp only
  split
  · exact safe_fail
  refine safe_bind safe_get fun _ _ _ => ?_
  split
  · exact safe_fail
  · exact safe_pure

/-- The tree of a block that is accepted. -/
theorem returns_structureNew_iff {s s' : σ} {st : Structure} :
    Returns (Structure.new bytes strings) s st s' ↔ s' = s ∧ st = ⟨bytes⟩ ∧
      ∃ t, t.name = [] ∧ t.Valid strings ∧ Denotes bytes t := by
  rw [returns_structureNew]
  refine and_congr_right fun _ => and_congr_right fun _ => ?_
  constructor
  · rintro ⟨ls, t, hwf, hb, hs⟩
    obtain ⟨hv, hname, hsym⟩ := steps_iff.mp hs
    exact ⟨t, hname, hv, ls, hwf, hsym, hb⟩
  · rintro ⟨t, hname, hv, ls, hwf, hsym, hb⟩
    exact ⟨ls, t, hwf, hb, steps_iff.mpr ⟨hv, hname, hsym⟩⟩

end Block

/-- **Accepted blocks.** `Structure::new` accepts a block exactly when the block is the
serialization of a tree with an empty root name that satisfies the naming and uniqueness rules. -/
theorem structure_new_iff_denotes (bytes : List UInt8) (strings : Strings) :
    Returns (Structure.new bytes strings) () ⟨bytes⟩ () ↔
      ∃ t : Tree, t.name = [] ∧ t.Valid strings ∧ Denotes bytes t := by
  rw [returns_structureNew_iff]
  simp

end Barebone.Devicetree

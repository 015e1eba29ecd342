import BareboneKernel.Fdt.Grammar

/-!
# Scanning a validated prefix again

What the validator's readers do at a lexeme, and what its two helpers find in a prefix that has
been read (`Steps`):

* `returns_readToken`, `returns_nodeOperands`, `returns_propertyOperands`: the reads of one lexeme;
* `rounds_siblingScan`, `rounds_propertyScan`: a scan reads one lexeme of the prefix per round;
* **`returns_findPriorSiblingNode`**: the scan of the content of the root finds a node exactly when
  the innermost open node has a child of that name, and then it finds where that child begins;
* **`returns_findProperty`**: the scan of the properties of the innermost open node finds the first
  of them that resolves to the name.
-/

set_option autoImplicit false

namespace Barebone.Devicetree

open Exec Endian

/-! ## The reads of one lexeme -/

theorem returns_readToken {r r' : Reader} {offset : ℕ} {t : Token} :
    Returns readToken r (offset, t) r' ↔ offset = r.position ∧ r.Consumes (toBE 4 t.value) r' := by
  simp only [readToken, returns_bind, returns_get, returns_mapError, Reader.returns_readU32,
    returns_ofExcept, returns_pure, Token.parse_eq_ok, Prod.mk.injEq]
  constructor
  · rintro ⟨_, _, ⟨rfl, rfl⟩, v, r₁, ⟨-, hc⟩, t', _, ⟨rfl, rfl⟩, ⟨rfl, rfl⟩, rfl⟩
    exact ⟨rfl, hc⟩
  · rintro ⟨rfl, hc⟩
    exact ⟨r, r, ⟨rfl, rfl⟩, t.value, r', ⟨by cases t <;> decide, hc⟩, t, r', ⟨rfl, rfl⟩, ⟨rfl, rfl⟩, rfl⟩

theorem safe_readToken (r : Reader) : Safe readToken r :=
  safe_bind safe_get fun _ _ _ => safe_bind (safe_mapError (Reader.safe_readU32 _)) fun _ _ _ =>
    safe_bind safe_ofExcept fun _ _ _ => safe_pure

/-- The name of a node and the padding after it, read from an aligned offset. -/
theorem returns_nodeOperands {r r' : Reader} {name pad : List UInt8} (hr : r.offset % 4 = 0) :
    (∃ r₁, Returns Reader.readNulTerminated r name r₁ ∧ Returns Reader.alignTo4 r₁ pad r') ↔
      (Lexeme.beginNode name pad).WF ∧ r.Consumes ((name ++ [0]) ++ pad) r' := by
  simp only [Reader.returns_readNulTerminated, Reader.returns_alignTo4, Lexeme.WF,
    Reader.consumes_append (a := name ++ [0])]
  have hp {r₁ : Reader} (h : r.Consumes (name ++ [0]) r₁) :
      padding r₁.offset = padding (name.length + 1) := by
    rw [h.offset, padding_add_of_dvd hr, List.length_append, List.length_singleton]
  constructor
  · rintro ⟨r₁, ⟨hz, h₁⟩, hl, h₂⟩
    exact ⟨⟨hz, hl.trans (hp h₁)⟩, r₁, h₁, h₂⟩
  · rintro ⟨⟨hz, hl⟩, r₁, h₁, h₂⟩
    exact ⟨r₁, ⟨hz, h₁⟩, hl.trans (hp h₁).symm, h₂⟩

/-- The operands of a property and the padding after it, read from an aligned offset. -/
theorem returns_propertyOperands {r r' : Reader} {length nameOffset : ℕ} {value pad : List UInt8}
    (hr : r.offset % 4 = 0) :
    (∃ r₁ r₂ r₃, Returns Reader.readU32 r length r₁ ∧ Returns Reader.readU32 r₁ nameOffset r₂ ∧
        Returns (Reader.readBytes length) r₂ value r₃ ∧ Returns Reader.alignTo4 r₃ pad r') ↔
      length = value.length ∧ (Lexeme.property nameOffset value pad).WF ∧
        r.Consumes (toBE 4 value.length ++ (toBE 4 nameOffset ++ (value ++ pad))) r' := by
  simp only [Reader.returns_readU32, Reader.returns_readBytes, Reader.returns_alignTo4, Lexeme.WF,
    Reader.consumes_append]
  have hp {r₁ r₂ r₃ : Reader} {n : ℕ} (h₁ : r.Consumes (toBE 4 n) r₁)
      (h₂ : r₁.Consumes (toBE 4 nameOffset) r₂) (h₃ : r₂.Consumes value r₃) :
      padding r₃.offset = padding value.length := by
    rw [h₃.offset, h₂.offset, h₁.offset, length_toBE, length_toBE]
    exact padding_add_of_dvd (by omega) _
  constructor
  · rintro ⟨r₁, r₂, r₃, ⟨hl, h₁⟩, ⟨hn, h₂⟩, ⟨rfl, h₃⟩, hpad, h₄⟩
    exact ⟨rfl, ⟨hn, hl, hpad.trans (hp h₁ h₂ h₃)⟩, r₁, h₁, r₂, h₂, r₃, h₃, h₄⟩
  · rintro ⟨rfl, ⟨hn, hl, hpad⟩, r₁, h₁, r₂, h₂, r₃, h₃, h₄⟩
    exact ⟨r₁, r₂, r₃, ⟨hl, h₁⟩, ⟨hn, h₂⟩, ⟨rfl, h₃⟩, hpad.trans (hp h₁ h₂ h₃).symm, h₄⟩

theorem Reader.Consumes.offset_mod {r r' : Reader} {t : Token} (hr : r.offset % 4 = 0)
    (h : r.Consumes (toBE 4 t.value) r') : r'.offset % 4 = 0 := by
  rw [h.offset, length_toBE]
  omega

theorem Reader.Consumes.offset_mod_encode {r r' : Reader} {l : Lexeme} (hr : r.offset % 4 = 0)
    (hl : l.WF) (h : r.Consumes l.encode r') : r'.offset % 4 = 0 := by
  have := l.length_encode_mod hl
  rw [h.offset]
  omega

/-! ## Earlier siblings -/

/-- Among the nodes read so far, the one at depth `parentDepth` has a child of this name, be it
closed or open. The stack lists the open nodes, the innermost first. -/
def Seen (parentDepth : ℕ) (name : List UInt8) : List OpenNode → Prop
  | [] => False
  | n :: outer =>
    if outer.length + 1 = parentDepth then ∃ c ∈ n.children, c.name = name
    else (outer.length = parentDepth ∧ n.name = name) ∨ Seen parentDepth name outer

/-- What the scan for siblings does at a lexeme that starts at `offset`. -/
def siblingNext (parentDepth : ℕ) (name : List UInt8) (offset : ℕ) :
    ℕ × Option ℕ → Lexeme → ℕ × Option ℕ
  | (depth, m), .beginNode nodeName _ => (depth + 1,
      if depth + 1 = parentDepth then none
      else if depth = parentDepth ∧ nodeName = name then some offset else m)
  | (depth, m), .endNode => (depth - 1, m)
  | v, _ => v

theorem returns_siblingRound {nodeOffset : ℕ} (parentDepth : ℕ) (name : List UInt8) (depth : ℕ)
    (m : Option ℕ) {l : Lexeme} {r r' : Reader} (hr : r.offset % 4 = 0) (hl : l.WF)
    (hc : r.Consumes l.encode r') (hlt : r.position < nodeOffset) (hend : l ≠ .fdtEnd)
    (hd : l = .endNode → 0 < depth) :
    Returns (siblingRound nodeOffset parentDepth name (depth, m)) r
      (.inl (siblingNext parentDepth name r.position (depth, m) l)) r' := by
  rw [siblingRound, returns_bind]
  refine ⟨r, r, returns_get.mpr ⟨rfl, rfl⟩, ?_⟩
  rw [if_pos hlt, returns_bind]
  cases l with
  | beginNode nodeName pad =>
    obtain ⟨r₁, ht, ho⟩ := Reader.consumes_append.mp hc
    obtain ⟨r₂, h₁, h₂⟩ := (returns_nodeOperands (ht.offset_mod hr)).mpr ⟨hl, ho⟩
    refine ⟨(r.position, .beginNode), r₁, returns_readToken.mpr ⟨rfl, ht⟩, ?_⟩
    simp only [returns_bind, returns_mapError, returns_pure]
    exact ⟨nodeName, r₂, h₁, pad, r', h₂, rfl, rfl⟩
  | endNode =>
    refine ⟨(r.position, .endNode), r', returns_readToken.mpr ⟨rfl, hc⟩, ?_⟩
    simp only [returns_bind, returns_require, returns_pure]
    exact ⟨(), r', ⟨hd rfl, rfl⟩, rfl, rfl⟩
  | property nameOffset value pad =>
    obtain ⟨r₁, ht, ho⟩ := Reader.consumes_append.mp hc
    obtain ⟨r₂, r₃, r₄, h₁, h₂, h₃, h₄⟩ :=
      (returns_propertyOperands (ht.offset_mod hr)).mpr ⟨rfl, hl, ho⟩
    refine ⟨(r.position, .property), r₁, returns_readToken.mpr ⟨rfl, ht⟩, ?_⟩
    simp only [returns_bind, returns_mapError, returns_pure]
    exact ⟨_, r₂, h₁, nameOffset, r₃, h₂, value, r₄, h₃, pad, r', h₄, rfl, rfl⟩
  | nop =>
    refine ⟨(r.position, .nop), r', returns_readToken.mpr ⟨rfl, hc⟩, ?_⟩
    exact returns_pure.mpr ⟨rfl, rfl⟩
  | fdtEnd => exact absurd rfl hend

/-- A step inside the root keeps the depth and what the scan has seen. -/
theorem siblingNext_step {strings : Strings} {parentDepth : ℕ} {name : List UInt8} (offset : ℕ)
    {n n' : OpenNode} {outer outer' : List OpenNode} {l : Lexeme} {m : Option ℕ}
    (h : Step strings (.inside n outer) l (.inside n' outer'))
    (hm : parentDepth ≤ outer.length + 1 → (m.isSome ↔ Seen parentDepth name (n :: outer))) :
    (siblingNext parentDepth name offset (outer.length + 1, m) l).1 = outer'.length + 1 ∧
      (parentDepth ≤ outer'.length + 1 →
        ((siblingNext parentDepth name offset (outer.length + 1, m) l).2.isSome ↔
          Seen parentDepth name (n' :: outer'))) := by
  cases h with
  | insideNop => exact ⟨rfl, hm⟩
  | property first => exact ⟨rfl, hm⟩
  | @beginNode _ _ nodeName pad =>
    refine ⟨by simp [siblingNext], fun hd => ?_⟩
    simp only [siblingNext, Seen, List.length_cons]
    by_cases h₁ : outer.length + 1 + 1 = parentDepth
    · simp [h₁]
    · have hle : parentDepth ≤ outer.length + 1 := by simp at hd; omega
      have := hm hle
      rw [Seen] at this
      by_cases h₂ : outer.length + 1 = parentDepth
      · by_cases h₃ : nodeName = name
        · simp [h₂, h₃]
        · simpa [h₁, h₂, h₃] using this
      · simpa [h₁, h₂] using this
  | endInner _ p =>
    refine ⟨by simp [siblingNext], fun hd => ?_⟩
    have := hm (by simp; omega)
    simp only [siblingNext, Seen, List.length_cons, OpenNode.addChild] at this ⊢
    by_cases h₁ : outer'.length + 1 = parentDepth
    · have h₂ : outer'.length + 1 + 1 ≠ parentDepth := by omega
      simp only [h₂, if_false] at this
      rw [this]
      simp [h₁, OpenNode.close, Tree.name, or_comm, or_and_right, exists_or]
    · have h₂ : outer'.length + 1 + 1 ≠ parentDepth := by omega
      simp only [h₂, h₁, if_false, false_and, false_or] at this ⊢
      exact this

/-- The content `ls` of the root has a node called `name` that begins at `offset` and whose parent,
at depth `parentDepth`, is still open: since then that parent has gained only children. -/
def Located (strings : Strings) (parentDepth : ℕ) (name : List UInt8) (base : ℕ)
    (ls : List Lexeme) (n : OpenNode) (outer : List OpenNode) (offset : ℕ) : Prop :=
  ∃ before pad after p around cs, ls = before ++ .beginNode name pad :: after ∧
    offset = base + (encodeAll before).length ∧
    Steps strings (.inside ⟨[], [], []⟩ []) before (.inside p around) ∧
    (n :: outer).drop (outer.length + 1 - parentDepth) =
      { p with children := p.children ++ cs } :: around

/-- What the scan for siblings knows after the content `ls` of the root. -/
def Scanned (strings : Strings) (parentDepth : ℕ) (name : List UInt8) (base : ℕ)
    (ls : List Lexeme) (n : OpenNode) (outer : List OpenNode) (m : Option ℕ) : Prop :=
  parentDepth ≤ outer.length + 1 → (m.isSome ↔ Seen parentDepth name (n :: outer)) ∧
    ∀ offset, m = some offset → Located strings parentDepth name base ls n outer offset

theorem Located.snoc {strings : Strings} {parentDepth : ℕ} {name : List UInt8} {base offset : ℕ}
    {ls : List Lexeme} {n n' : OpenNode} {outer outer' : List OpenNode} (l : Lexeme)
    (h : Located strings parentDepth name base ls n outer offset)
    (hdrop : ∀ p around, (n :: outer).drop (outer.length + 1 - parentDepth) = p :: around →
      ∃ cs, (n' :: outer').drop (outer'.length + 1 - parentDepth) =
        { p with children := p.children ++ cs } :: around) :
    Located strings parentDepth name base (ls ++ [l]) n' outer' offset := by
  obtain ⟨before, pad, after, p, around, cs, rfl, rfl, hs, hd⟩ := h
  obtain ⟨cs', hd'⟩ := hdrop _ _ hd
  refine ⟨before, pad, after ++ [l], p, around, cs ++ cs', by simp, rfl, hs, ?_⟩
  rw [hd', List.append_assoc]

theorem Scanned.step {strings : Strings} {parentDepth : ℕ} {name : List UInt8} {base : ℕ}
    {ls : List Lexeme} {n n' : OpenNode} {outer outer' : List OpenNode} {l : Lexeme} {m : Option ℕ}
    (h : Step strings (.inside n outer) l (.inside n' outer'))
    (hs : Steps strings (.inside ⟨[], [], []⟩ []) ls (.inside n outer))
    (hm : Scanned strings parentDepth name base ls n outer m) :
    Scanned strings parentDepth name base (ls ++ [l]) n' outer'
      (siblingNext parentDepth name (base + (encodeAll ls).length) (outer.length + 1, m) l).2 := by
  intro hle
  refine ⟨(siblingNext_step _ h fun h' => (hm h').1).2 hle, fun offset hoff => ?_⟩
  cases h with
  | insideNop =>
    refine ((hm hle).2 offset hoff).snoc _ fun p around hd => ⟨[], ?_⟩
    rw [hd, List.append_nil]
  | property first =>
    -- a node with a property to come has no child, so the match lies further out
    refine ((hm hle).2 offset hoff).snoc _ fun p around hd => ⟨[], ?_⟩
    have hne : outer.length + 1 ≠ parentDepth := by
      intro he
      have := (hm hle).1.mp (by rw [show m = some offset from hoff]; rfl)
      simp [Seen, he, first] at this
    obtain ⟨k, hk⟩ : ∃ k, outer.length + 1 - parentDepth = k + 1 :=
      ⟨outer.length - parentDepth, by omega⟩
    rw [hk, List.drop_succ_cons] at hd ⊢
    rw [hd, List.append_nil]
  | @beginNode _ _ nodeName pad =>
    simp only [siblingNext] at hoff
    by_cases h₁ : outer.length + 1 + 1 = parentDepth
    · rw [if_pos h₁] at hoff
      cases hoff
    · rw [if_neg h₁] at hoff
      have hle' : parentDepth ≤ outer.length + 1 := by
        rw [List.length_cons] at hle
        omega
      by_cases h₂ : outer.length + 1 = parentDepth ∧ nodeName = name
      · obtain ⟨h₂, rfl⟩ := h₂
        rw [if_pos ⟨h₂, rfl⟩] at hoff
        cases hoff
        refine ⟨ls, pad, [], n, outer, [], rfl, rfl, hs, ?_⟩
        rw [List.length_cons, h₂, Nat.add_sub_cancel_left, List.append_nil]
        rfl
      · rw [if_neg h₂] at hoff
        refine ((hm hle').2 offset hoff).snoc _ fun p around hd => ⟨[], ?_⟩
        rw [List.length_cons, show outer.length + 1 + 1 - parentDepth =
          (outer.length + 1 - parentDepth) + 1 by omega, List.drop_succ_cons, hd, List.append_nil]
  | endInner _ q =>
    refine ((hm (by rw [List.length_cons]; omega)).2 offset hoff).snoc _ fun p around hd => ?_
    rw [List.length_cons, show outer'.length + 1 + 1 - parentDepth =
      (outer'.length + 1 - parentDepth) + 1 by omega, List.drop_succ_cons] at hd
    by_cases h₁ : outer'.length + 1 = parentDepth
    · rw [h₁, Nat.sub_self, List.drop_zero] at hd ⊢
      cases hd
      exact ⟨[n.close], rfl⟩
    · obtain ⟨k, hk⟩ : ∃ k, outer'.length + 1 - parentDepth = k + 1 :=
        ⟨outer'.length - parentDepth, by omega⟩
      rw [hk, List.drop_succ_cons] at hd ⊢
      exact ⟨[], by rw [hd, List.append_nil]⟩

theorem not_steps_closed {strings : Strings} {t : Tree} {ls : List Lexeme} {n : OpenNode}
    {outer : List OpenNode} : ¬ Steps strings (.closed t) ls (.inside n outer) := by
  suffices ∀ s s', Steps strings s ls s' → (∃ t, s = .closed t ∨ s = .done t) →
      ∃ t, s' = .closed t ∨ s' = .done t by
    intro h
    obtain ⟨t, h | h⟩ := this _ _ h ⟨t, .inl rfl⟩ <;> cases h
  intro s s' h
  induction h with
  | nil => exact id
  | cons head _ ih =>
    rintro ⟨t, rfl | rfl⟩
    · cases head with
      | closedNop => exact ih ⟨t, .inl rfl⟩
      | stop => exact ih ⟨t, .inr rfl⟩
    · cases head

/-- The last lexeme read inside the root. -/
theorem Steps.inside_snoc {strings : Strings} {l : Lexeme} {ls : List Lexeme} {n' : OpenNode}
    {outer' : List OpenNode} : ∀ {n : OpenNode} {outer : List OpenNode},
    Steps strings (.inside n outer) (ls ++ [l]) (.inside n' outer') →
    ∃ n₁ outer₁, Steps strings (.inside n outer) ls (.inside n₁ outer₁) ∧
      Step strings (.inside n₁ outer₁) l (.inside n' outer') := by
  induction ls with
  | nil =>
    intro n outer h
    cases h with
    | cons head tail =>
      cases tail
      exact ⟨n, outer, .nil _, head⟩
  | cons x ls ih =>
    intro n outer h
    cases h with
    | @cons _ s' _ _ _ head tail =>
    obtain ⟨n₂, outer₂, rfl⟩ : ∃ n₂ outer₂, s' = .inside n₂ outer₂ := by
      cases head with
      | endRoot => exact absurd tail not_steps_closed
      | _ => exact ⟨_, _, rfl⟩
    obtain ⟨n₁, outer₁, h₁, h₂⟩ := ih tail
    exact ⟨n₁, outer₁, .cons head h₁, h₂⟩

/-- **The scan for siblings.** It reads the content `ls` of the root lexeme by lexeme, as the main
loop did, and knows the depth. -/
theorem rounds_siblingScan {strings : Strings} {nodeOffset parentDepth : ℕ} (hp : 0 < parentDepth)
    (name : List UInt8) {r₀ : Reader} (hr₀ : r₀.offset % 4 = 0) {ls : List Lexeme} :
    ∀ {n : OpenNode} {outer : List OpenNode} {r : Reader},
    Steps strings (.inside ⟨[], [], []⟩ []) ls (.inside n outer) → (∀ l ∈ ls, l.WF) →
    r₀.Consumes (encodeAll ls) r → r.position ≤ nodeOffset →
    ∃ m, Rounds (siblingRound nodeOffset parentDepth name) ls.length (1, none) r₀
        (outer.length + 1, m) r ∧
      Scanned strings parentDepth name r₀.position ls n outer m := by
  induction ls using List.reverseRecOn with
  | nil =>
    intro n outer r hs _ hc hle
    cases hs
    obtain rfl := (Reader.Consumes.refl r₀).unique hc
    refine ⟨none, .zero _ _, fun hle => ⟨?_, by simp⟩⟩
    obtain rfl : parentDepth = 1 := le_antisymm hle hp
    simp [Seen]
  | append_singleton ls l ih =>
    intro n outer r hs hwf hc hle
    obtain ⟨n₁, outer₁, hs₁, head⟩ := hs.inside_snoc
    have hwf₁ : ∀ l' ∈ ls, l'.WF := fun l' hl' => hwf l' (List.mem_append_left _ hl')
    have hwl : l.WF := hwf l (List.mem_append_right _ (List.mem_singleton_self l))
    rw [encodeAll_append, encodeAll_cons, encodeAll_nil, List.append_nil] at hc
    obtain ⟨r₁, h₁, h₂⟩ := Reader.consumes_append.mp hc
    have hpos : r₁.position = r₀.position + (encodeAll ls).length := h₁.offset
    have hlt : r₁.position < nodeOffset := by
      have := h₂.offset
      have := l.four_le_length_encode
      simp only [Reader.position] at hle ⊢
      omega
    have hr₁ : r₁.offset % 4 = 0 := by
      have := length_encodeAll_mod hwf₁
      rw [h₁.offset]
      omega
    obtain ⟨m, hrounds, hm⟩ := ih hs₁ hwf₁ h₁ hlt.le
    have hround := returns_siblingRound parentDepth name (outer₁.length + 1) m hr₁ hwl h₂ hlt
      (by rintro rfl; cases head) (fun _ => Nat.succ_pos _)
    have hnext := hm.step head hs₁
    have hd := (siblingNext_step r₁.position head fun h' => (hm h').1).1
    rw [← hpos] at hnext
    refine ⟨_, ?_, hnext⟩
    rw [List.length_append, List.length_singleton]
    have hpair : siblingNext parentDepth name r₁.position (outer₁.length + 1, m) l =
        (outer.length + 1, (siblingNext parentDepth name r₁.position (outer₁.length + 1, m) l).2) :=
      Prod.ext hd rfl
    exact hrounds.snoc (hpair ▸ hround)

theorem returns_siblingRound_exit {nodeOffset parentDepth depth : ℕ} {name : List UInt8}
    {m : Option ℕ} {r : Reader} (h : nodeOffset ≤ r.position) :
    Returns (siblingRound nodeOffset parentDepth name (depth, m)) r (.inr m) r := by
  rw [siblingRound, returns_bind]
  refine ⟨r, r, returns_get.mpr ⟨rfl, rfl⟩, ?_⟩
  rw [if_neg (by omega)]
  exact returns_pure.mpr ⟨rfl, rfl⟩

/-- **Earlier siblings.** When the content `ls` of the root has been read and `n` is the innermost
open node, the scan ends, and it finds a node exactly when `n` has a child called `name`; then it
returns the offset of such a child. -/
theorem returns_findPriorSiblingNode {σ : Type} {strings : Strings} {bytes : List UInt8}
    {hd ls : List Lexeme} {n : OpenNode} {outer : List OpenNode} {rest : List UInt8}
    (name : List UInt8) (s : σ) (hs : Steps strings (.inside ⟨[], [], []⟩ []) ls (.inside n outer))
    (hwf : ∀ l ∈ hd ++ ls, l.WF) (hb : bytes = encodeAll (hd ++ ls) ++ rest) :
    ∃ m, Returns (findPriorSiblingNode bytes (encodeAll hd).length (encodeAll (hd ++ ls)).length
        (outer.length + 1) name) s m s ∧
      (m.isSome ↔ ∃ c ∈ n.children, c.name = name) ∧
      ∀ offset, m = some offset →
        Located strings (outer.length + 1) name (encodeAll hd).length ls n outer offset := by
  obtain ⟨r', hc, -⟩ := Reader.exists_consumes (r := Reader.new bytes) hb
  rw [encodeAll_append] at hc
  obtain ⟨r₁, h₁, h₂⟩ := Reader.consumes_append.mp hc
  have hmod := length_encodeAll_mod fun l hl => hwf l (List.mem_append_left _ hl)
  have hlen := length_le_length_encodeAll (hd ++ ls)
  have hr₁ : r₁.position = (encodeAll hd).length := by
    rw [Reader.position, h₁.offset]
    simp [Reader.new]
  have hr' : r'.position = (encodeAll (hd ++ ls)).length := by
    rw [Reader.position, hc.offset, encodeAll_append]
    simp [Reader.new]
  obtain ⟨m, hrounds, hm⟩ := rounds_siblingScan (Nat.succ_pos outer.length) name
    (show r₁.position % 4 = 0 by rw [hr₁]; exact hmod) hs
    (fun l hl => hwf l (List.mem_append_right _ hl)) h₂ hr'.le
  have hret := returns_iterate_of_rounds hrounds (returns_siblingRound_exit hr'.ge)
    (show ls.length < bytes.length + 1 by
      rw [hb, List.length_append]; simp only [List.length_append] at hlen ⊢; omega)
  obtain ⟨hseen, hloc⟩ := hm le_rfl
  rw [Seen, if_pos rfl] at hseen
  rw [hr₁] at hloc
  refine ⟨m, returns_onLocal.mpr ⟨rfl, r', ?_⟩, hseen, hloc⟩
  rw [returns_bind]
  exact ⟨_, r₁, returns_mapError.mpr (Reader.returns_readBytes.mpr ⟨rfl, h₁⟩), hret⟩

/-! ## Earlier properties -/

/-- A lexeme that the scan for the property `name` passes over. -/
def Skips (strings : Strings) (name : List UInt8) : Lexeme → Prop
  | .nop => True
  | .property nameOffset _ _ => ∃ other, strings.Resolves nameOffset other ∧ other ≠ name
  | _ => False

section PropertyScan

variable {strings : Strings} {propertiesEnd : ℕ} {name : List UInt8} {r r' : Reader}

/-- What the scan does at a property whose name resolves. -/
theorem returns_propertyRound {nameOffset : ℕ} {value pad other : List UInt8} {r'' : Reader}
    {x : Unit ⊕ Option ℕ} (hr : r.offset % 4 = 0) (hwf : (Lexeme.property nameOffset value pad).WF)
    (hc : r.Consumes (Lexeme.property nameOffset value pad).encode r')
    (hlt : r.position < propertiesEnd) (hres : strings.Resolves nameOffset other)
    (hx : if other = name then x = .inr (some r.position) ∧
        r.Consumes (toBE 4 Token.property.value ++ (toBE 4 value.length ++ toBE 4 nameOffset)) r''
      else x = .inl () ∧ r'' = r') :
    Returns (propertyRound propertiesEnd name strings ()) r x r'' := by
  obtain ⟨r₁, ht, ho⟩ := Reader.consumes_append.mp hc
  obtain ⟨r₂, r₃, r₄, h₁, h₂, h₃, h₄⟩ :=
    (returns_propertyOperands (ht.offset_mod hr)).mpr ⟨rfl, hwf, ho⟩
  have hval : Returns (attempt (strings.validatePropertyName nameOffset) :
      Exec Reader StructureError _) r₃ (.ok other) r₃ := by
    have := Strings.returns_validatePropertyName.mpr ⟨hres, (rfl : r₃ = r₃)⟩
    unfold Returns at this
    rw [Returns, attempt, this]
    rfl
  rw [propertyRound, returns_bind]
  refine ⟨r, r, returns_get.mpr ⟨rfl, rfl⟩, ?_⟩
  rw [if_pos hlt, returns_bind]
  refine ⟨(r.position, .property), r₁, returns_readToken.mpr ⟨rfl, ht⟩, ?_⟩
  simp only [reduceCtorEq, if_false, returns_bind, returns_mapError]
  refine ⟨_, r₂, h₁, nameOffset, r₃, h₂, _, r₃, hval, ?_⟩
  dsimp only
  by_cases he : other = name
  · rw [if_pos he] at hx ⊢
    obtain ⟨rfl, hc'⟩ := hx
    have hc₃ := ht.trans ((Reader.returns_readU32.mp h₁).2.trans (Reader.returns_readU32.mp h₂).2)
    exact returns_pure.mpr ⟨rfl, hc'.unique hc₃⟩
  · rw [if_neg he] at hx ⊢
    obtain ⟨rfl, rfl⟩ := hx
    simp only [returns_bind, returns_mapError, returns_pure]
    exact ⟨value, r₄, h₃, pad, r'', h₄, trivial, rfl⟩

theorem returns_propertyRound_skip {l : Lexeme} (hr : r.offset % 4 = 0) (hwf : l.WF)
    (hc : r.Consumes l.encode r') (hlt : r.position < propertiesEnd) (hl : Skips strings name l) :
    Returns (propertyRound propertiesEnd name strings ()) r (.inl ()) r' := by
  cases l with
  | nop =>
    rw [propertyRound, returns_bind]
    refine ⟨r, r, returns_get.mpr ⟨rfl, rfl⟩, ?_⟩
    rw [if_pos hlt, returns_bind]
    exact ⟨(r.position, .nop), r', returns_readToken.mpr ⟨rfl, hc⟩, returns_pure.mpr ⟨rfl, rfl⟩⟩
  | property nameOffset value pad =>
    obtain ⟨other, hres, hne⟩ := hl
    exact returns_propertyRound hr hwf hc hlt hres (by rw [if_neg hne]; exact ⟨rfl, rfl⟩)
  | _ => exact hl.elim

theorem returns_propertyRound_hit {nameOffset : ℕ} {value pad : List UInt8}
    (hr : r.offset % 4 = 0) (hwf : (Lexeme.property nameOffset value pad).WF)
    (hc : r.Consumes (Lexeme.property nameOffset value pad).encode r')
    (hlt : r.position < propertiesEnd) (hres : strings.Resolves nameOffset name) :
    ∃ r'', Returns (propertyRound propertiesEnd name strings ()) r (.inr (some r.position)) r'' := by
  have hc' : r.Consumes ((toBE 4 Token.property.value ++ (toBE 4 value.length ++
      toBE 4 nameOffset)) ++ (value ++ pad)) r' := by
    simpa [Lexeme.encode] using hc
  obtain ⟨r'', h, -⟩ := Reader.consumes_append.mp hc'
  exact ⟨r'', returns_propertyRound hr hwf hc hlt hres (by rw [if_pos rfl]; exact ⟨rfl, h⟩)⟩

theorem returns_propertyRound_exit (h : propertiesEnd ≤ r.position) :
    Returns (propertyRound propertiesEnd name strings ()) r (.inr none) r := by
  rw [propertyRound, returns_bind]
  refine ⟨r, r, returns_get.mpr ⟨rfl, rfl⟩, ?_⟩
  rw [if_neg (by omega)]
  exact returns_pure.mpr ⟨rfl, rfl⟩

/-- **The scan for properties** reads the lexemes it passes over one by one. -/
theorem rounds_propertyScan {ls : List Lexeme} : ∀ {r : Reader}, (∀ l ∈ ls, Skips strings name l) →
    (∀ l ∈ ls, l.WF) → r.offset % 4 = 0 → r.Consumes (encodeAll ls) r' →
    r'.position ≤ propertiesEnd →
    Rounds (propertyRound propertiesEnd name strings) ls.length () r () r' := by
  induction ls with
  | nil =>
    intro r _ _ _ hc _
    obtain rfl := (Reader.Consumes.refl r).unique hc
    exact .zero _ _
  | cons l ls ih =>
    intro r hskip hwf hr hc hle
    obtain ⟨r₁, h₁, h₂⟩ := Reader.consumes_append.mp hc
    have hwl := hwf l List.mem_cons_self
    have hlt : r.position < propertiesEnd := by
      have := h₁.offset
      have := h₂.offset
      have := l.four_le_length_encode
      simp only [Reader.position] at hle ⊢
      omega
    refine .succ (returns_propertyRound_skip hr hwl h₁ hlt (hskip l List.mem_cons_self)) ?_
    exact ih (fun l' hl' => hskip l' (List.mem_cons_of_mem _ hl'))
      (fun l' hl' => hwf l' (List.mem_cons_of_mem _ hl')) (h₁.offset_mod_encode hr hwl) h₂ hle

end PropertyScan

/-- `ls` has a property that resolves to `name`, and `before` is what comes before the first. -/
def FirstProperty (strings : Strings) (name : List UInt8) (ls before : List Lexeme) : Prop :=
  (∀ l ∈ before, Skips strings name l) ∧ ∃ nameOffset value pad after,
    ls = before ++ .property nameOffset value pad :: after ∧ strings.Resolves nameOffset name

/-- Either none of the properties resolves to `name`, or there is a first one. -/
theorem skips_or_firstProperty (strings : Strings) (name : List UInt8) {ls : List Lexeme} :
    ∀ {ps : List PropertyEntry}, symbols ls = ps.map .property →
    (∀ p ∈ ps, ∃ n, strings.Resolves p.nameOffset n) →
    ((∀ l ∈ ls, Skips strings name l) ∧ ¬ ∃ p ∈ ps, strings.Resolves p.nameOffset name) ∨
      ((∃ before, FirstProperty strings name ls before) ∧
        ∃ p ∈ ps, strings.Resolves p.nameOffset name) := by
  induction ls with
  | nil =>
    intro ps hs _
    obtain rfl : ps = [] := by simpa [symbols] using hs.symm
    exact .inl ⟨by simp, by simp⟩
  | cons l ls ih =>
    intro ps hs hres
    have hcons : ∀ {before}, Skips strings name l → FirstProperty strings name ls before →
        FirstProperty strings name (l :: ls) (l :: before) := by
      rintro before hl ⟨hb, nameOffset, value, pad, after, rfl, hr⟩
      exact ⟨List.forall_mem_cons.mpr ⟨hl, hb⟩, nameOffset, value, pad, after, rfl, hr⟩
    cases l with
    | nop =>
      rcases ih hs hres with ⟨h, hno⟩ | ⟨⟨before, h⟩, hex⟩
      · exact .inl ⟨List.forall_mem_cons.mpr ⟨trivial, h⟩, hno⟩
      · exact .inr ⟨⟨_, hcons trivial h⟩, hex⟩
    | property nameOffset value pad =>
      obtain ⟨p, ps', rfl⟩ : ∃ p ps', ps = p :: ps' := by
        cases ps with
        | nil => simp [symbols, Lexeme.symbol] at hs
        | cons p ps' => exact ⟨p, ps', rfl⟩
      obtain ⟨rfl, hs'⟩ : ⟨nameOffset, value⟩ = p ∧ symbols ls = ps'.map .property := by
        simpa [symbols, Lexeme.symbol] using hs
      obtain ⟨other, hother⟩ := hres _ List.mem_cons_self
      by_cases he : other = name
      · subst he
        exact .inr ⟨⟨[], by simp, nameOffset, value, pad, ls, rfl, hother⟩, _,
          List.mem_cons_self, hother⟩
      · have hl : Skips strings name (.property nameOffset value pad) := ⟨other, hother, he⟩
        rcases ih hs' fun q hq => hres q (List.mem_cons_of_mem _ hq) with
          ⟨h, hno⟩ | ⟨⟨before, h⟩, p, hp, hpr⟩
        · refine .inl ⟨List.forall_mem_cons.mpr ⟨hl, h⟩, ?_⟩
          rintro ⟨p, hp, hpr⟩
          rcases List.mem_cons.mp hp with rfl | hp
          · exact he (hother.unique hpr)
          · exact hno ⟨p, hp, hpr⟩
        · exact .inr ⟨⟨_, hcons hl h⟩, p, List.mem_cons_of_mem _ hp, hpr⟩
    | _ => cases ps <;> simp [symbols, Lexeme.symbol] at hs

/-- **The end of the scan for properties.** It has passed over the lexemes `passed`, up to the end or
up to the first property that resolves to `name`. -/
theorem exists_propertyScan_exit {strings : Strings} (name : List UInt8) {ls : List Lexeme}
    {ps : List PropertyEntry} {r r' : Reader} (hs : symbols ls = ps.map .property)
    (hres : ∀ p ∈ ps, ∃ n, strings.Resolves p.nameOffset n) (hwf : ∀ l ∈ ls, l.WF)
    (hr : r.offset % 4 = 0) (hc : r.Consumes (encodeAll ls) r') :
    ∃ passed rest m r₁ r₂, ls = passed ++ rest ∧ (∀ l ∈ passed, Skips strings name l) ∧
      r.Consumes (encodeAll passed) r₁ ∧
      Rounds (propertyRound r'.position name strings) passed.length () r () r₁ ∧
      Returns (propertyRound r'.position name strings ()) r₁ (.inr m) r₂ ∧
      ((m = none ∧ r₂ = r' ∧ ¬ ∃ p ∈ ps, strings.Resolves p.nameOffset name) ∨
        (m = some r₁.position ∧ FirstProperty strings name ls passed ∧
          ∃ p ∈ ps, strings.Resolves p.nameOffset name)) := by
  rcases skips_or_firstProperty strings name hs hres with ⟨hskip, hno⟩ | ⟨⟨before, hfirst⟩, hex⟩
  · exact ⟨ls, [], none, r', r', (List.append_nil ls).symm, hskip, hc,
      rounds_propertyScan hskip hwf hr hc le_rfl, returns_propertyRound_exit le_rfl,
      .inl ⟨rfl, rfl, hno⟩⟩
  · have hfirst' := hfirst
    obtain ⟨hskip, nameOffset, value, pad, after, rfl, hpr⟩ := hfirst
    rw [encodeAll_append] at hc
    obtain ⟨r₁, h₁, h₂⟩ := Reader.consumes_append.mp hc
    obtain ⟨r₂, h₃, h₄⟩ := Reader.consumes_append.mp h₂
    have hlt : r₁.position < r'.position := by
      have := (Lexeme.property nameOffset value pad).four_le_length_encode
      have := h₃.offset
      have := h₄.offset
      simp only [Reader.position]
      omega
    have hwb : ∀ l ∈ before, l.WF := fun l hl => hwf l (List.mem_append_left _ hl)
    have hr₁ : r₁.offset % 4 = 0 := by
      have := length_encodeAll_mod hwb
      rw [h₁.offset]
      omega
    obtain ⟨r₃, hhit⟩ := returns_propertyRound_hit hr₁ (hwf _ (by simp)) h₃ hlt hpr
    exact ⟨before, _, some r₁.position, r₁, r₃, rfl, hskip, h₁,
      rounds_propertyScan hskip hwb hr h₁ hlt.le, hhit, .inr ⟨rfl, hfirst', hex⟩⟩

/-- **Earlier properties.** When the properties `ps` of the innermost open node are all that has
been read since its name, the scan ends, and it finds one exactly when one resolves to `name`; then
it returns the offset of the first. -/
theorem returns_findProperty {σ : Type} {strings : Strings} {hd ls : List Lexeme}
    {ps : List PropertyEntry} {rest : List UInt8} (bytes name : List UInt8) (s : σ)
    (hs : symbols ls = ps.map .property) (hres : ∀ p ∈ ps, ∃ n, strings.Resolves p.nameOffset n)
    (hwf : ∀ l ∈ hd ++ ls, l.WF) (hb : bytes = encodeAll (hd ++ ls) ++ rest) :
    ∃ m, Returns (findProperty bytes (encodeAll hd).length (encodeAll (hd ++ ls)).length name
        strings) s m s ∧
      (m.isSome ↔ ∃ p ∈ ps, strings.Resolves p.nameOffset name) ∧
      ∀ offset, m = some offset → ∃ before, FirstProperty strings name ls before ∧
        offset = (encodeAll (hd ++ before)).length := by
  obtain ⟨r', hc, -⟩ := Reader.exists_consumes (r := Reader.new bytes) hb
  rw [encodeAll_append] at hc
  obtain ⟨r₁, h₁, h₂⟩ := Reader.consumes_append.mp hc
  have hr₁ : r₁.position = (encodeAll hd).length := by
    rw [Reader.position, h₁.offset]
    simp [Reader.new]
  have hr₁' : r₁.position % 4 = 0 := by
    rw [hr₁]
    exact length_encodeAll_mod fun l hl => hwf l (List.mem_append_left _ hl)
  have hr' : r'.position = (encodeAll (hd ++ ls)).length := by
    rw [Reader.position, hc.offset, encodeAll_append]
    simp [Reader.new]
  obtain ⟨passed, after, m, r₂, r₃, rfl, -, hpassed, hrounds, hexit, hm⟩ :=
    exists_propertyScan_exit name hs hres (fun l hl => hwf l (List.mem_append_right _ hl)) hr₁' h₂
  have hfuel : passed.length < bytes.length + 1 := by
    have hlen := length_le_length_encodeAll (hd ++ (passed ++ after))
    rw [hb, List.length_append]
    rw [List.length_append, List.length_append] at hlen
    omega
  have hret := returns_iterate_of_rounds hrounds hexit hfuel
  rw [hr'] at hret
  refine ⟨m, returns_onLocal.mpr ⟨rfl, r₃, ?_⟩, ?_⟩
  · rw [returns_bind]
    exact ⟨_, r₁, returns_mapError.mpr (Reader.returns_readBytes.mpr ⟨rfl, h₁⟩), hret⟩
  · rcases hm with ⟨rfl, -, hno⟩ | ⟨rfl, hfirst, hex⟩
    · exact ⟨by simp [hno], by simp⟩
    · refine ⟨by simp [hex], fun offset ho => ⟨passed, hfirst, ?_⟩⟩
      cases ho
      rw [encodeAll_append, List.length_append, ← hr₁]
      exact hpassed.offset

end Barebone.Devicetree

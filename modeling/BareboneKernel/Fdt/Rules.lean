import BareboneKernel.Fdt.Navigate
import BareboneKernel.Fdt.Semantic

/-!
# The semantic rules

What the passes of `validate_semantics` check, stated on the tree, and that each pass is a check of
its rule:

* `Tree.AddressingOk`: cell counts of four bytes, unit addresses with `reg` or `ranges`, lengths of
  `reg` that are multiples of the entry width of the parent;
* `RegOk`: a nonempty `reg` whose entries have addresses and sizes that fit `u64`;
* `Tree.MemoryOk`, `Tree.ReservedMemoryOk`;
* **`decides_validateSemantics`**: the passes never panic and accept exactly `Tree.SemanticsOk`;
* **`validate_semantics_iff_rules`**: the same, rule by rule and node by node.

The panicking accessors of a later pass rest on the rule of an earlier one; that is where
`decides_childAddressing` needs `Tree.CellsOk`.
-/

set_option autoImplicit false

namespace Barebone.Devicetree

open Exec Endian Word

variable {σ ε : Type} {strings : Strings}

/-! ## Properties of a tree -/

/-- The property of this name. -/
def Tree.property (strings : Strings) (t : Tree) (name : List UInt8) : Option Property :=
  (t.properties.map (·.resolve strings)).find? (·.name == name)

/-- A cell count: the value of the property, or the default. -/
def Tree.cells (strings : Strings) (t : Tree) (name : List UInt8) (default : ℕ) : ℕ :=
  match t.property strings name with
  | none => default
  | some p => fromBE p.value

/-- The cells of an address below this node. -/
def Tree.addressCells (strings : Strings) (t : Tree) : ℕ := t.cells strings (ascii "#address-cells") 2

/-- The cells of a size below this node. -/
def Tree.sizeCells (strings : Strings) (t : Tree) : ℕ := t.cells strings (ascii "#size-cells") 1

/-- A cell count that is present has four bytes. -/
def Tree.CellOk (strings : Strings) (t : Tree) (name : List UInt8) : Prop :=
  ∀ p, t.property strings name = some p → p.value.length = 4

/-- Both cell counts are well formed. -/
def Tree.CellsOk (strings : Strings) (t : Tree) : Prop :=
  t.CellOk strings (ascii "#address-cells") ∧ t.CellOk strings (ascii "#size-cells")

/-- The addressing of the children of a node. -/
def Tree.childAddressing (strings : Strings) (t : Tree) : ChildAddressing :=
  ⟨t.addressCells strings, t.sizeCells strings⟩

/-- The layout of a `reg` with these cell counts. -/
def ChildAddressing.layout (a : ChildAddressing) : RegLayout :=
  ⟨4 * a.addressCells, 4 * (a.addressCells + a.sizeCells)⟩

theorem Views.decides_property {node : Node} {t : Tree} (h : Views strings node t)
    (hv : t.Valid strings) (name : List UInt8) :
    Decides (node.property name : Exec σ ε _) (· = t.property strings name) :=
  decides_of_returns fun s => h.returns_property s name hv

theorem Tree.cells_lt {t : Tree} {name : List UInt8} {default : ℕ} (h : t.CellOk strings name)
    (hd : default < 2 ^ 32) : t.cells strings name default < 2 ^ 32 := by
  unfold Tree.cells
  split
  · exact hd
  · rename_i p hp
    have := fromBE_lt p.value
    rw [h p hp] at this
    exact this

/-! ## Addressing -/

theorem decides_parseCells {node : Node} {t : Tree} (h : Views strings node t)
    (hv : t.Valid strings) (name : List UInt8) (default : ℕ) (invalid : ℕ → SemanticError) :
    Decides (parseCells node name default invalid : Exec σ _ _)
      fun v => t.CellOk strings name ∧ v = t.cells strings name default := by
  refine (decides_bind (h.decides_property hv name) (Q := fun p v =>
    (∀ p', p = some p' → p'.value.length = 4) ∧
      v = match p with | none => default | some p' => fromBE p'.value) ?_).congr ?_
  · rintro p -
    cases p with
    | none => exact (decides_pure default).congr fun v => by simp
    | some p =>
      dsimp only [decodeU32]
      by_cases hl : p.value.length = 4
      · simp only [hl, if_true]
        exact (decides_pure _).congr fun v => by simp [hl]
      · simp only [hl, if_false]
        exact (decides_fail _).congr fun v => by simp [hl]
  · intro v
    constructor
    · rintro ⟨_, rfl, h⟩
      exact h
    · intro h
      exact ⟨_, rfl, h⟩

theorem decides_parseChildAddressing {node : Node} {t : Tree} (h : Views strings node t)
    (hv : t.Valid strings) :
    Decides (parseChildAddressing node : Exec σ _ _)
      fun a => t.CellsOk strings ∧ a = t.childAddressing strings := by
  refine (decides_bind (decides_parseCells h hv _ _ _) fun a _ =>
    decides_bind (decides_parseCells h hv _ _ _) fun s _ => decides_pure _).congr fun a => ?_
  constructor
  · rintro ⟨_, ⟨h₁, rfl⟩, _, ⟨h₂, rfl⟩, rfl⟩
    exact ⟨⟨h₁, h₂⟩, rfl⟩
  · rintro ⟨⟨h₁, h₂⟩, rfl⟩
    exact ⟨_, ⟨h₁, rfl⟩, _, ⟨h₂, rfl⟩, rfl⟩

/-- The accessor does not panic on a node with well-formed cell counts. -/
theorem decides_childAddressing {node : Node} {t : Tree} (h : Views strings node t)
    (hv : t.Valid strings) (hc : t.CellsOk strings) :
    Decides (childAddressing node : Exec σ ε _) (· = t.childAddressing strings) :=
  (decides_expect (decides_parseChildAddressing h hv) ⟨_, hc, rfl⟩).congr fun a => by simp [hc]

theorem RegLayout.new_eq {a : ChildAddressing} (ha : a.addressCells < 2 ^ 32)
    (hs : a.sizeCells < 2 ^ 32) : RegLayout.new a = .ok a.layout := by
  have h₁ : checkedMul a.addressCells 4 = some (a.addressCells * 4) :=
    checkedMul_of_le (by simp only [wordMax]; omega)
  have h₂ : checkedMul a.sizeCells 4 = some (a.sizeCells * 4) :=
    checkedMul_of_le (by simp only [wordMax]; omega)
  have h₃ : checkedAdd (a.addressCells * 4) (a.sizeCells * 4) =
      some (a.addressCells * 4 + a.sizeCells * 4) :=
    checkedAdd_of_le (by simp only [wordMax]; omega)
  simp only [RegLayout.new, h₁, h₂, h₃, ChildAddressing.layout, Except.ok.injEq, RegLayout.mk.injEq]
  omega

theorem Tree.CellsOk.layout {t : Tree} (h : t.CellsOk strings) :
    RegLayout.new (t.childAddressing strings) = .ok (t.childAddressing strings).layout :=
  RegLayout.new_eq (Tree.cells_lt h.1 (by decide)) (Tree.cells_lt h.2 (by decide))

/-- A node with a unit address has `reg` or `ranges`. -/
def Tree.UnitAddressOk (strings : Strings) (t : Tree) : Prop :=
  (Devicetree.unitAddress t.name).isSome →
    (t.property strings (ascii "reg")).isSome ∨ (t.property strings (ascii "ranges")).isSome

/-- The length of `reg` is a multiple of the entry width, and zero when the width is. -/
def Tree.RegLengthOk (strings : Strings) (a : ChildAddressing) (t : Tree) : Prop :=
  ∀ p, t.property strings (ascii "reg") = some p →
    if a.layout.entrySize = 0 then p.value.length = 0
    else p.value.length % a.layout.entrySize = 0

/-- The rules of the addressing pass, for a node and everything below it. -/
inductive Tree.AddressingOk (strings : Strings) : Tree → Prop
  | node {t : Tree} (cells : t.CellsOk strings) (unitAddress : t.UnitAddressOk strings)
      (regs : ∀ c ∈ t.children, c.RegLengthOk strings (t.childAddressing strings))
      (below : ∀ c ∈ t.children, Tree.AddressingOk strings c) : Tree.AddressingOk strings t

theorem decides_validateNode {node : Node} {t : Tree} (h : Views strings node t)
    (hv : t.Valid strings) :
    Decides (validateNode node : Exec σ _ _) fun _ => t.CellsOk strings ∧ t.UnitAddressOk strings := by
  refine (decides_bind (decides_parseChildAddressing h hv) (Q := fun _ _ => t.UnitAddressOk strings)
    fun _ _ => ?_).congr fun _ => by simp
  unfold validateNodeAddressing Tree.UnitAddressOk
  rw [Node.unitAddress, h.name]
  cases Devicetree.unitAddress t.name with
  | none => exact (decides_pure ()).congr fun _ => by simp
  | some unit =>
    refine (decides_bind (h.decides_property hv _) fun _ hreg => decides_bind
      (h.decides_property hv _) (Q := fun _ _ => (t.property strings (ascii "reg")).isSome ∨
        (t.property strings (ascii "ranges")).isSome) fun _ hranges => ?_).congr fun _ => by simp
    rw [hreg, hranges]
    dsimp only
    split
    · refine (decides_fail _).congr fun _ => ?_
      simp_all
    · refine (decides_pure ()).congr fun _ => ?_
      simp only [Option.not_isSome, Bool.and_eq_true, not_and, Option.isNone_iff_eq_none] at *
      by_cases hr : t.property strings (ascii "reg") = none
      · exact iff_of_true trivial (.inr (Option.isSome_iff_ne_none.mpr (by tauto)))
      · exact iff_of_true trivial (.inl (Option.isSome_iff_ne_none.mpr hr))

theorem decides_validateReg {node : Node} {t : Tree} {a : ChildAddressing} (h : Views strings node t)
    (hv : t.Valid strings) (ha : RegLayout.new a = .ok a.layout) :
    Decides (validateReg node a : Exec σ _ _) fun _ => t.RegLengthOk strings a := by
  refine (decides_bind (h.decides_property hv _) (Q := fun _ _ => t.RegLengthOk strings a)
    fun p hp => ?_).congr fun _ => by simp
  unfold Tree.RegLengthOk
  rw [← hp]
  cases p with
  | none => exact (decides_pure ()).congr fun _ => by simp
  | some reg =>
    refine (decides_bind (decides_ofExcept _) (Q := fun _ _ =>
      if a.layout.entrySize = 0 then reg.value.length = 0
      else reg.value.length % a.layout.entrySize = 0) fun layout hl => ?_).congr fun _ => by
        rw [ha]; simp
    obtain rfl : a.layout = layout := by rw [ha] at hl; exact Except.ok.inj hl
    dsimp only
    split_ifs with h₁ h₂ h₃
    · exact (decides_fail _).congr fun _ => by simp [h₂]
    · exact (decides_pure ()).congr fun _ => by simp [not_not.mp h₂]
    · exact (decides_fail _).congr fun _ => by simp [h₃]
    · exact (decides_pure ()).congr fun _ => by simp [not_not.mp h₃]

theorem Tree.addressingOk_iff {t : Tree} : t.AddressingOk strings ↔
    (t.CellsOk strings ∧ t.UnitAddressOk strings) ∧ ∀ c ∈ t.children,
      c.RegLengthOk strings (t.childAddressing strings) ∧ c.AddressingOk strings := by
  constructor
  · rintro ⟨h₁, h₂, h₃, h₄⟩
    exact ⟨⟨h₁, h₂⟩, fun c hc => ⟨h₃ c hc, h₄ c hc⟩⟩
  · rintro ⟨⟨h₁, h₂⟩, h⟩
    exact .node h₁ h₂ (fun c hc => (h c hc).1) fun c hc => (h c hc).2

/-- A loop over the children of a view is a loop over views of the children of the tree. -/
theorem decides_children {node : Node} {t : Tree} {f : Unit → Node → Exec σ SemanticError Unit}
    {P : Tree → Prop} (h : Views strings node t) (hv : t.Valid strings)
    (hf : ∀ n, ∀ c ∈ t.children, Views strings n c → c.Valid strings →
      Decides (f () n) fun _ => P c) :
    Decides (foldIter Children.next f node.bound node.children ()) fun _ =>
      ∀ c ∈ t.children, P c := by
  obtain ⟨ns, hns, hviews⟩ := h.yields_children (ε := SemanticError)
  rw [foldIter_eq hns (by rw [hviews.length_eq]; exact h.length_le.2)]
  refine decides_foldlM ?_
  have hmem : ∀ c ∈ t.children, c ∈ t.children := fun c hc => hc
  generalize hcs : t.children = cs at hviews
  rw [hcs] at hf
  have hvalid : ∀ c ∈ cs, c.Valid strings := hcs ▸ hv.children
  clear hns hmem hcs
  induction hviews with
  | nil => exact .nil
  | @cons n c ns cs hview _ ih =>
    refine .cons (hf n c List.mem_cons_self hview (hvalid c List.mem_cons_self)) ?_
    exact ih (fun n' c' hc' => hf n' c' (List.mem_cons_of_mem _ hc'))
      fun c' hc' => hvalid c' (List.mem_cons_of_mem _ hc')

theorem decides_validateSubtree {fuel : ℕ} : ∀ {node : Node} {t : Tree}, Views strings node t →
    t.Valid strings → t.symbols.length ≤ fuel →
    Decides (validateSubtree fuel node : Exec σ _ _) fun _ => t.AddressingOk strings := by
  induction fuel with
  | zero =>
    intro node t _ _ hf
    rw [Tree.symbols_eq, List.length_cons] at hf
    omega
  | succ fuel ih =>
    intro node t h hv hf
    refine (decides_bind (decides_validateNode h hv) fun _ hnode =>
      decides_bind (decides_childAddressing h hv hnode.1) (Q := fun _ _ => ∀ c ∈ t.children,
        c.RegLengthOk strings (t.childAddressing strings) ∧ c.AddressingOk strings) ?_).congr
      fun _ => by simp [Tree.addressingOk_iff (t := t)]
    rintro _ rfl
    refine decides_children h hv fun n c hc hview hvalid => ?_
    refine (decides_bind (decides_validateReg hview hvalid hnode.1.layout) fun _ _ =>
      ih hview hvalid ?_).congr fun _ => by simp
    have := Tree.length_symbols_lt hc
    omega

theorem Views.symbols_length_le {node : Node} {t : Tree} (h : Views strings node t) :
    t.symbols.length ≤ node.bound := by
  obtain ⟨ls, rest, -, hs, hc⟩ := h.content
  have h₁ := length_le_length_encodeAll ls
  have h₂ : (symbols ls).length ≤ ls.length := List.length_filterMap_le _ _
  rw [Tree.symbols_eq, ← hs, Node.bound, hc, List.length_append, List.length_cons]
  omega

/-! ## Entries of a `reg` property -/

/-- The address and the size of an entry fit `u64`, the size is positive and so is the end. -/
def EntryOk (layout : RegLayout) (entry : List UInt8) : Prop :=
  fromBE (entry.take layout.addressSize) ≤ wordMax ∧ fromBE (entry.drop layout.addressSize) ≤ wordMax ∧
    fromBE (entry.drop layout.addressSize) ≠ 0 ∧
    fromBE (entry.take layout.addressSize) + fromBE (entry.drop layout.addressSize) ≤ wordMax

/-- A nonempty `reg` with valid entries only. -/
def RegOk (layout : RegLayout) (bytes : List UInt8) : Prop :=
  bytes ≠ [] ∧ ∀ entry ∈ chunksExact layout.entrySize bytes, EntryOk layout entry

/-- The cells are the digits of one big-endian number. -/
theorem decodeCells_aux {radix : ℕ} (hradix : 256 ^ 4 = radix) :
    ∀ (k : ℕ) (bytes : List UInt8) {v : ℕ}, bytes.length = 4 * k → v ≤ wordMax →
    (chunksExact 4 bytes).foldlM (fun value cell => do
      let value ← checkedMul value radix
      checkedAdd value (fromBE cell)) v =
    if v * 256 ^ bytes.length + fromBE bytes ≤ wordMax then some (v * 256 ^ bytes.length + fromBE bytes)
    else none := by
  intro k
  induction k with
  | zero =>
    intro bytes v hl hv
    obtain rfl : bytes = [] := List.length_eq_zero_iff.mp hl
    simp [hv]
  | succ k ih =>
    intro bytes v hl hv
    have hsplit := List.take_append_drop 4 bytes
    have hc : (bytes.take 4).length = 4 := by rw [List.length_take]; omega
    have hr : (bytes.drop 4).length = 4 * k := by rw [List.length_drop]; omega
    rw [← hsplit, chunksExact_append (by decide) hc _, List.foldlM_cons]
    generalize bytes.take 4 = c at hc
    generalize bytes.drop 4 = rest at hr
    have hlt := fromBE_lt c
    rw [hc] at hlt
    -- the value grows with every further cell, so an early overflow is an overflow of the whole
    have hval : v * 256 ^ (c ++ rest).length + fromBE (c ++ rest) =
        (v * radix + fromBE c) * 256 ^ rest.length + fromBE rest := by
      rw [fromBE_append, List.length_append, hc, pow_add, hradix]
      ring
    rw [hval]
    have hge : v * radix + fromBE c ≤ (v * radix + fromBE c) * 256 ^ rest.length + fromBE rest := by
      have := Nat.le_mul_of_pos_right (v * radix + fromBE c) (Nat.pow_pos (n := rest.length)
        (show 0 < 256 by decide))
      omega
    by_cases h : v * radix + fromBE c ≤ wordMax
    · have h₁ : checkedMul v (radix) = some (v * radix) :=
        checkedMul_of_le ((Nat.le_add_right _ _).trans h)
      have h₂ : checkedAdd (v * radix) (fromBE c) = some (v * radix + fromBE c) :=
        checkedAdd_of_le h
      simp only [h₁, Option.bind_eq_bind, Option.bind_some, h₂]
      exact ih _ hr h
    · rw [if_neg (by omega)]
      have : ((checkedMul v (radix)).bind fun value => checkedAdd value (fromBE c)) = none := by
        cases h₁ : checkedMul v (radix) with
        | none => rfl
        | some w =>
          obtain ⟨-, rfl⟩ := checkedMul_eq_some.mp h₁
          rw [Option.bind_some, checkedAdd, if_neg h]
      simp only [Option.bind_eq_bind, this, Option.bind_none]

theorem decodeCellsU64_eq {bytes : List UInt8} (h : bytes.length % 4 = 0) :
    decodeCellsU64 bytes = if fromBE bytes ≤ wordMax then some (fromBE bytes) else none := by
  have := decodeCells_aux (show 256 ^ 4 = cellRadix from rfl) (bytes.length / 4) bytes (v := 0)
    (by omega) (Nat.zero_le _)
  rw [decodeCellsU64, if_neg (not_not.mpr h), this, Nat.zero_mul, Nat.zero_add]

theorem decides_splitAt {bytes : List UInt8} {mid : ℕ} (h : mid ≤ bytes.length) :
    Decides (splitAt bytes mid : Exec σ ε _) (· = (bytes.take mid, bytes.drop mid)) :=
  (decides_bind (decides_require h) fun _ _ => decides_pure _).congr fun _ => by simp

theorem decides_validateEntry {a : ChildAddressing} {entry : List UInt8}
    (h : entry.length = a.layout.entrySize) :
    Decides (regRange.validateEntry a.layout entry : Exec σ _ _) fun _ => EntryOk a.layout entry := by
  have hlen : entry.length = 4 * a.addressCells + 4 * a.sizeCells := by
    rw [h, ChildAddressing.layout, Nat.mul_add]
  have hle : a.layout.addressSize ≤ entry.length := by
    rw [hlen]; simp only [ChildAddressing.layout]; omega
  have hta : (entry.take a.layout.addressSize).length % 4 = 0 := by
    rw [List.length_take, Nat.min_eq_left hle]; simp only [ChildAddressing.layout]; omega
  have hts : (entry.drop a.layout.addressSize).length % 4 = 0 := by
    rw [List.length_drop, hlen]; simp only [ChildAddressing.layout]; omega
  refine (decides_bind (decides_splitAt hle) (Q := fun _ _ => EntryOk a.layout entry) ?_).congr
    fun _ => by simp
  rintro _ rfl
  simp only [decodeCellsU64_eq hta, decodeCellsU64_eq hts, EntryOk]
  by_cases h₁ : fromBE (entry.take a.layout.addressSize) ≤ wordMax
  swap
  · simp only [h₁, if_false]
    exact (decides_fail _).congr fun _ => by simp
  by_cases h₂ : fromBE (entry.drop a.layout.addressSize) ≤ wordMax
  swap
  · simp only [h₁, h₂, if_true, if_false]
    exact (decides_fail _).congr fun _ => by simp
  simp only [h₁, h₂, if_true, true_and]
  split_ifs with h₃ h₄
  · exact (decides_fail _).congr fun _ => by simp [h₃]
  · refine (decides_fail _).congr fun _ => ?_
    have : ¬ fromBE (entry.take a.layout.addressSize) + fromBE (entry.drop a.layout.addressSize) ≤
        wordMax := by
      intro hle
      rw [checkedAdd, if_pos hle] at h₄
      simp at h₄
    simp [this]
  · refine (decides_pure ()).congr fun _ => ?_
    have : fromBE (entry.take a.layout.addressSize) + fromBE (entry.drop a.layout.addressSize) ≤
        wordMax := by
      by_contra hgt
      rw [checkedAdd, if_neg hgt] at h₄
      simp at h₄
    simp [h₃, this]

theorem decides_regRange_validate {a : ChildAddressing} {bytes : List UInt8}
    (h : a.layout.entrySize ≠ 0) :
    Decides (regRange.validate bytes a.layout : Exec σ _ _) fun _ => RegOk a.layout bytes := by
  unfold regRange.validate RegOk
  split
  · rename_i he
    exact (decides_fail _).congr fun _ => by simp [List.isEmpty_iff.mp he]
  · rename_i he
    have hne : bytes ≠ [] := fun h => he (by rw [h]; rfl)
    refine (decides_bind (decides_require h) (Q := fun _ _ =>
      ∀ entry ∈ chunksExact a.layout.entrySize bytes, EntryOk a.layout entry) fun _ _ =>
      decides_foldlM (List.forall₂_same.mpr fun entry hentry =>
        decides_validateEntry (length_of_mem_chunksExact hentry))).congr fun _ => by simp [hne]

/-! ## Memory nodes -/

/-- The node has a valid `reg` of this layout. -/
def Tree.HasReg (strings : Strings) (layout : RegLayout) (t : Tree) : Prop :=
  ∃ p, t.property strings (ascii "reg") = some p ∧ RegOk layout p.value

def Tree.IsMemory (t : Tree) : Prop := component t.name = ascii "memory"

instance : DecidablePred Tree.IsMemory := fun _ => inferInstanceAs (Decidable (_ = _))

/-- The root has nonzero cell counts and every memory node a device type and a valid `reg`. -/
def Tree.MemoryOk (strings : Strings) (t : Tree) : Prop :=
  t.addressCells strings ≠ 0 ∧ t.sizeCells strings ≠ 0 ∧ ∀ c ∈ t.children, c.IsMemory →
    (∃ p, c.property strings (ascii "device_type") = some p ∧ p.value = ascii "memory" ++ [0]) ∧
      c.HasReg strings (t.childAddressing strings).layout

theorem decides_validateMemoryNode {node : Node} {t : Tree} {a : ChildAddressing}
    (h : Views strings node t) (hv : t.Valid strings) (ha : a.layout.entrySize ≠ 0) :
    Decides (validateMemoryNode node a.layout : Exec σ _ _) fun _ =>
      (∃ p, t.property strings (ascii "device_type") = some p ∧ p.value = ascii "memory" ++ [0]) ∧
        t.HasReg strings a.layout := by
  refine (decides_bind (h.decides_property hv _) (Q := fun p _ =>
    (∃ p', p = some p' ∧ p'.value = ascii "memory" ++ [0]) ∧ t.HasReg strings a.layout)
    fun p _ => ?_).congr fun _ => by simp
  cases p with
  | none => exact (decides_fail _).congr fun _ => by simp
  | some deviceType =>
    dsimp only
    split
    · rename_i hd
      exact (decides_fail _).congr fun _ => by simp [hd]
    · rename_i hd
      have hd' : deviceType.value = ascii "memory" ++ [0] := not_not.mp hd
      refine (decides_bind (h.decides_property hv _) (Q := fun p _ =>
        ∃ p', p = some p' ∧ RegOk a.layout p'.value) fun p _ => ?_).congr fun _ => by
          simp [hd', Tree.HasReg]
      cases p with
      | none => exact (decides_fail _).congr fun _ => by simp
      | some reg =>
        exact (decides_mapError (decides_regRange_validate ha)).congr fun _ => by simp

theorem ChildAddressing.entrySize_ne_zero {a : ChildAddressing} (h : a.addressCells ≠ 0) :
    a.layout.entrySize ≠ 0 := by
  simp only [ChildAddressing.layout]
  omega

theorem Views.isMemoryNode_iff {node : Node} {t : Tree} (h : Views strings node t) :
    isMemoryNode node = true ↔ t.IsMemory := by
  rw [isMemoryNode, Node.nameComponent, h.name, Tree.IsMemory, beq_iff_eq]

theorem decides_memory_validate {node : Node} {t : Tree} (h : Views strings node t)
    (hv : t.Valid strings) (hc : t.CellsOk strings) :
    Decides (memory.validate node : Exec σ _ _) fun _ => t.MemoryOk strings := by
  refine (decides_bind (decides_childAddressing h hv hc) (Q := fun _ _ => t.MemoryOk strings)
    ?_).congr fun _ => by simp
  rintro _ rfl
  unfold Tree.MemoryOk
  split_ifs with h₁ h₂
  · exact (decides_fail _).congr fun _ => by simp [show t.addressCells strings = 0 from h₁]
  · exact (decides_fail _).congr fun _ => by simp [show t.sizeCells strings = 0 from h₂]
  · refine (decides_bind (decides_ofExcept _) (Q := fun _ _ => ∀ c ∈ t.children, c.IsMemory →
      (∃ p, c.property strings (ascii "device_type") = some p ∧ p.value = ascii "memory" ++ [0]) ∧
        c.HasReg strings (t.childAddressing strings).layout) fun layout hl => ?_).congr fun _ => by
        rw [hc.layout]
        simp [show t.addressCells strings ≠ 0 from h₁, show t.sizeCells strings ≠ 0 from h₂]
    obtain rfl : (t.childAddressing strings).layout = layout := by
      rw [hc.layout] at hl
      exact Except.ok.inj hl
    refine decides_children h hv fun n c _ hview hvalid => ?_
    have hname := hview.isMemoryNode_iff
    by_cases hm : c.IsMemory
    · rw [if_pos (hname.mpr hm)]
      refine (decides_validateMemoryNode hview hvalid (ChildAddressing.entrySize_ne_zero h₁)).congr
        fun _ => by simp [hm]
    · rw [if_neg fun h => hm (hname.mp h)]
      exact (decides_pure ()).congr fun _ => by simp [hm]

/-! ## Reserved memory -/

/-- The child of the root that holds the static reservations. -/
def Tree.reservedMemory (t : Tree) : Option Tree :=
  t.children.find? (·.name == ascii "reserved-memory")

/-- The rules for that child and its children. -/
def Tree.ReservedMemoryOk (strings : Strings) (t : Tree) : Prop :=
  ∀ r, t.reservedMemory = some r →
    (r.property strings (ascii "#address-cells")).isSome ∧
    (r.property strings (ascii "#size-cells")).isSome ∧
    (∃ p, r.property strings (ascii "ranges") = some p ∧ p.value = []) ∧
    r.addressCells strings ≠ 0 ∧ r.sizeCells strings ≠ 0 ∧
    ∀ c ∈ r.children, c.HasReg strings (r.childAddressing strings).layout

theorem find?_forall₂ {α β : Type} {R : α → β → Prop} {p : α → Bool} {q : β → Bool} {as : List α}
    {bs : List β} (h : List.Forall₂ R as bs) (hpq : ∀ a b, R a b → p a = q b) :
    (as.find? p = none ∧ bs.find? q = none) ∨
      ∃ a b, as.find? p = some a ∧ bs.find? q = some b ∧ R a b ∧ b ∈ bs := by
  induction h with
  | nil => exact .inl ⟨rfl, rfl⟩
  | @cons a b as bs hab _ ih =>
    rw [List.find?_cons, List.find?_cons, hpq a b hab]
    cases hq : q b with
    | true => exact .inr ⟨a, b, rfl, rfl, hab, List.mem_cons_self⟩
    | false =>
      rcases ih with ih | ⟨a', b', h₁, h₂, h₃, h₄⟩
      · exact .inl ih
      · exact .inr ⟨a', b', h₁, h₂, h₃, List.mem_cons_of_mem _ h₄⟩

/-- Looking up a child of a view is looking it up in the tree. -/
theorem Views.decides_child {node : Node} {t : Tree} (h : Views strings node t) (name : List UInt8) :
    (Decides (node.child name : Exec σ ε _) (· = none) ∧ t.children.find? (·.name == name) = none) ∨
      ∃ n c, Decides (node.child name : Exec σ ε _) (· = some n) ∧
        t.children.find? (·.name == name) = some c ∧ Views strings n c ∧ c ∈ t.children := by
  obtain ⟨ns, hns, hviews⟩ := h.yields_children (ε := ε)
  obtain ⟨it', hr, -, -⟩ := Yields.findNext (p := fun n => n.name == name) hns
    (show ns.length < node.bound by rw [hviews.length_eq]; exact h.length_le.2)
  have hd : Decides (node.child name : Exec σ ε _) (· = ns.find? (·.name == name)) :=
    decides_of_returns fun s => returns_onLocal.mpr ⟨rfl, it', hr⟩
  rcases find?_forall₂ (p := fun n : Node => n.name == name) (q := fun c : Tree => c.name == name) hviews
    (fun n c hview => by rw [hview.name]) with ⟨h₁, h₂⟩ | ⟨n, c, h₁, h₂, h₃, h₄⟩
  · rw [h₁] at hd
    exact .inl ⟨hd, h₂⟩
  · rw [h₁] at hd
    exact .inr ⟨n, c, hd, h₂, h₃, h₄⟩

theorem decides_validateParent {node : Node} {t : Tree} (h : Views strings node t)
    (hv : t.Valid strings) :
    Decides (validateParent node : Exec σ _ _) fun _ =>
      (t.property strings (ascii "#address-cells")).isSome ∧
      (t.property strings (ascii "#size-cells")).isSome ∧
      ∃ p, t.property strings (ascii "ranges") = some p ∧ p.value = [] := by
  refine (decides_bind (h.decides_property hv _) (Q := fun p _ => p.isSome ∧
      (t.property strings (ascii "#size-cells")).isSome ∧
      ∃ p, t.property strings (ascii "ranges") = some p ∧ p.value = [])
    fun p _ => ?_).congr fun _ => by simp
  cases p with
  | none => exact (decides_fail _).congr fun _ => by simp
  | some _ =>
    refine (decides_bind (h.decides_property hv _) (Q := fun p _ => p.isSome ∧
        ∃ p, t.property strings (ascii "ranges") = some p ∧ p.value = [])
      fun p _ => ?_).congr fun _ => by simp
    cases p with
    | none => exact (decides_fail _).congr fun _ => by simp
    | some _ =>
      refine (decides_bind (h.decides_property hv _) (Q := fun p _ =>
        ∃ p', p = some p' ∧ p'.value = []) fun p _ => ?_).congr fun _ => by simp
      cases p with
      | none => exact (decides_fail _).congr fun _ => by simp
      | some ranges =>
        dsimp only
        cases hr : ranges.value with
        | nil => exact (decides_pure ()).congr fun _ => by simp [hr]
        | cons b bs => exact (decides_fail _).congr fun _ => by simp [hr]

theorem decides_validateChild {node : Node} {t : Tree} {a : ChildAddressing}
    (h : Views strings node t) (hv : t.Valid strings) (ha : a.layout.entrySize ≠ 0) :
    Decides (validateChild node a.layout : Exec σ _ _) fun _ => t.HasReg strings a.layout := by
  refine (decides_bind (h.decides_property hv _) (Q := fun p _ =>
    ∃ p', p = some p' ∧ RegOk a.layout p'.value) fun p _ => ?_).congr fun _ => by
      simp [Tree.HasReg]
  cases p with
  | some reg => exact (decides_mapError (decides_regRange_validate ha)).congr fun _ => by simp
  | none =>
    refine (decides_bind (h.decides_property hv _) (Q := fun _ _ => False) fun p _ => ?_).congr
      fun _ => by simp
    split <;> exact decides_fail _

/-- The rules of the addressing pass hold at every child of the root. -/
theorem Tree.AddressingOk.child {t c : Tree} (h : t.AddressingOk strings) (hc : c ∈ t.children) :
    c.AddressingOk strings := by
  cases h with
  | node _ _ _ below => exact below c hc

theorem Tree.AddressingOk.cells {t : Tree} (h : t.AddressingOk strings) : t.CellsOk strings := by
  cases h with
  | node cells => exact cells

theorem decides_reservedMemory_validate {node : Node} {t : Tree} (h : Views strings node t)
    (hv : t.Valid strings) (ha : t.AddressingOk strings) :
    Decides (reservedMemory.validate node : Exec σ _ _) fun _ => t.ReservedMemoryOk strings := by
  unfold reservedMemory.validate reservedMemoryNode Tree.ReservedMemoryOk Tree.reservedMemory
  rcases h.decides_child (σ := σ) (ε := SemanticError) (ascii "reserved-memory") with
    ⟨hd, hnone⟩ | ⟨n, r, hd, hsome, hview, hmem⟩
  · refine (decides_bind hd (Q := fun _ _ => True) ?_).congr fun _ => by simp [hnone]
    rintro _ rfl
    exact (decides_pure ()).congr fun _ => by simp
  · have hvr := hv.children r hmem
    have hcr := (ha.child hmem).cells
    refine (decides_bind hd (Q := fun _ _ =>
      ((r.property strings (ascii "#address-cells")).isSome ∧
        (r.property strings (ascii "#size-cells")).isSome ∧
        ∃ p, r.property strings (ascii "ranges") = some p ∧ p.value = []) ∧
      r.addressCells strings ≠ 0 ∧ r.sizeCells strings ≠ 0 ∧
      ∀ c ∈ r.children, c.HasReg strings (r.childAddressing strings).layout) ?_).congr fun _ => by
        rw [hsome]
        simp only [exists_eq_left, Option.some.injEq, forall_eq', and_assoc]
    rintro _ rfl
    refine (decides_bind (decides_validateParent hview hvr) fun _ _ =>
      decides_bind (decides_childAddressing hview hvr hcr) (Q := fun _ _ =>
        r.addressCells strings ≠ 0 ∧ r.sizeCells strings ≠ 0 ∧
        ∀ c ∈ r.children, c.HasReg strings (r.childAddressing strings).layout) ?_).congr fun _ => by
          simp
    rintro _ rfl
    dsimp only
    split_ifs with h₁ h₂
    · exact (decides_fail _).congr fun _ => by simp [show r.addressCells strings = 0 from h₁]
    · exact (decides_fail _).congr fun _ => by simp [show r.sizeCells strings = 0 from h₂]
    · refine (decides_bind (decides_ofExcept _) (Q := fun _ _ =>
        ∀ c ∈ r.children, c.HasReg strings (r.childAddressing strings).layout)
        fun layout hl => ?_).congr fun _ => by
          rw [hcr.layout]
          simp [show r.addressCells strings ≠ 0 from h₁, show r.sizeCells strings ≠ 0 from h₂]
      obtain rfl : (r.childAddressing strings).layout = layout := by
        rw [hcr.layout] at hl
        exact Except.ok.inj hl
      exact decides_children hview hvr fun n c _ hview' hvalid =>
        decides_validateChild hview' hvalid (ChildAddressing.entrySize_ne_zero h₁)

/-! ## All passes -/

/-- The root has a `cpus` node and a memory node. -/
def Tree.RequiredOk (t : Tree) : Prop :=
  (∃ c ∈ t.children, c.name = ascii "cpus") ∧ ∃ c ∈ t.children, c.IsMemory

/-- All semantic rules. -/
structure Tree.SemanticsOk (strings : Strings) (t : Tree) : Prop where
  required : t.RequiredOk
  addressing : t.AddressingOk strings
  memory : t.MemoryOk strings
  reservedMemory : t.ReservedMemoryOk strings

theorem foldlM_seen {ns : List Node} {cs : List Tree} (h : List.Forall₂ (Views strings) ns cs) :
    ∀ seen : Bool × Bool, ns.foldlM (m := Exec σ ε) (fun (seen : Bool × Bool) child =>
      pure (seen.1 || child.name == ascii "cpus", seen.2 || child.nameComponent == ascii "memory"))
      seen = pure (seen.1 || cs.any (·.name == ascii "cpus"),
        seen.2 || cs.any (component ·.name == ascii "memory")) := by
  induction h with
  | nil => intro seen; simp
  | @cons n c ns cs hview _ ih =>
    intro seen
    rw [List.foldlM_cons]
    change List.foldlM (m := Exec σ ε) _ _ ns = _
    rw [ih, List.any_cons, List.any_cons, Bool.or_assoc, Bool.or_assoc, Node.nameComponent, hview.name]

theorem decides_validateRequiredRootNodes {node : Node} {t : Tree} (h : Views strings node t) :
    Decides (validateRequiredRootNodes node : Exec σ _ _) fun _ => t.RequiredOk := by
  obtain ⟨ns, hns, hviews⟩ := h.yields_children (ε := SemanticError)
  unfold validateRequiredRootNodes Tree.RequiredOk
  rw [foldIter_eq hns (by rw [hviews.length_eq]; exact h.length_le.2), foldlM_seen hviews]
  refine (decides_bind (decides_pure _) (Q := fun _ _ =>
    (∃ c ∈ t.children, c.name = ascii "cpus") ∧ ∃ c ∈ t.children, c.IsMemory) ?_).congr fun _ => by
      simp
  rintro _ rfl
  have h₁ : (t.children.any (·.name == ascii "cpus") = true) ↔
      ∃ c ∈ t.children, c.name = ascii "cpus" := by simp
  have h₂ : (t.children.any (component ·.name == ascii "memory") = true) ↔
      ∃ c ∈ t.children, c.IsMemory := by simp [Tree.IsMemory]
  rw [← h₁, ← h₂]
  dsimp only
  rw [Bool.false_or, Bool.false_or]
  cases t.children.any (·.name == ascii "cpus") with
  | false => exact (decides_fail _).congr fun _ => by simp
  | true =>
    cases t.children.any (component ·.name == ascii "memory") with
    | false => exact (decides_fail _).congr fun _ => by simp
    | true => exact (decides_pure ()).congr fun _ => by simp

/-- **The semantic passes** of an accepted block never panic and accept exactly the rules. -/
theorem decides_validateSemantics {bytes : List UInt8} {t : Tree} (hname : t.name = [])
    (hv : t.Valid strings) (ht : Denotes bytes t) :
    Decides (Structure.validateSemantics ⟨bytes⟩ strings : Exec σ _ _) fun _ =>
      t.SemanticsOk strings := by
  obtain ⟨root, hroot, hview⟩ := returns_root (σ := σ) (ε := StructureError) strings hname ht
  refine (decides_bind (decides_of_returns hroot) (Q := fun _ _ => t.SemanticsOk strings) ?_).congr
    fun _ => by simp
  rintro _ rfl
  refine decides_mapError ((decides_bind (decides_validateRequiredRootNodes hview) fun _ _ =>
    decides_bind (decides_validateSubtree hview hv hview.symbols_length_le) fun _ ha =>
    decides_bind (decides_memory_validate hview hv ha.cells) fun _ _ =>
    decides_reservedMemory_validate hview hv ha).congr fun _ => ?_)
  constructor
  · rintro ⟨_, h₁, _, h₂, _, h₃, h₄⟩
    exact ⟨h₁, h₂, h₃, h₄⟩
  · rintro ⟨h₁, h₂, h₃, h₄⟩
    exact ⟨(), h₁, (), h₂, (), h₃, h₄⟩

/-! ## The rules, node by node -/

/-- A node of the tree, at any depth. -/
inductive Tree.Contains : Tree → Tree → Prop
  | self (t : Tree) : Tree.Contains t t
  | child {t c n : Tree} (member : c ∈ t.children) (inside : Tree.Contains c n) : Tree.Contains t n

theorem Tree.AddressingOk.contains {t n : Tree} (h : t.AddressingOk strings) (hn : t.Contains n) :
    n.AddressingOk strings := by
  induction hn with
  | self => exact h
  | child member _ ih => exact ih (h.child member)

/-- **The addressing pass** checks every node and skips none. -/
theorem Tree.addressingOk_iff_contains {fuel : ℕ} : ∀ {t : Tree}, t.symbols.length ≤ fuel →
    (t.AddressingOk strings ↔ ∀ n, t.Contains n → n.CellsOk strings ∧ n.UnitAddressOk strings ∧
      ∀ c ∈ n.children, c.RegLengthOk strings (n.childAddressing strings)) := by
  induction fuel with
  | zero =>
    intro t hf
    rw [Tree.symbols_eq, List.length_cons] at hf
    omega
  | succ fuel ih =>
    intro t hf
    constructor
    · intro h n hn
      cases h.contains hn with
      | node cells unitAddress regs _ => exact ⟨cells, unitAddress, regs⟩
    · intro h
      obtain ⟨cells, unitAddress, regs⟩ := h t (.self t)
      refine .node cells unitAddress regs fun c hc => ?_
      have := Tree.length_symbols_lt hc
      exact (ih (by omega)).mpr fun n hn => h n (.child hc hn)

/-- The reserved-memory child is the one of that name. -/
theorem Tree.reservedMemory_eq_some {t r : Tree} (hv : t.Valid strings) :
    t.reservedMemory = some r ↔ r ∈ t.children ∧ r.name = ascii "reserved-memory" := by
  constructor
  · intro h
    exact ⟨List.mem_of_find?_eq_some h, by simpa using List.find?_some h⟩
  · rintro ⟨hr, hname⟩
    exact hv.find?_child hr hname

/-- **Semantic validation accepts exactly its rules.** On a block that is structurally valid, with
tree `t`, validation ends without a panic and succeeds exactly when the rules hold at every node,
each `reg` being read with the cell counts of the node's parent. -/
theorem validate_semantics_iff_rules {bytes : List UInt8} {strings : Strings} {t : Tree}
    (haccepted : Returns (Structure.new bytes strings) () ⟨bytes⟩ ()) (ht : Denotes bytes t) :
    Safe (Structure.validateSemantics ⟨bytes⟩ strings) () ∧
    (Returns (Structure.validateSemantics ⟨bytes⟩ strings) () () () ↔
      (∃ c ∈ t.children, c.name = ascii "cpus") ∧
      (∃ c ∈ t.children, component c.name = ascii "memory") ∧
      (∀ n, t.Contains n → ∀ name ∈ [ascii "#address-cells", ascii "#size-cells"],
        ∀ p, n.property strings name = some p → p.value.length = 4) ∧
      (∀ n, t.Contains n → (unitAddress n.name).isSome →
        (n.property strings (ascii "reg")).isSome ∨ (n.property strings (ascii "ranges")).isSome) ∧
      (∀ n, t.Contains n → ∀ c ∈ n.children, ∀ p, c.property strings (ascii "reg") = some p →
        if 4 * (n.addressCells strings + n.sizeCells strings) = 0 then p.value.length = 0
        else p.value.length % (4 * (n.addressCells strings + n.sizeCells strings)) = 0) ∧
      (t.addressCells strings ≠ 0 ∧ t.sizeCells strings ≠ 0 ∧
        ∀ c ∈ t.children, component c.name = ascii "memory" →
          (∃ p, c.property strings (ascii "device_type") = some p ∧
            p.value = ascii "memory" ++ [0]) ∧
          c.HasReg strings (t.childAddressing strings).layout) ∧
      ∀ r ∈ t.children, r.name = ascii "reserved-memory" →
        (r.property strings (ascii "#address-cells")).isSome ∧
        (r.property strings (ascii "#size-cells")).isSome ∧
        (∃ p, r.property strings (ascii "ranges") = some p ∧ p.value = []) ∧
        r.addressCells strings ≠ 0 ∧ r.sizeCells strings ≠ 0 ∧
        ∀ c ∈ r.children, c.HasReg strings (r.childAddressing strings).layout) := by
  obtain ⟨-, -, t', hname, hv, ht'⟩ := returns_structureNew_iff.mp haccepted
  obtain rfl := ht.unique ht'
  have hdecides := decides_validateSemantics (σ := Unit) hname hv ht
  refine ⟨hdecides.safe (), ?_⟩
  have haddressing := @Tree.addressingOk_iff_contains strings _ t le_rfl
  rw [hdecides.returns_iff, and_iff_left rfl]
  constructor
  · rintro ⟨⟨hcpus, hmemory⟩, hnodes, hregions, hreserved⟩
    have hnodes := haddressing.mp hnodes
    refine ⟨hcpus, hmemory, fun n hn name hmem => ?_, fun n hn => (hnodes n hn).2.1,
      fun n hn => (hnodes n hn).2.2, hregions, fun r hr hrname => ?_⟩
    · simp only [List.mem_cons, List.not_mem_nil, or_false] at hmem
      rcases hmem with rfl | rfl
      · exact (hnodes n hn).1.1
      · exact (hnodes n hn).1.2
    · exact hreserved r ((Tree.reservedMemory_eq_some hv).mpr ⟨hr, hrname⟩)
  · rintro ⟨hcpus, hmemory, hcells, hunit, hregs, hregions, hreserved⟩
    refine ⟨⟨hcpus, hmemory⟩, haddressing.mpr fun n hn => ⟨⟨?_, ?_⟩, hunit n hn, hregs n hn⟩,
      hregions, fun r hr => ?_⟩
    · exact hcells n hn _ (by simp)
    · exact hcells n hn _ (by simp)
    · obtain ⟨hmem, hrname⟩ := (Tree.reservedMemory_eq_some hv).mp hr
      exact hreserved r hmem hrname

/-- The names `device_type` and `reg`. -/
def regularStrings : Strings := ⟨ascii "device_type" ++ [0] ++ ascii "reg" ++ [0]⟩

def regularCpus : Tree := .node (ascii "cpus") [] []

def regularMemory : Tree := .node (ascii "memory@1000") [⟨0, ascii "memory" ++ [0]⟩,
  ⟨12, toBE 8 0x1000 ++ toBE 4 0x2000⟩] []

/-- A tree with the two nodes that are required. -/
def regularTree : Tree := .node [] [] [regularCpus, regularMemory]

def regularLexemes : List Lexeme :=
  [.beginNode [] [0, 0, 0], .beginNode (ascii "cpus") [0, 0, 0], .endNode,
    .beginNode (ascii "memory@1000") [], .property 0 (ascii "memory" ++ [0]) [0],
    .property 12 (toBE 8 0x1000 ++ toBE 4 0x2000) [], .endNode, .endNode]

def regularBlock : List UInt8 := encodeAll (regularLexemes ++ [.fdtEnd])

theorem denotes_regularBlock : Denotes regularBlock regularTree := by
  refine ⟨regularLexemes, ?_, rfl, rfl⟩
  simp only [regularLexemes, List.forall_mem_cons, List.not_mem_nil, false_imp_iff, implies_true,
    and_true, Lexeme.WF, true_and]
  decide +kernel

theorem regularMemory_reg : regularMemory.property regularStrings (ascii "reg") =
    some ⟨ascii "reg", toBE 8 0x1000 ++ toBE 4 0x2000⟩ := by
  decide +kernel

theorem contains_regularTree {n : Tree} (h : regularTree.Contains n) :
    n = regularTree ∨ n = regularCpus ∨ n = regularMemory := by
  cases h with
  | self => exact .inl rfl
  | child member inside =>
    have hmember : _ ∈ [regularCpus, regularMemory] := member
    rcases List.mem_pair.mp hmember with rfl | rfl
    · cases inside with
      | self => exact .inr (.inl rfl)
      | child member _ => cases member
    · cases inside with
      | self => exact .inr (.inr rfl)
      | child member _ => cases member

/-- The sample block has no `cpus` node and is refused, and a block with the nodes that are required is
accepted. -/
theorem validate_semantics_iff_rules_sample :
    ¬Returns (Structure.validateSemantics ⟨sampleBlock⟩ ⟨[112, 0]⟩) () () () ∧
      Returns (Structure.validateSemantics ⟨regularBlock⟩ regularStrings) () () () := by
  constructor
  · have haccepted : Returns (Structure.new sampleBlock ⟨[112, 0]⟩) () ⟨sampleBlock⟩ () := by
      unfold Returns
      decide +kernel
    intro h
    obtain ⟨⟨c, hc, hname⟩, -⟩ :=
      (validate_semantics_iff_rules haccepted sampleBlock_denotes).2.mp h
    simp only [sampleTree, Tree.children, List.mem_singleton] at hc
    subst hc
    exact absurd hname (by decide +kernel)
  · have haccepted : Returns (Structure.new regularBlock regularStrings) () ⟨regularBlock⟩ () := by
      unfold Returns
      decide +kernel
    have hcpus : regularCpus ∈ regularTree.children := List.mem_cons_self
    have hmemory : regularMemory ∈ regularTree.children := List.mem_cons_of_mem _ List.mem_cons_self
    refine (validate_semantics_iff_rules haccepted denotes_regularBlock).2.mpr ⟨⟨_, hcpus, rfl⟩,
      ⟨_, hmemory, by decide +kernel⟩, ?_, ?_, ?_, ⟨by decide +kernel, by decide +kernel, ?_⟩, ?_⟩
    · intro n hn name hname p hp
      have hnone : n.property regularStrings name = none := by
        rcases List.mem_pair.mp hname with rfl | rfl <;>
          rcases contains_regularTree hn with rfl | rfl | rfl <;> decide +kernel
      cases hp.symm.trans hnone
    · intro n hn
      rcases contains_regularTree hn with rfl | rfl | rfl <;> decide +kernel
    · intro n hn c hc p hp
      rcases contains_regularTree hn with rfl | rfl | rfl
      · have hmember : c ∈ [regularCpus, regularMemory] := hc
        rcases List.mem_pair.mp hmember with rfl | rfl
        · have hnone : regularCpus.property regularStrings (ascii "reg") = none := by decide +kernel
          cases hp.symm.trans hnone
        · obtain rfl := Option.some.inj (hp.symm.trans regularMemory_reg)
          decide +kernel
      · cases hc
      · cases hc
    · intro c hc hname
      have hmember : c ∈ [regularCpus, regularMemory] := hc
      rcases List.mem_pair.mp hmember with rfl | rfl
      · exact absurd hname (by decide +kernel)
      · refine ⟨⟨⟨ascii "device_type", ascii "memory" ++ [0]⟩, by decide +kernel, rfl⟩, _,
          regularMemory_reg, by decide +kernel, ?_⟩
        unfold EntryOk
        decide +kernel
    · intro r hr hname
      have hmember : r ∈ [regularCpus, regularMemory] := hr
      rcases List.mem_pair.mp hmember with rfl | rfl <;> exact absurd hname (by decide +kernel)

end Barebone.Devicetree

import BareboneKernel.Fdt.Rules
import Mathlib.Algebra.Order.BigOperators.Group.List

/-!
# Physical ranges of a validated tree

* `regEntries layout bytes`: the ranges a `reg` property encodes, as unbounded numbers;
* `Tree.memoryRanges`, `Tree.reservedRanges`: the ranges of the memory nodes and of the static
  reservations of a tree;
* **`yields_memoryRanges`**, **`yields_reservedMemoryRanges`**: the iterators yield exactly these
  and never panic.
-/

set_option autoImplicit false

namespace Barebone.Devicetree

open Exec Endian Word

variable {σ ε : Type} {strings : Strings}

/-! ## Entries of one property -/

/-- The range of one entry. -/
def entryRange (layout : RegLayout) (entry : List UInt8) : RegRange :=
  ⟨fromBE (entry.take layout.addressSize), fromBE (entry.drop layout.addressSize)⟩

/-- The ranges of a `reg` property. -/
def regEntries (layout : RegLayout) (bytes : List UInt8) : List RegRange :=
  (chunksExact layout.entrySize bytes).map (entryRange layout)

theorem RegRanges.returns_next {a : ChildAddressing} {entry : List UInt8} (rest : List UInt8)
    (hpos : a.layout.entrySize ≠ 0) (hlen : entry.length = a.layout.entrySize)
    (hok : EntryOk a.layout entry) :
    Returns (RegRanges.next : Exec _ ε _) ⟨entry ++ rest, a.layout⟩ (some (entryRange a.layout entry))
      ⟨rest, a.layout⟩ := by
  have hlen' : entry.length = 4 * a.addressCells + 4 * a.sizeCells := by
    rw [hlen, ChildAddressing.layout, Nat.mul_add]
  have hle : a.layout.addressSize ≤ entry.length := by
    rw [hlen']; simp only [ChildAddressing.layout]; omega
  have hta : (entry.take a.layout.addressSize).length % 4 = 0 := by
    rw [List.length_take, Nat.min_eq_left hle]; simp only [ChildAddressing.layout]; omega
  have hts : (entry.drop a.layout.addressSize).length % 4 = 0 := by
    rw [List.length_drop, hlen']; simp only [ChildAddressing.layout]; omega
  have hne : (entry ++ rest).isEmpty = false := by
    rw [List.isEmpty_eq_false_iff, ← List.length_pos_iff, List.length_append]
    omega
  have hdecode : ∀ {bs : List UInt8}, bs.length % 4 = 0 → fromBE bs ≤ wordMax → ∀ it : RegRanges,
      Returns (decodeValidatedCellsU64 bs : Exec RegRanges ε ℕ) it (fromBE bs) it := by
    intro bs hb hmax it
    rw [decodeValidatedCellsU64, decodeCellsU64_eq hb, if_pos hmax]
    exact returns_pure.mpr ⟨rfl, rfl⟩
  rw [RegRanges.next, returns_bind]
  refine ⟨_, _, returns_get.mpr ⟨rfl, rfl⟩, ?_⟩
  dsimp only
  rw [hne]
  simp only [Bool.false_eq_true, if_false, returns_bind, returns_modify]
  refine ⟨(entry, rest), ⟨entry ++ rest, a.layout⟩, ?_, (), ⟨rest, a.layout⟩, rfl,
    (entry.take a.layout.addressSize, entry.drop a.layout.addressSize), ⟨rest, a.layout⟩, ?_, ?_⟩
  · refine (decides_splitAt ?_).returns_iff.mpr ⟨?_, rfl⟩
    · rw [List.length_append]; omega
    · rw [← hlen, List.take_left, List.drop_left]
  · exact (decides_splitAt hle).returns_iff.mpr ⟨rfl, rfl⟩
  · exact ⟨_, _, hdecode hta hok.1 _, _, _, hdecode hts hok.2.1 _, returns_pure.mpr ⟨rfl, rfl⟩⟩

theorem RegRanges.yields {a : ChildAddressing} (hpos : a.layout.entrySize ≠ 0) {bytes : List UInt8}
    (hmod : bytes.length % a.layout.entrySize = 0)
    (hok : ∀ entry ∈ chunksExact a.layout.entrySize bytes, EntryOk a.layout entry) :
    Yields (RegRanges.next : Exec _ ε _) (regEntries a.layout bytes) ⟨bytes, a.layout⟩ := by
  induction hk : bytes.length using Nat.strong_induction_on generalizing bytes with
  | _ k ih =>
    by_cases hne : bytes = []
    · subst hne
      have hstop : Returns (RegRanges.next : Exec _ ε _) ⟨[], a.layout⟩ none ⟨[], a.layout⟩ := rfl
      simpa [regEntries] using ⟨_, hstop, hstop⟩
    · obtain ⟨hle, hmod'⟩ := exists_chunk hne hmod
      have hsplit := List.take_append_drop a.layout.entrySize bytes
      have hlen : (bytes.take a.layout.entrySize).length = a.layout.entrySize := by
        rw [List.length_take]; omega
      have hchunks := chunksExact_append (Nat.pos_of_ne_zero hpos) hlen
        (bytes.drop a.layout.entrySize)
      rw [hsplit] at hchunks
      rw [hchunks] at hok
      rw [regEntries, hchunks, List.map_cons]
      refine ⟨⟨bytes.drop a.layout.entrySize, a.layout⟩, ?_, ih _ ?_ hmod'
        (fun entry he => hok entry (List.mem_cons_of_mem _ he)) rfl⟩
      · have := RegRanges.returns_next (ε := ε) (bytes.drop a.layout.entrySize) hpos hlen
          (hok _ List.mem_cons_self)
        rwa [hsplit] at this
      · rw [List.length_drop]
        omega

/-- The ranges of a valid `reg` are nonempty and end inside the address space. -/
theorem regEntries_bounds {layout : RegLayout} {bytes : List UInt8} (h : RegOk layout bytes) :
    ∀ r ∈ regEntries layout bytes, 0 < r.size ∧ r.address + r.size ≤ wordMax := by
  intro r hr
  obtain ⟨entry, he, rfl⟩ := List.mem_map.mp hr
  obtain ⟨-, -, hpos, hend⟩ := h.2 entry he
  exact ⟨Nat.pos_of_ne_zero hpos, hend⟩

/-! ## The node iterators only move forward -/

/-- The reader has moved forward in the same bytes. -/
def Reader.Le (r r' : Reader) : Prop := r'.bytes = r.bytes ∧ r.offset ≤ r'.offset

theorem Reader.Consumes.le {r r' : Reader} {bs : List UInt8} (h : r.Consumes bs r') : r.Le r' :=
  ⟨h.bytes, by rw [h.offset]; omega⟩

theorem Reader.Le.refl (r : Reader) : r.Le r := ⟨rfl, le_rfl⟩

theorem Reader.Le.trans {r r₁ r₂ : Reader} (h : r.Le r₁) (h' : r₁.Le r₂) : r.Le r₂ :=
  ⟨h'.1.trans h.1, h.2.trans h'.2⟩

namespace NodeIter

variable {yields : ℕ → Bool} {message : String}

theorem le_of_readNodeName {r r' : Reader} {name : List UInt8}
    (h : Returns (ValidatedReader.readNodeName : Exec Reader ε _) r name r') : r.Le r' := by
  simp only [ValidatedReader.readNodeName, ValidatedReader.readNulTerminated,
    ValidatedReader.alignTo4, returns_bind, returns_expect, returns_pure,
    Reader.returns_readNulTerminated, Reader.returns_alignTo4] at h
  obtain ⟨_, r₁, ⟨-, h₁⟩, _, _, ⟨_, r₂, ⟨-, h₂⟩, -, rfl⟩, -, rfl⟩ := h
  exact h₁.le.trans h₂.le

theorem le_of_skipProperty {r r' : Reader} {u : Unit}
    (h : Returns (ValidatedReader.skipProperty : Exec Reader ε _) r u r') : r.Le r' := by
  simp only [ValidatedReader.skipProperty, ValidatedReader.readU32, ValidatedReader.readBytes,
    ValidatedReader.alignTo4, returns_bind, returns_expect, returns_pure,
    Reader.returns_readU32, Reader.returns_readBytes, Reader.returns_alignTo4] at h
  obtain ⟨_, r₁, ⟨-, h₁⟩, _, r₂, ⟨-, h₂⟩, _, r₃, ⟨-, h₃⟩, _, r₄, ⟨-, h₄⟩, -, rfl⟩ := h
  exact ((h₁.le.trans h₂.le).trans h₃.le).trans h₄.le

theorem returns_onReader_iff {α : Type} {c : Exec Reader ε α} {it it' : NodeIter} {a : α} :
    Returns (onReader c) it a it' ↔ ∃ r', Returns c it.reader a r' ∧ it' = { it with reader := r' } :=
  returns_zoom

/-- A round reads at least a token. -/
theorem lt_of_nextRound {it it' : NodeIter} {x : Unit ⊕ Option Node}
    (h : Returns (nextRound (ε := ε) yields message ()) it x it') :
    it.reader.Le it'.reader ∧ it.reader.offset < it'.reader.offset := by
  rw [nextRound, returns_bind] at h
  obtain ⟨t, it₁, ht, h⟩ := h
  obtain ⟨r₁, htoken, rfl⟩ := returns_onReader_iff.mp ht
  have hc := ValidatedReader.returns_readToken.mp htoken
  have hlt : it.reader.offset < r₁.offset := by rw [hc.offset, length_toBE]; omega
  have done : ∀ {r₂ : Reader}, r₁.Le r₂ → it.reader.Le r₂ ∧ it.reader.offset < r₂.offset :=
    fun hle => ⟨hc.le.trans hle, hlt.trans_le hle.2⟩
  cases t with
  | property =>
    simp only [returns_bind, returns_pure, returns_onReader_iff] at h
    obtain ⟨_, _, ⟨r₂, h₂, rfl⟩, -, rfl⟩ := h
    exact done (le_of_skipProperty h₂)
  | nop =>
    obtain ⟨-, rfl⟩ := returns_pure.mp h
    exact done (Reader.Le.refl _)
  | beginNode =>
    simp only [returns_bind, returns_get, returns_modify, returns_onReader_iff] at h
    obtain ⟨name, _, ⟨r₂, h₂, rfl⟩, _, _, ⟨rfl, rfl⟩, _, _, rfl, h⟩ := h
    have : it'.reader = r₂ := by
      split at h <;> obtain ⟨-, rfl⟩ := returns_pure.mp h <;> rfl
    rw [this]
    exact done (le_of_readNodeName h₂)
  | endNode =>
    simp only [returns_bind, returns_get] at h
    obtain ⟨_, _, ⟨rfl, rfl⟩, h⟩ := h
    have : it'.reader = r₁ := by
      split at h <;> simp only [returns_bind, returns_modify, returns_pure] at h <;>
        obtain ⟨_, _, rfl, -, rfl⟩ := h <;> rfl
    rw [this]
    exact done (Reader.Le.refl _)
  | fdtEnd => simp at h

theorem le_of_loop {fuel : ℕ} : ∀ {it it' : NodeIter} {x : Option Node},
    Returns (iterate (nextRound (ε := ε) yields message) fuel ()) it x it' →
    it.reader.Le it'.reader ∧ it.reader.offset < it'.reader.offset := by
  induction fuel with
  | zero => intro it it' x h; exact absurd h (by simp [iterate])
  | succ fuel ih =>
    intro it it' x h
    rcases returns_iterate_succ.mp h with ⟨_, it₁, h₁, h₂⟩ | h
    · obtain ⟨h₁, hlt⟩ := lt_of_nextRound h₁
      obtain ⟨h₂, -⟩ := ih h₂
      exact ⟨h₁.trans h₂, hlt.trans_le h₂.2⟩
    · exact lt_of_nextRound h

theorem lt_of_next {it it' : NodeIter} {n : Node}
    (h : Returns (next (ε := ε) yields message) it (some n) it') :
    it.reader.Le it'.reader ∧ it.reader.offset < it'.reader.offset := by
  rw [next, returns_bind] at h
  obtain ⟨_, _, hg, h⟩ := h
  obtain ⟨rfl, rfl⟩ := returns_get.mp hg
  split at h
  · simp at h
  · exact le_of_loop h

/-- An iterator over nodes yields no more of them than it has bytes. -/
theorem length_le_of_yields {ns : List Node} : ∀ {it : NodeIter},
    Yields (next (ε := ε) yields message) ns it →
      ns.length + it.reader.offset ≤ it.reader.bytes.length := by
  induction ns with
  | nil => intro it _; have := it.reader.offset_le; simp only [List.length_nil]; omega
  | cons n ns ih =>
    rintro it ⟨it', h₁, h₂⟩
    obtain ⟨⟨hb, -⟩, hlt⟩ := lt_of_next h₁
    have := ih h₂
    rw [hb] at this
    rw [List.length_cons]
    omega

end NodeIter

/-! ## Flattening -/

/-- The ranges in the `reg` of a child. -/
def Tree.regRanges (strings : Strings) (parent child : Tree) : List RegRange :=
  match child.property strings (ascii "reg") with
  | none => []
  | some p => regEntries (parent.childAddressing strings).layout p.value

/-- A child with a valid `reg` that consists of whole entries. -/
def Tree.RegChild (strings : Strings) (a : ChildAddressing) (c : Tree) : Prop :=
  c.Valid strings ∧ c.HasReg strings a.layout ∧ c.RegLengthOk strings a

/-- The ranges in the `reg` being read are still to come. -/
def CurrentYields (ε : Type) (as : List RegRange) : Option RegRanges → Prop
  | none => as = []
  | some ranges => Yields (RegRanges.next : Exec _ ε _) as ranges

theorem returns_nextOfCurrent {as : List RegRange} {current : Option RegRanges} (s : σ)
    (h : CurrentYields ε as current) :
    match as with
    | [] => Returns (nextOfCurrent current : Exec σ ε _) s none s
    | a :: as => ∃ ranges, Returns (nextOfCurrent current : Exec σ ε _) s (some (a, ranges)) s ∧
        CurrentYields ε as (some ranges) := by
  cases current with
  | none =>
    obtain rfl : as = [] := h
    exact returns_pure.mpr ⟨rfl, rfl⟩
  | some ranges =>
    cases as with
    | nil =>
      obtain ⟨it', h₁, -⟩ := h
      simp only [nextOfCurrent, returns_bind]
      exact ⟨_, s, advance_of_returns s h₁, returns_pure.mpr ⟨rfl, rfl⟩⟩
    | cons a as =>
      obtain ⟨it', h₁, h₂⟩ := h
      refine ⟨it', ?_, h₂⟩
      simp only [nextOfCurrent, returns_bind]
      exact ⟨_, s, advance_of_returns s h₁, returns_pure.mpr ⟨rfl, rfl⟩⟩

/-- A child with a valid `reg` has at least one range. -/
theorem Tree.RegChild.ranges {parent c : Tree}
    (hpos : (parent.childAddressing strings).layout.entrySize ≠ 0)
    (h : c.RegChild strings (parent.childAddressing strings)) :
    ∃ p a as, c.property strings (ascii "reg") = some p ∧ parent.regRanges strings c = a :: as ∧
      Yields (RegRanges.next : Exec _ ε _) (a :: as)
        ⟨p.value, (parent.childAddressing strings).layout⟩ := by
  obtain ⟨-, ⟨p, hp, hne, hok⟩, hlen⟩ := h
  have hmod := hlen p hp
  rw [if_neg hpos] at hmod
  have hy := RegRanges.yields (ε := ε) hpos hmod hok
  have hr : parent.regRanges strings c =
      regEntries (parent.childAddressing strings).layout p.value := by
    rw [Tree.regRanges, hp]
  cases hentries : regEntries (parent.childAddressing strings).layout p.value with
  | nil =>
    -- a nonempty string of whole entries has one
    have hflat := flatten_chunksExact (Nat.pos_of_ne_zero hpos) hmod
    rw [regEntries, List.map_eq_nil_iff] at hentries
    rw [hentries] at hflat
    exact absurd hflat.symm hne
  | cons a as =>
    rw [hentries] at hy
    exact ⟨p, a, as, hp, hr.trans hentries, hy⟩

theorem decides_reg {node : Node} {c : Tree} {p : Property} (h : Views strings node c)
    (hv : c.Valid strings) (hp : c.property strings (ascii "reg") = some p) (s : σ) :
    Returns (node.property (ascii "reg") : Exec σ ε _) s (some p) s :=
  (h.decides_property hv _).returns_iff.mpr ⟨hp.symm, rfl⟩

/-! ## Memory nodes -/

/-- The ranges of all memory nodes, in document order. -/
def Tree.memoryRanges (strings : Strings) (t : Tree) : List RegRange :=
  (t.children.filter fun c => decide c.IsMemory).flatMap (t.regRanges strings)

/-- The ranges in a valid `reg` are nonempty and end inside the address space. -/
theorem Tree.regRanges_bounds {parent c : Tree}
    (h : c.HasReg strings (parent.childAddressing strings).layout) :
    ∀ r ∈ parent.regRanges strings c, 0 < r.size ∧ r.address + r.size ≤ wordMax := by
  obtain ⟨p, hp, hok⟩ := h
  rw [Tree.regRanges, hp]
  exact regEntries_bounds hok

theorem Tree.SemanticsOk.memoryRanges_bounds {t : Tree} (h : t.SemanticsOk strings) :
    ∀ r ∈ t.memoryRanges strings, 0 < r.size ∧ r.address + r.size ≤ wordMax := by
  intro r hr
  obtain ⟨c, hc, hr⟩ := List.mem_flatMap.mp hr
  obtain ⟨hmem, hm⟩ := List.mem_filter.mp hc
  exact Tree.regRanges_bounds (h.memory.2.2 c hmem (by simpa using hm)).2 r hr

/-- What a memory-range iterator has still to read. -/
structure MemoryRanges.Ahead (ε : Type) (strings : Strings) (a : ChildAddressing) (it : MemoryRanges)
    (as : List RegRange) (cs : List Tree) : Prop where
  layout : it.layout = a.layout
  current : CurrentYields ε as it.current
  nodes : ∃ ns ts, Yields (Children.next : Exec _ ε _) ns it.nodes ∧
    List.Forall₂ (Views strings) ns ts ∧ cs = ts.filter (fun c => decide c.IsMemory) ∧
    ∀ c ∈ ts, c.IsMemory → c.RegChild strings a

theorem returns_memoryRanges_next {it it' : MemoryRanges} {x : Option RegRange} {k : ℕ}
    {s : MemoryRanges} (hk : k ≤ it.nodes.reader.bytes.length)
    (h : Rounds (MemoryRanges.round (ε := ε)) k () it () s)
    (h' : Returns (MemoryRanges.round (ε := ε) ()) s (.inr x) it') :
    Returns (MemoryRanges.next : Exec _ ε _) it x it' := by
  rw [MemoryRanges.next, returns_bind]
  exact ⟨it, it, returns_get.mpr ⟨rfl, rfl⟩, returns_iterate_of_rounds h h' (by omega)⟩

/-- A range of the property being read is returned at once. -/
theorem returns_memoryRanges_round_item (it : MemoryRanges) {a : RegRange} {as : List RegRange}
    (h : CurrentYields ε (a :: as) it.current) : ∃ ranges, CurrentYields ε as (some ranges) ∧
      Returns (MemoryRanges.round (ε := ε) ()) it (.inr (some a)) { it with current := some ranges } := by
  obtain ⟨ranges, h₁, h₂⟩ := returns_nextOfCurrent it h
  refine ⟨ranges, h₂, ?_⟩
  rw [MemoryRanges.round, returns_bind]
  refine ⟨it, it, returns_get.mpr ⟨rfl, rfl⟩, ?_⟩
  rw [returns_bind]
  refine ⟨_, it, h₁, ?_⟩
  simp only [returns_bind, returns_modify, returns_pure]
  exact ⟨(), _, rfl, trivial, rfl⟩

/-- At the end of a property the next memory node is looked for. -/
theorem returns_memoryRanges_round_nodes (it : MemoryRanges) {found : Option Node} {nodes : NodeIter}
    {x : Unit ⊕ Option RegRange} {it' : MemoryRanges} (h : CurrentYields ε [] it.current)
    (hfind : Returns (findNext (Children.next : Exec _ ε _) isMemoryNode
      (it.nodes.reader.bytes.length + 1)) it.nodes found nodes)
    (hrest : match found with
      | none => x = .inr none ∧ it' = { it with nodes := nodes, current := none }
      | some node => ∃ reg, (∀ s : MemoryRanges, Returns (node.property (ascii "reg") : Exec _ ε _) s
          (some reg) s) ∧ x = .inl () ∧
          it' = { it with nodes := nodes, current := some ⟨reg.value, it.layout⟩ }) :
    Returns (MemoryRanges.round (ε := ε) ()) it x it' := by
  rw [MemoryRanges.round, returns_bind]
  refine ⟨it, it, returns_get.mpr ⟨rfl, rfl⟩, ?_⟩
  rw [returns_bind]
  refine ⟨none, it, returns_nextOfCurrent it h, ?_⟩
  simp only [returns_bind, returns_modify, returns_zoom]
  refine ⟨(), _, rfl, found, _, ⟨nodes, hfind, rfl⟩, ?_⟩
  cases found with
  | none =>
    obtain ⟨rfl, rfl⟩ := hrest
    exact returns_pure.mpr ⟨rfl, rfl⟩
  | some node =>
    obtain ⟨reg, hreg, rfl, rfl⟩ := hrest
    simp only [returns_bind]
    refine ⟨some reg, _, hreg _, ?_⟩
    simp only [returns_bind, returns_modify, returns_pure]
    exact ⟨(), _, rfl, trivial, rfl⟩

theorem afterFind_forall₂ {α β : Type} {R : α → β → Prop} {p : α → Bool} {q : β → Bool}
    {as : List α} {bs : List β} (h : List.Forall₂ R as bs) (hpq : ∀ a b, R a b → p a = q b) :
    List.Forall₂ R (afterFind p as) (afterFind q bs) := by
  induction h with
  | nil => exact .nil
  | @cons a b as bs hab htail ih =>
    rw [afterFind, afterFind, hpq a b hab]
    split
    · exact htail
    · exact ih

theorem filter_eq_cons_afterFind {α : Type} {p : α → Bool} {as bs : List α} {b : α}
    (h : as.filter p = b :: bs) : as.find? p = some b ∧ (afterFind p as).filter p = bs := by
  induction as with
  | nil => simp at h
  | cons a as ih =>
    rw [List.find?_cons, afterFind]
    cases hp : p a with
    | true =>
      rw [List.filter_cons_of_pos hp] at h
      obtain ⟨rfl, rfl⟩ := List.cons.inj h
      exact ⟨rfl, rfl⟩
    | false =>
      rw [List.filter_cons_of_neg (by simp [hp])] at h
      exact ih h

theorem mem_of_mem_afterFind {α : Type} {p : α → Bool} {as : List α} {a : α}
    (h : a ∈ afterFind p as) : a ∈ as := by
  induction as with
  | nil => exact h
  | cons b as ih =>
    rw [afterFind] at h
    split at h
    · exact List.mem_cons_of_mem _ h
    · exact List.mem_cons_of_mem _ (ih h)

theorem MemoryRanges.Ahead.yields {t : Tree} (hpos : (t.childAddressing strings).layout.entrySize ≠ 0)
    {it : MemoryRanges} (as : List RegRange) {cs : List Tree}
    (h : MemoryRanges.Ahead ε strings (t.childAddressing strings) it as cs) :
    Yields (MemoryRanges.next : Exec _ ε _) (as ++ cs.flatMap (t.regRanges strings)) it := by
  have hmem : ∀ (n : Node) (c : Tree), Views strings n c → isMemoryNode n = decide c.IsMemory :=
    fun n c hview => by
      rw [Bool.eq_iff_iff, hview.isMemoryNode_iff, decide_eq_true_iff]
  refine yields_flatten (MemoryRanges.Ahead ε strings (t.childAddressing strings)) ?_ ?_ ?_ h
  · intro it a as cs h
    obtain ⟨ranges, hcur, hround⟩ := returns_memoryRanges_round_item it h.current
    exact ⟨_, returns_memoryRanges_next (Nat.zero_le _) (.zero () it) hround, h.layout, hcur, h.nodes⟩
  · intro it c cs h
    obtain ⟨ns, ts, hns, hviews, hcs, hgood⟩ := h.nodes
    have hlen := NodeIter.length_le_of_yields hns
    obtain ⟨nodes, hfind, hafter, -⟩ := Yields.findNext (p := isMemoryNode) hns
      (show ns.length < it.nodes.reader.bytes.length + 1 by omega)
    obtain ⟨hc, hcs'⟩ := filter_eq_cons_afterFind hcs.symm
    rcases find?_forall₂ hviews hmem with ⟨-, hnone⟩ | ⟨n, c', hn, hc', hview, hmemc⟩
    · rw [hnone] at hc
      cases hc
    rw [hc] at hc'
    cases hc'
    have hcm : c.IsMemory := by
      simpa using List.find?_some (p := fun c : Tree => decide c.IsMemory) hc
    have hreg := hgood c hmemc hcm
    obtain ⟨p, a, as, hp, hranges, hy⟩ := hreg.ranges (ε := ε) hpos
    rw [hn] at hfind
    have hround := returns_memoryRanges_round_nodes it h.current hfind (x := .inl ())
      ⟨p, fun s => decides_reg hview hreg.1 hp s, rfl, rfl⟩
    obtain ⟨ranges, hcur, hround'⟩ := returns_memoryRanges_round_item
      { it with nodes := nodes, current := some ⟨p.value, it.layout⟩ }
      (show CurrentYields ε (a :: as) _ by rw [h.layout]; exact hy)
    have hpos' : 1 ≤ it.nodes.reader.bytes.length := by
      cases ns with
      | nil => simp at hn
      | cons => rw [List.length_cons] at hlen; omega
    refine ⟨a, as, _, hranges, returns_memoryRanges_next hpos' (.succ hround (.zero _ _)) hround',
      h.layout, hcur, _, _, hafter, afterFind_forall₂ hviews hmem, hcs'.symm, ?_⟩
    exact fun c' hc' => hgood c' (mem_of_mem_afterFind hc')
  · intro it h
    obtain ⟨ns, ts, hns, hviews, hcs, -⟩ := h.nodes
    have hlen := NodeIter.length_le_of_yields hns
    obtain ⟨nodes, hfind, -, hfix⟩ := Yields.findNext (p := isMemoryNode) hns
      (show ns.length < it.nodes.reader.bytes.length + 1 by omega)
    have hnone : ns.find? isMemoryNode = none := by
      rcases find?_forall₂ hviews hmem with ⟨hnone, -⟩ | ⟨n, c, -, hc, -, hmemc⟩
      · exact hnone
      · have hcm := List.find?_some (p := fun c : Tree => decide c.IsMemory) hc
        have : c ∈ ts.filter (fun c => decide c.IsMemory) := List.mem_filter.mpr ⟨hmemc, hcm⟩
        rw [← hcs] at this
        simp at this
    rw [hnone] at hfind
    have hround := returns_memoryRanges_round_nodes it h.current hfind (x := .inr none) ⟨rfl, rfl⟩
    refine ⟨_, returns_memoryRanges_next (Nat.zero_le _) (.zero () it) hround, ?_⟩
    -- the node iterator stays at its end
    have hfind' : Returns (findNext (Children.next : Exec _ ε _) isMemoryNode
        (nodes.reader.bytes.length + 1)) nodes none nodes := by
      refine returns_iterate_succ.mpr (.inr ?_)
      rw [returns_bind]
      exact ⟨none, nodes, hfix hnone, returns_pure.mpr ⟨rfl, rfl⟩⟩
    have hround' := returns_memoryRanges_round_nodes (ε := ε) (x := .inr none)
      { it with nodes := nodes, current := none } rfl hfind' ⟨rfl, rfl⟩
    exact returns_memoryRanges_next (Nat.zero_le _) (.zero _ _) hround'

/-- **Memory ranges.** For a root that satisfies the rules, the iterator can be built and yields
the ranges of the memory nodes. -/
theorem yields_memoryRanges {node : Node} {t : Tree} (h : Views strings node t)
    (hv : t.Valid strings) (hok : t.SemanticsOk strings) :
    ∃ it, (∀ s : σ, Returns (MemoryRanges.new node : Exec σ ε _) s it s) ∧
      ∀ ε' : Type, Yields (MemoryRanges.next : Exec _ ε' _) (t.memoryRanges strings) it := by
  have hc := hok.addressing.cells
  have hpos := ChildAddressing.entrySize_ne_zero (a := t.childAddressing strings) hok.memory.1
  refine ⟨⟨node.children, none, (t.childAddressing strings).layout⟩, fun s => ?_, fun ε' => ?_⟩
  · simp only [MemoryRanges.new, returns_bind, returns_expect, returns_ofExcept, returns_pure]
    exact ⟨_, s, (decides_childAddressing h hv hc).returns_iff.mpr ⟨rfl, rfl⟩, _, s,
      ⟨hc.layout, rfl⟩, rfl, rfl⟩
  · obtain ⟨ns, hns, hviews⟩ := h.yields_children (ε := ε')
    refine MemoryRanges.Ahead.yields hpos [] ⟨rfl, rfl, ns, t.children, hns, hviews, rfl, ?_⟩
    intro c hmem hm
    cases hok.addressing with
    | node _ _ regs _ => exact ⟨hv.children c hmem, (hok.memory.2.2 c hmem hm).2, regs c hmem⟩

/-! ## Reserved memory -/

/-- The static reservations, in document order. -/
def Tree.reservedRanges (strings : Strings) (t : Tree) : List RegRange :=
  match t.reservedMemory with
  | none => []
  | some r => r.children.flatMap (r.regRanges strings)

theorem Tree.SemanticsOk.reservedRanges_bounds {t : Tree} (h : t.SemanticsOk strings) :
    ∀ r ∈ t.reservedRanges strings, 0 < r.size ∧ r.address + r.size ≤ wordMax := by
  intro r hr
  unfold Tree.reservedRanges at hr
  cases hm : t.reservedMemory with
  | none => rw [hm] at hr; simp at hr
  | some m =>
    rw [hm] at hr
    obtain ⟨c, hc, hr⟩ := List.mem_flatMap.mp hr
    exact Tree.regRanges_bounds ((h.reservedMemory m hm).2.2.2.2.2 c hc) r hr

/-- What an iterator over the children `cs` of the reserved-memory node has still to read. -/
structure ReservedMemoryRanges.Ahead (ε : Type) (strings : Strings) (a : ChildAddressing)
    (it : ReservedMemoryRanges) (as : List RegRange) (cs : List Tree) : Prop where
  layout : it.layout = some a.layout
  current : CurrentYields ε as it.current
  nodes : ∃ nodes ns, it.nodes = some nodes ∧ Yields (Children.next : Exec _ ε _) ns nodes ∧
    List.Forall₂ (Views strings) ns cs ∧ ∀ c ∈ cs, c.RegChild strings a

theorem returns_reservedMemoryRanges_next {it it' : ReservedMemoryRanges} {x : Option RegRange}
    {k : ℕ} {s : ReservedMemoryRanges}
    (hk : k ≤ (it.nodes.map fun n => n.reader.bytes.length).getD 0)
    (h : Rounds (ReservedMemoryRanges.round (ε := ε)) k () it () s)
    (h' : Returns (ReservedMemoryRanges.round (ε := ε) ()) s (.inr x) it') :
    Returns (ReservedMemoryRanges.next : Exec _ ε _) it x it' := by
  rw [ReservedMemoryRanges.next, returns_bind]
  exact ⟨it, it, returns_get.mpr ⟨rfl, rfl⟩, returns_iterate_of_rounds h h' (by omega)⟩

theorem returns_reservedMemoryRanges_round_item (it : ReservedMemoryRanges) {a : RegRange}
    {as : List RegRange} (h : CurrentYields ε (a :: as) it.current) :
    ∃ ranges, CurrentYields ε as (some ranges) ∧
      Returns (ReservedMemoryRanges.round (ε := ε) ()) it (.inr (some a))
        { it with current := some ranges } := by
  obtain ⟨ranges, h₁, h₂⟩ := returns_nextOfCurrent it h
  refine ⟨ranges, h₂, ?_⟩
  rw [ReservedMemoryRanges.round, returns_bind]
  refine ⟨it, it, returns_get.mpr ⟨rfl, rfl⟩, ?_⟩
  rw [returns_bind]
  refine ⟨_, it, h₁, ?_⟩
  simp only [returns_bind, returns_modify, returns_pure]
  exact ⟨(), _, rfl, trivial, rfl⟩

/-- Without a reserved-memory node the iterator is at its end. -/
theorem returns_reservedMemoryRanges_round_absent {it : ReservedMemoryRanges}
    (h : CurrentYields ε [] it.current) (hnodes : it.nodes = none) :
    Returns (ReservedMemoryRanges.round (ε := ε) ()) it (.inr none) { it with current := none } := by
  rw [ReservedMemoryRanges.round, returns_bind]
  refine ⟨it, it, returns_get.mpr ⟨rfl, rfl⟩, ?_⟩
  rw [returns_bind]
  refine ⟨none, it, returns_nextOfCurrent it h, ?_⟩
  simp only [returns_bind, returns_modify, hnodes]
  exact ⟨(), _, rfl, returns_pure.mpr ⟨rfl, by simp⟩⟩

/-- At the end of a property the next child is read. -/
theorem returns_reservedMemoryRanges_round_nodes (it : ReservedMemoryRanges) {found : Option Node}
    {nodes nodes' : NodeIter} {x : Unit ⊕ Option RegRange} {it' : ReservedMemoryRanges}
    (h : CurrentYields ε [] it.current) (hnodes : it.nodes = some nodes)
    (hnext : Returns (Children.next : Exec _ ε _) nodes found nodes')
    (hrest : match found with
      | none => x = .inr none ∧ it' = { it with nodes := some nodes', current := none }
      | some node => ∃ reg layout, it.layout = some layout ∧
          (∀ s : ReservedMemoryRanges, Returns (node.property (ascii "reg") : Exec _ ε _) s
            (some reg) s) ∧ x = .inl () ∧
          it' = { it with nodes := some nodes', current := some ⟨reg.value, layout⟩ }) :
    Returns (ReservedMemoryRanges.round (ε := ε) ()) it x it' := by
  rw [ReservedMemoryRanges.round, returns_bind]
  refine ⟨it, it, returns_get.mpr ⟨rfl, rfl⟩, ?_⟩
  rw [returns_bind]
  refine ⟨none, it, returns_nextOfCurrent it h, ?_⟩
  simp only [returns_bind, returns_modify, hnodes]
  refine ⟨(), _, rfl, (found, nodes'), _, advance_of_returns _ hnext, (), _, rfl, ?_⟩
  cases found with
  | none =>
    obtain ⟨rfl, rfl⟩ := hrest
    exact returns_pure.mpr ⟨rfl, rfl⟩
  | some node =>
    obtain ⟨reg, layout, hlayout, hreg, rfl, rfl⟩ := hrest
    simp only [returns_bind]
    refine ⟨some reg, _, hreg _, ?_⟩
    simp only [hlayout, returns_bind, returns_modify, returns_pure]
    exact ⟨(), _, rfl, trivial, by simp⟩

theorem ReservedMemoryRanges.Ahead.yields {t : Tree}
    (hpos : (t.childAddressing strings).layout.entrySize ≠ 0) {it : ReservedMemoryRanges}
    (as : List RegRange) {cs : List Tree}
    (h : ReservedMemoryRanges.Ahead ε strings (t.childAddressing strings) it as cs) :
    Yields (ReservedMemoryRanges.next : Exec _ ε _) (as ++ cs.flatMap (t.regRanges strings)) it := by
  refine yields_flatten (ReservedMemoryRanges.Ahead ε strings (t.childAddressing strings)) ?_ ?_ ?_ h
  · intro it a as cs h
    obtain ⟨ranges, hcur, hround⟩ := returns_reservedMemoryRanges_round_item it h.current
    exact ⟨_, returns_reservedMemoryRanges_next (Nat.zero_le _) (.zero () it) hround, h.layout, hcur,
      h.nodes⟩
  · intro it c cs h
    obtain ⟨nodes, ns, hnodes, hns, hviews, hgood⟩ := h.nodes
    have hlen := NodeIter.length_le_of_yields hns
    cases hviews with
    | @cons n _ ns _ hview htail =>
      obtain ⟨nodes', hnext, hns'⟩ := hns
      have hreg := hgood c List.mem_cons_self
      obtain ⟨p, a, as, hp, hranges, hy⟩ := hreg.ranges (ε := ε) hpos
      have hround := returns_reservedMemoryRanges_round_nodes it h.current hnodes hnext (x := .inl ())
        ⟨p, _, h.layout, fun s => decides_reg hview hreg.1 hp s, rfl, rfl⟩
      obtain ⟨ranges, hcur, hround'⟩ := returns_reservedMemoryRanges_round_item
        { it with
          nodes := some nodes', current := some ⟨p.value, (t.childAddressing strings).layout⟩ }
        (show CurrentYields ε (a :: as) _ from hy)
      have hpos' : 1 ≤ (it.nodes.map fun n => n.reader.bytes.length).getD 0 := by
        rw [hnodes, Option.map_some, Option.getD_some]
        rw [List.length_cons] at hlen
        omega
      exact ⟨a, as, _, hranges,
        returns_reservedMemoryRanges_next hpos' (.succ hround (.zero _ _)) hround', h.layout, hcur,
        nodes', ns, rfl, hns', htail, fun c' hc' => hgood c' (List.mem_cons_of_mem _ hc')⟩
  · intro it h
    obtain ⟨nodes, ns, hnodes, hns, hviews, -⟩ := h.nodes
    cases hviews with
    | nil =>
      obtain ⟨nodes', hnext, hfix⟩ := hns
      have hround := returns_reservedMemoryRanges_round_nodes it h.current hnodes hnext (x := .inr none)
        ⟨rfl, rfl⟩
      have hround' := returns_reservedMemoryRanges_round_nodes (ε := ε) (x := .inr none)
        { it with nodes := some nodes', current := none } rfl rfl hfix ⟨rfl, rfl⟩
      exact ⟨_, returns_reservedMemoryRanges_next (Nat.zero_le _) (.zero () it) hround,
        returns_reservedMemoryRanges_next (Nat.zero_le _) (.zero _ _) hround'⟩

/-- **Reserved ranges.** For a root that satisfies the rules, the iterator can be built and yields
the static reservations. -/
theorem yields_reservedMemoryRanges {node : Node} {t : Tree} (h : Views strings node t)
    (hv : t.Valid strings) (hok : t.SemanticsOk strings) :
    ∃ it, (∀ s : σ, Returns (ReservedMemoryRanges.new node : Exec σ ε _) s it s) ∧
      Yields (ReservedMemoryRanges.next : Exec _ ε _) (t.reservedRanges strings) it := by
  unfold Tree.reservedRanges Tree.reservedMemory
  rcases h.decides_child (σ := σ) (ε := ε) (ascii "reserved-memory") with
    ⟨hd, hnone⟩ | ⟨n, r, hd, hsome, hview, hmem⟩
  · rw [hnone]
    refine ⟨⟨none, none, none⟩, fun s => ?_, ?_⟩
    · rw [ReservedMemoryRanges.new, returns_bind]
      exact ⟨none, s, hd.returns_iff.mpr ⟨rfl, rfl⟩, returns_pure.mpr ⟨rfl, rfl⟩⟩
    · have hnext : Returns (ReservedMemoryRanges.next : Exec _ ε _) ⟨none, none, none⟩ none
          ⟨none, none, none⟩ :=
        returns_reservedMemoryRanges_next (Nat.zero_le _) (.zero _ _)
          (returns_reservedMemoryRanges_round_absent rfl rfl)
      exact ⟨_, hnext, hnext⟩
  · rw [hsome]
    have hvr := hv.children r hmem
    have ha := hok.addressing.child hmem
    have hrules := hok.reservedMemory r hsome
    obtain ⟨ns, hns, hviews⟩ := hview.yields_children (ε := ε)
    have hpos := ChildAddressing.entrySize_ne_zero (a := r.childAddressing strings) hrules.2.2.2.1
    refine ⟨⟨some n.children, none, some (r.childAddressing strings).layout⟩, fun s => ?_,
      ReservedMemoryRanges.Ahead.yields hpos []
        ⟨rfl, rfl, n.children, ns, rfl, hns, hviews, fun c hc => ?_⟩⟩
    · rw [ReservedMemoryRanges.new, returns_bind]
      refine ⟨some n, s, hd.returns_iff.mpr ⟨rfl, rfl⟩, ?_⟩
      simp only [returns_bind, returns_expect, returns_ofExcept, returns_pure]
      exact ⟨_, s, (decides_childAddressing hview hvr ha.cells).returns_iff.mpr ⟨rfl, rfl⟩, _, s,
        ⟨ha.cells.layout, rfl⟩, rfl, rfl⟩
    · cases ha with
      | node _ _ regs _ => exact ⟨hvr.children c hc, hrules.2.2.2.2.2 c hc, regs c hc⟩

/-! ## How many ranges there are -/

/-- The length of the value of a property, and nothing for the other symbols. -/
def Symbol.valueLength : Symbol → ℕ
  | .property p => p.value.length
  | _ => 0

/-- The lengths of all property values in a sequence of symbols, added up. -/
def valuesLength (ys : List Symbol) : ℕ := (ys.map Symbol.valueLength).sum

@[simp] theorem valuesLength_append (ys zs : List Symbol) :
    valuesLength (ys ++ zs) = valuesLength ys + valuesLength zs := by
  simp [valuesLength]

theorem valuesLength_le_encodeAll (ls : List Lexeme) :
    valuesLength (symbols ls) ≤ (encodeAll ls).length := by
  induction ls with
  | nil => simp [valuesLength, symbols]
  | cons l ls ih =>
    rw [encodeAll_cons, List.length_append]
    cases l with
    | property nameOffset value pad =>
      rw [symbols_cons (y := .property ⟨nameOffset, value⟩) rfl]
      simp only [valuesLength, List.map_cons, List.sum_cons, Symbol.valueLength, Lexeme.encode,
        List.length_append] at ih ⊢
      omega
    | _ =>
      simp only [valuesLength, symbols, Lexeme.symbol, List.filterMap_cons, List.map_cons,
        List.sum_cons, Symbol.valueLength] at ih ⊢
      omega

theorem valuesLength_forest (f : Tree → ℕ) (h : ∀ t, f t ≤ valuesLength t.symbols)
    (ts : List Tree) : (ts.map f).sum ≤ valuesLength (Tree.forest ts) := by
  induction ts with
  | nil => simp
  | cons t ts ih =>
    have := h t
    rw [Tree.forest, valuesLength_append, List.map_cons, List.sum_cons]
    omega

theorem Tree.forest_children_le (t : Tree) :
    valuesLength (Tree.forest t.children) ≤ valuesLength t.symbols := by
  rw [t.symbols_eq, Tree.body]
  simp only [valuesLength, List.map_cons, List.map_append, List.sum_cons, List.sum_append]
  omega

theorem Tree.length_regRanges_le (parent c : Tree) :
    (parent.regRanges strings c).length ≤ valuesLength c.symbols := by
  rw [Tree.regRanges]
  cases hp : c.property strings (ascii "reg") with
  | none => exact Nat.zero_le _
  | some p =>
    obtain ⟨q, hq, rfl⟩ := List.mem_map.mp (List.mem_of_find?_eq_some hp)
    have hle : q.value.length ≤ valuesLength (c.properties.map .property) :=
      List.le_sum_of_mem (List.mem_map.mpr ⟨_, List.mem_map.mpr ⟨q, hq, rfl⟩, rfl⟩)
    have hchunks : (chunksExact (parent.childAddressing strings).layout.entrySize q.value).length ≤
        q.value.length := by
      simpa [chunksExact] using Nat.div_le_self _ _
    rw [c.symbols_eq, Tree.body]
    simp only [valuesLength, List.map_cons, List.map_append, List.sum_cons, List.sum_append,
      regEntries, List.length_map, PropertyEntry.resolve] at hle hchunks ⊢
    omega

/-- There are no more ranges in the children of a node than bytes in their properties. -/
theorem Tree.length_flatMap_regRanges_le (parent t : Tree) (p : Tree → Bool) :
    ((t.children.filter p).flatMap (parent.regRanges strings)).length ≤ valuesLength t.symbols := by
  rw [List.length_flatMap]
  calc ((t.children.filter p).map fun c => (parent.regRanges strings c).length).sum
      ≤ (t.children.map fun c => (parent.regRanges strings c).length).sum :=
        (List.filter_sublist.map _).sum_le_sum (by simp)
    _ ≤ valuesLength (Tree.forest t.children) :=
        valuesLength_forest _ (Tree.length_regRanges_le parent) _
    _ ≤ valuesLength t.symbols := t.forest_children_le

theorem Tree.length_memoryRanges_le (t : Tree) :
    (t.memoryRanges strings).length ≤ valuesLength t.symbols :=
  t.length_flatMap_regRanges_le t _

theorem Tree.length_reservedRanges_le (t : Tree) :
    (t.reservedRanges strings).length ≤ valuesLength t.symbols := by
  rw [Tree.reservedRanges]
  cases hm : t.reservedMemory with
  | none => exact Nat.zero_le _
  | some m =>
    have hle : valuesLength m.symbols ≤ valuesLength t.symbols :=
      (List.le_sum_of_mem (List.mem_map.mpr ⟨m, List.mem_of_find?_eq_some hm, rfl⟩)).trans
        ((valuesLength_forest _ (fun _ => le_rfl) _).trans t.forest_children_le)
    have hall : ((m.children.filter fun _ => true).flatMap (m.regRanges strings)).length ≤
        valuesLength m.symbols := m.length_flatMap_regRanges_le m _
    rw [List.filter_true] at hall
    exact hall.trans hle

end Barebone.Devicetree

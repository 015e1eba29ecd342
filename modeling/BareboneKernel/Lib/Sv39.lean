import Mathlib.Tactic.Common
import Mathlib.Tactic.Ring
import Mathlib.Data.Set.Insert
import Mathlib.Order.CompletePartialOrder

/-!
# Sv39 translation

The page tables of a machine are read as a function `e : Entries`: `e t i` is entry `i` of the table
in frame `t`. Translation acts on virtual page numbers.

* `walk e root v`: the three-level walk, with leaves at every level;
* `tableAt e root p`: the frame of the table at a place `p` of the hierarchy;
* `WellFormed e root`: no two places share a frame;
* `Extends e e' root`: no entry in use is changed, so **`Extends.walk`** no translation is lost;
* **`Link.walk_eq`**: linking an empty table into an empty entry changes no translation;
* **`walk_setLeaf`**: writing an entry of a last-level table changes one translation.
-/

set_option autoImplicit false

namespace Sv39

/-- Entry `i` of the page table in frame `t`, for all `t` and `i`. -/
abbrev Entries := ℕ → Fin 512 → ℕ

instance neZero_entries : NeZero 512 := ⟨by decide⟩

/-- A virtual page number, by its three table indices. -/
structure Vpn where
  vpn2 : Fin 512
  vpn1 : Fin 512
  vpn0 : Fin 512
  deriving DecidableEq

/-- What a page is translated to. -/
structure Leaf where
  frame : ℕ
  read : Bool
  write : Bool
  execute : Bool
  user : Bool
  accessed : Bool
  dirty : Bool
  deriving DecidableEq

/-- The page number in an entry. -/
def ppn (entry : ℕ) : ℕ := entry / 2 ^ 10 % 2 ^ 44

inductive Kind where
  | invalid
  | pointer (table : ℕ)
  | leaf
  deriving DecidableEq

/-- An entry is invalid without its valid bit or when it is writable but not readable; it points to
a table when it grants no access at all. -/
def kind (entry : ℕ) : Kind :=
  if entry &&& 1 = 0 then .invalid
  else if entry &&& 0xe = 0 then .pointer (ppn entry)
  else if entry &&& 2 = 0 ∧ entry &&& 4 ≠ 0 then .invalid
  else .leaf

@[simp] theorem kind_zero : kind 0 = .invalid := rfl

/-- The access bits of a leaf entry. -/
def leafOf (entry frame : ℕ) : Leaf :=
  ⟨frame, entry.testBit 1, entry.testBit 2, entry.testBit 3, entry.testBit 4, entry.testBit 6,
    entry.testBit 7⟩

/-- **The walk.** A leaf above the last level must be aligned to the size it maps. -/
def walk (e : Entries) (root : ℕ) (v : Vpn) : Option Leaf :=
  match kind (e root v.vpn2) with
  | .invalid => none
  | .leaf =>
    if ppn (e root v.vpn2) % 2 ^ 18 = 0 then
      some (leafOf (e root v.vpn2) (ppn (e root v.vpn2) + v.vpn1 * 2 ^ 9 + v.vpn0))
    else none
  | .pointer t₁ =>
    match kind (e t₁ v.vpn1) with
    | .invalid => none
    | .leaf =>
      if ppn (e t₁ v.vpn1) % 2 ^ 9 = 0 then
        some (leafOf (e t₁ v.vpn1) (ppn (e t₁ v.vpn1) + v.vpn0))
      else none
    | .pointer t₀ =>
      match kind (e t₀ v.vpn0) with
      | .leaf => some (leafOf (e t₀ v.vpn0) (ppn (e t₀ v.vpn0)))
      | _ => none

/-! ## Places of tables -/

/-- The table an entry points to. -/
def child (e : Entries) (t : ℕ) (i : Fin 512) : Option ℕ :=
  match kind (e t i) with
  | .pointer t' => some t'
  | _ => none

/-- The place of a table in the hierarchy. -/
inductive Path where
  | root
  | level1 (i : Fin 512)
  | level0 (i j : Fin 512)
  deriving DecidableEq

/-- The place below entry `i` of the table at a place. -/
def Path.child : Path → Fin 512 → Option Path
  | .root, i => some (.level1 i)
  | .level1 i, j => some (.level0 i j)
  | .level0 _ _, _ => none

/-- The frame of the table at a place, if there is one. -/
def tableAt (e : Entries) (root : ℕ) : Path → Option ℕ
  | .root => some root
  | .level1 i => child e root i
  | .level0 i j => (child e root i).bind fun t => child e t j

/-- The frames of all tables. -/
def tables (e : Entries) (root : ℕ) : Set ℕ := {t | ∃ p, tableAt e root p = some t}

/-- Every table has a frame of its own. -/
def WellFormed (e : Entries) (root : ℕ) : Prop :=
  ∀ p q t, tableAt e root p = some t → tableAt e root q = some t → p = q

theorem child_eq_some {e : Entries} {t t' : ℕ} {i : Fin 512} :
    child e t i = some t' ↔ kind (e t i) = .pointer t' := by
  unfold child
  split <;> simp_all

theorem child_congr {e e' : Entries} {t : ℕ} {i : Fin 512} (h : e' t i = e t i) :
    child e' t i = child e t i := by
  rw [child, h, child]

theorem mem_tables_root (e : Entries) (root : ℕ) : root ∈ tables e root := ⟨.root, rfl⟩

theorem mem_tables {e : Entries} {root t : ℕ} {p : Path} (h : tableAt e root p = some t) :
    t ∈ tables e root := ⟨p, h⟩

theorem tableAt_level0 {e : Entries} {root t₁ : ℕ} {i : Fin 512}
    (h : tableAt e root (.level1 i) = some t₁) (j : Fin 512) :
    tableAt e root (.level0 i j) = child e t₁ j := by
  have h' : child e root i = some t₁ := h
  rw [tableAt, h', Option.bind_some]

theorem tableAt_child {e : Entries} {root t : ℕ} {p q : Path} {i : Fin 512}
    (hp : tableAt e root p = some t) (hq : p.child i = some q) :
    tableAt e root q = child e t i := by
  cases p with
  | root =>
    obtain rfl : root = t := Option.some.inj hp
    obtain rfl : Path.level1 i = q := Option.some.inj hq
    rfl
  | level1 a =>
    obtain rfl : Path.level0 a i = q := Option.some.inj hq
    exact tableAt_level0 hp i
  | level0 a b => cases hq

/-- The walk reads one entry of each table on its way. -/
theorem walk_congr {e e' : Entries} {root : ℕ} {v : Vpn} (h₂ : e' root v.vpn2 = e root v.vpn2)
    (h₁ : ∀ t, tableAt e root (.level1 v.vpn2) = some t → e' t v.vpn1 = e t v.vpn1)
    (h₀ : ∀ t, tableAt e root (.level0 v.vpn2 v.vpn1) = some t → e' t v.vpn0 = e t v.vpn0) :
    walk e' root v = walk e root v := by
  unfold walk
  rw [h₂]
  cases hk₂ : kind (e root v.vpn2) with
  | invalid => rfl
  | leaf => rfl
  | pointer t₁ =>
    have ht₁ : tableAt e root (.level1 v.vpn2) = some t₁ := child_eq_some.mpr hk₂
    dsimp only
    rw [h₁ t₁ ht₁]
    cases hk₁ : kind (e t₁ v.vpn1) with
    | invalid => rfl
    | leaf => rfl
    | pointer t₀ =>
      have ht₀ : tableAt e root (.level0 v.vpn2 v.vpn1) = some t₀ := by
        rw [tableAt_level0 ht₁, child_eq_some, hk₁]
      dsimp only
      rw [h₀ t₀ ht₀]

/-- Entries outside the tables do not matter. -/
theorem tableAt_congr {e e' : Entries} {root : ℕ} (h : ∀ t ∈ tables e root, e' t = e t) :
    tableAt e' root = tableAt e root := by
  funext p
  have hroot := h root (mem_tables_root e root)
  cases p with
  | root => rfl
  | level1 i => exact child_congr (congrFun hroot i)
  | level0 i j =>
    have hi : child e' root i = child e root i := child_congr (congrFun hroot i)
    rw [tableAt, tableAt, hi]
    cases hc : child e root i with
    | none => rfl
    | some t =>
      exact child_congr (congrFun (h t (mem_tables (p := .level1 i) hc)) j)

theorem walk_eq_of_tables {e e' : Entries} {root : ℕ} (h : ∀ t ∈ tables e root, e' t = e t) :
    walk e' root = walk e root := by
  funext v
  exact walk_congr (congrFun (h root (mem_tables_root e root)) _)
    (fun t ht => congrFun (h t (mem_tables ht)) _) fun t ht => congrFun (h t (mem_tables ht)) _

theorem WellFormed.congr {e e' : Entries} {root : ℕ} (h : WellFormed e root)
    (heq : tableAt e' root = tableAt e root) : WellFormed e' root := by
  intro p q t hp hq
  rw [heq] at hp hq
  exact h p q t hp hq

/-- Entries above the last level point to tables and entries at the last level are leaves. -/
def Clean (e : Entries) (root : ℕ) : Prop :=
  ∀ p t i, tableAt e root p = some t → e t i = 0 ∨
    (p.child i ≠ none ∧ ∃ c, kind (e t i) = .pointer c) ∨ (p.child i = none ∧ kind (e t i) = .leaf)

theorem Clean.congr {e e' : Entries} {root : ℕ} (h : Clean e root)
    (heq : ∀ t ∈ tables e root, e' t = e t) : Clean e' root := by
  intro p t i hp
  rw [tableAt_congr heq] at hp
  rw [heq t (mem_tables hp)]
  exact h p t i hp

theorem lt_of_kind_pointer {entry t : ℕ} (h : kind entry = .pointer t) : t < 2 ^ 44 := by
  unfold kind at h
  split at h
  · cases h
  · split at h
    · cases h
      exact Nat.mod_lt _ (by decide)
    · split at h <;> cases h

/-- The number of a table below the root fits an entry. -/
theorem lt_of_mem_tables {e : Entries} {root t : ℕ} (hroot : root < 2 ^ 44)
    (ht : t ∈ tables e root) : t < 2 ^ 44 := by
  obtain ⟨p, hp⟩ := ht
  cases p with
  | root => exact Option.some.inj hp ▸ hroot
  | level1 i => exact lt_of_kind_pointer (child_eq_some.mp hp)
  | level0 i j =>
    obtain ⟨t₁, -, h₁⟩ := Option.bind_eq_some_iff.mp hp
    exact lt_of_kind_pointer (child_eq_some.mp h₁)

section Empty

variable {e : Entries} {root : ℕ}

theorem child_of_zero {t : ℕ} {i : Fin 512} (h : e t i = 0) : child e t i = none := by
  rw [child, h, kind_zero]

/-- A root that points to no table is the only one. -/
theorem tableAt_of_childless (h : ∀ i, child e root i = none) {p : Path} {t : ℕ}
    (hp : tableAt e root p = some t) : p = .root ∧ t = root := by
  cases p with
  | root => exact ⟨rfl, (Option.some.inj hp).symm⟩
  | level1 i => rw [tableAt, h] at hp; cases hp
  | level0 i j => rw [tableAt, h] at hp; cases hp

theorem tables_of_childless (h : ∀ i, child e root i = none) : tables e root ⊆ {root} := by
  rintro t ⟨p, hp⟩
  exact (tableAt_of_childless h hp).2

theorem tableAt_of_empty (h : ∀ i, e root i = 0) {p : Path} {t : ℕ}
    (hp : tableAt e root p = some t) : p = .root ∧ t = root :=
  tableAt_of_childless (fun i => child_of_zero (h i)) hp

theorem tables_of_empty (h : ∀ i, e root i = 0) : tables e root ⊆ {root} :=
  tables_of_childless fun i => child_of_zero (h i)

theorem wellFormed_of_empty (h : ∀ i, e root i = 0) : WellFormed e root := fun _ _ _ hp hq =>
  (tableAt_of_empty h hp).1.trans (tableAt_of_empty h hq).1.symm

theorem clean_of_empty (h : ∀ i, e root i = 0) : Clean e root := fun _ _ i hp =>
  .inl (by rw [(tableAt_of_empty h hp).2, h])

theorem walk_of_empty (h : ∀ i, e root i = 0) (v : Vpn) : walk e root v = none := by
  rw [walk, h, kind_zero]

end Empty

/-! ## Growing tables -/

/-- The entries in use are the same, the tables may have grown. -/
def Extends (e e' : Entries) (root : ℕ) : Prop :=
  ∀ t ∈ tables e root, ∀ i, e t i ≠ 0 → e' t i = e t i

section Extends

variable {e e' e'' : Entries} {root t : ℕ} {p : Path} {v : Vpn}

theorem Extends.refl (e : Entries) (root : ℕ) : Extends e e root := fun _ _ _ _ => rfl

theorem Extends.kind_eq (h : Extends e e' root) (ht : t ∈ tables e root) {i : Fin 512}
    (hk : kind (e t i) ≠ .invalid) : e' t i = e t i :=
  h t ht i fun h0 => hk (by rw [h0, kind_zero])

theorem Extends.child (h : Extends e e' root) (ht : t ∈ tables e root) {i : Fin 512} {c : ℕ}
    (hc : child e t i = some c) : Sv39.child e' t i = some c := by
  have hk := child_eq_some.mp hc
  rw [child_congr (h.kind_eq ht (by simp [hk])), hc]

theorem Extends.tableAt (h : Extends e e' root) (ht : tableAt e root p = some t) :
    Sv39.tableAt e' root p = some t := by
  have hroot := mem_tables_root e root
  cases p with
  | root => exact ht
  | level1 i => exact h.child hroot ht
  | level0 i j =>
    cases hc : Sv39.child e root i with
    | none => rw [Sv39.tableAt, hc] at ht; cases ht
    | some t₁ =>
      have ht₁ : Sv39.tableAt e root (.level1 i) = some t₁ := hc
      rw [tableAt_level0 ht₁] at ht
      have ht₁' : Sv39.tableAt e' root (.level1 i) = some t₁ := h.child hroot hc
      rw [tableAt_level0 ht₁']
      exact h.child (mem_tables ht₁) ht

theorem Extends.tables_subset (h : Extends e e' root) : tables e root ⊆ tables e' root := by
  rintro t ⟨p, hp⟩
  exact ⟨p, h.tableAt hp⟩

theorem Extends.trans (h : Extends e e' root) (h' : Extends e' e'' root) :
    Extends e e'' root := by
  intro t ht i hi
  have hstep := h t ht i hi
  rw [← hstep] at hi ⊢
  exact h' t (h.tables_subset ht) i hi

/-- **Translations stay** as tables grow. -/
theorem Extends.walk (h : Extends e e' root) {leaf : Leaf} (hw : walk e root v = some leaf) :
    Sv39.walk e' root v = some leaf := by
  have hroot := mem_tables_root e root
  cases hk₂ : kind (e root v.vpn2) with
  | invalid => simp [Sv39.walk, hk₂] at hw
  | leaf =>
    have h₂ : e' root v.vpn2 = e root v.vpn2 := h.kind_eq hroot (by simp [hk₂])
    rw [← hw, Sv39.walk, Sv39.walk, h₂, hk₂]
  | pointer t₁ =>
    have h₂ : e' root v.vpn2 = e root v.vpn2 := h.kind_eq hroot (by simp [hk₂])
    have ht₁ : Sv39.tableAt e root (.level1 v.vpn2) = some t₁ := child_eq_some.mpr hk₂
    have hmem₁ := mem_tables ht₁
    cases hk₁ : kind (e t₁ v.vpn1) with
    | invalid => simp [Sv39.walk, hk₂, hk₁] at hw
    | leaf =>
      have h₁ : e' t₁ v.vpn1 = e t₁ v.vpn1 := h.kind_eq hmem₁ (by simp [hk₁])
      rw [← hw]
      simp only [Sv39.walk, h₂, hk₂, h₁, hk₁]
    | pointer t₀ =>
      have h₁ : e' t₁ v.vpn1 = e t₁ v.vpn1 := h.kind_eq hmem₁ (by simp [hk₁])
      have ht₀ : Sv39.tableAt e root (.level0 v.vpn2 v.vpn1) = some t₀ := by
        rw [tableAt_level0 ht₁, child_eq_some, hk₁]
      have hvalid : kind (e t₀ v.vpn0) ≠ .invalid := by
        intro hk₀
        simp [Sv39.walk, hk₂, hk₁, hk₀] at hw
      have h₀ : e' t₀ v.vpn0 = e t₀ v.vpn0 := h.kind_eq (mem_tables ht₀) hvalid
      rw [← hw]
      simp only [Sv39.walk, h₂, hk₂, h₁, hk₁, h₀]

end Extends

/-! ## Changing entries -/

/-- Write one entry. -/
def setEntry (e : Entries) (t : ℕ) (i : Fin 512) (entry : ℕ) : Entries := fun t' i' =>
  if t' = t ∧ i' = i then entry else e t' i'

/-- Clear a frame. -/
def clear (e : Entries) (c : ℕ) : Entries := fun t i => if t = c then 0 else e t i

section Change

variable {e : Entries} {root t c entry : ℕ} {i : Fin 512}

@[simp] theorem setEntry_self : setEntry e t i entry t i = entry := by simp [setEntry]

theorem setEntry_of_ne {t' : ℕ} (h : t' ≠ t) : setEntry e t i entry t' = e t' := by
  funext j
  simp [setEntry, h]

theorem setEntry_of_ne_index {j : Fin 512} (h : j ≠ i) : setEntry e t i entry t j = e t j := by
  simp [setEntry, h]

theorem clear_of_ne {t' : ℕ} (h : t' ≠ c) : clear e c t' = e t' := by
  funext j
  simp [clear, h]

theorem extends_setEntry (h : e t i = 0) : Extends e (setEntry e t i entry) root := by
  intro t' _ j hj
  by_cases heq : t' = t ∧ j = i
  · obtain ⟨rfl, rfl⟩ := heq
    exact absurd h hj
  · rw [setEntry, if_neg heq]

theorem tableAt_clear (h : c ∉ tables e root) : tableAt (clear e c) root = tableAt e root :=
  tableAt_congr fun _ ht => clear_of_ne fun heq => h (heq ▸ ht)

theorem ne_of_path {p q : Path} {t' : ℕ} (hwf : WellFormed e root) (hp : tableAt e root p = some t)
    (hq : tableAt e root q = some t') (hne : p ≠ q) : t' ≠ t := by
  rintro rfl
  exact hne (hwf p q t' hp hq)

/-- The empty table `c` can be linked at place `q` by an entry of the table `t` at place `p`. -/
structure Link (e : Entries) (root t : ℕ) (i : Fin 512) (c entry : ℕ) (p q : Path) : Prop where
  wellFormed : WellFormed e root
  parent : tableAt e root p = some t
  below : p.child i = some q
  empty : kind (e t i) = .invalid
  new : c ∉ tables e root
  zero : ∀ j, e c j = 0
  entry : kind entry = .pointer c

section Link

variable {p q : Path}

/-- The place of a table that is linked into an empty entry. -/
theorem Link.tableAt_eq (h : Link e root t i c entry p q) :
    tableAt (setEntry e t i entry) root = Function.update (tableAt e root) q (some c) := by
  obtain ⟨hwf, hp, hq, hempty, hc, hzero, hentry⟩ := h
  have hct : c ≠ t := fun h => hc (h ▸ mem_tables hp)
  have hself : child (setEntry e t i entry) t i = some c := by
    rw [child_eq_some, setEntry_self, hentry]
  have hold : child e t i = none := by rw [child, hempty]
  have hbelow : ∀ k, child (setEntry e t i entry) c k = none := fun k => by
    rw [child, setEntry_of_ne hct, hzero]
    rfl
  funext r
  cases p with
  | root =>
    obtain rfl : root = t := Option.some.inj hp
    obtain rfl : Path.level1 i = q := Option.some.inj hq
    cases r with
    | root => rfl
    | level1 j =>
      by_cases hj : j = i
      · rw [hj, Function.update_self]
        exact hself
      · rw [Function.update_of_ne (by simpa using hj)]
        exact child_congr (setEntry_of_ne_index hj)
    | level0 j k =>
      rw [Function.update_of_ne (by simp), tableAt, tableAt]
      by_cases hj : j = i
      · rw [hj, hself, hold, Option.bind_some, hbelow, Option.bind_none]
      · rw [child_congr (setEntry_of_ne_index hj)]
        cases hchild : child e root j with
        | none => rfl
        | some t₁ =>
          have hne : t₁ ≠ root := ne_of_path hwf hp (q := .level1 j) hchild (by simp)
          exact child_congr (congrFun (setEntry_of_ne hne) k)
  | level1 a =>
    obtain rfl : Path.level0 a i = q := Option.some.inj hq
    have hroot : root ≠ t := ne_of_path hwf hp (q := .root) rfl (by simp)
    have hchild : ∀ j, child (setEntry e t i entry) root j = child e root j := fun j =>
      child_congr (congrFun (setEntry_of_ne hroot) j)
    cases r with
    | root => rfl
    | level1 j =>
      rw [Function.update_of_ne (by simp)]
      exact hchild j
    | level0 j k =>
      rw [tableAt, hchild]
      by_cases hj : j = a
      · subst hj
        have hp' : child e root j = some t := hp
        rw [hp', Option.bind_some]
        by_cases hk : k = i
        · rw [hk, Function.update_self]
          exact hself
        · rw [Function.update_of_ne (by simpa using hk), tableAt, hp', Option.bind_some]
          exact child_congr (setEntry_of_ne_index hk)
      · rw [Function.update_of_ne (by simp [hj]), tableAt]
        cases hc₁ : child e root j with
        | none => rfl
        | some t₁ =>
          have hne : t₁ ≠ t := ne_of_path hwf hp (q := .level1 j) hc₁ (by simpa using Ne.symm hj)
          exact child_congr (congrFun (setEntry_of_ne hne) k)
  | level0 a b => cases hq

theorem Link.tables_subset (h : Link e root t i c entry p q) :
    tables (setEntry e t i entry) root ⊆ insert c (tables e root) := by
  rintro t' ⟨r, hr⟩
  rw [h.tableAt_eq] at hr
  by_cases hrq : r = q
  · rw [hrq, Function.update_self] at hr
    exact .inl (Option.some.inj hr).symm
  · rw [Function.update_of_ne hrq] at hr
    exact .inr (mem_tables hr)

/-- **Linking** an empty table into an empty entry changes no translation. -/
theorem Link.walk_eq (h : Link e root t i c entry p q) :
    walk (setEntry e t i entry) root = walk e root := by
  obtain ⟨hwf, hp, hq, hempty, hc, hzero, hentry⟩ := h
  have hct : c ≠ t := fun h => hc (h ▸ mem_tables hp)
  have hbelow : ∀ k, kind (setEntry e t i entry c k) = .invalid := fun k => by
    rw [setEntry_of_ne hct, hzero, kind_zero]
  have hother : ∀ {r t'}, tableAt e root r = some t' → p ≠ r →
      setEntry e t i entry t' = e t' := fun hr hne => setEntry_of_ne (ne_of_path hwf hp hr hne)
  funext v
  cases p with
  | root =>
    obtain rfl : root = t := Option.some.inj hp
    by_cases hv : v.vpn2 = i
    · rw [← hv] at hempty hbelow
      simp only [walk, ← hv, setEntry_self, hentry, hbelow, hempty]
    · exact walk_congr (setEntry_of_ne_index hv) (fun t' ht => congrFun (hother ht (by simp)) _)
        fun t' ht => congrFun (hother ht (by simp)) _
  | level1 a =>
    have hroot : setEntry e t i entry root = e root := hother (r := .root) rfl (by simp)
    have hpointer : kind (e root a) = .pointer t := child_eq_some.mp hp
    by_cases hv : v.vpn2 = a ∧ v.vpn1 = i
    · obtain ⟨rfl, rfl⟩ := hv
      simp only [walk, hroot, hpointer, setEntry_self, hentry, hbelow, hempty]
    · refine walk_congr (congrFun hroot _) (fun t' ht => ?_)
        fun t' ht => congrFun (hother ht (by simp)) _
      by_cases ha : v.vpn2 = a
      · obtain rfl : t' = t := by
          rw [ha, hp] at ht
          exact (Option.some.inj ht).symm
        exact setEntry_of_ne_index fun hi => hv ⟨ha, hi⟩
      · exact congrFun (hother ht (by simpa using Ne.symm ha)) _
  | level0 a b => cases hq

/-- A link keeps the hierarchy well formed. -/
theorem Link.wellFormed_setEntry (h : Link e root t i c entry p q) :
    WellFormed (setEntry e t i entry) root := by
  intro r r' t' hr hr'
  rw [h.tableAt_eq] at hr hr'
  by_cases hrq : r = q <;> by_cases hrq' : r' = q
  · rw [hrq, hrq']
  · rw [hrq, Function.update_self] at hr
    rw [Function.update_of_ne hrq'] at hr'
    exact absurd (Option.some.inj hr ▸ mem_tables hr') h.new
  · rw [hrq', Function.update_self] at hr'
    rw [Function.update_of_ne hrq] at hr
    exact absurd (Option.some.inj hr' ▸ mem_tables hr) h.new
  · rw [Function.update_of_ne hrq] at hr
    rw [Function.update_of_ne hrq'] at hr'
    exact h.wellFormed r r' t' hr hr'

theorem Link.clean (h : Link e root t i c entry p q) (hclean : Clean e root) :
    Clean (setEntry e t i entry) root := by
  intro r t' j hr
  rw [h.tableAt_eq] at hr
  by_cases hrq : r = q
  · rw [hrq, Function.update_self] at hr
    obtain rfl : c = t' := Option.some.inj hr
    have hct : c ≠ t := fun heq => h.new (heq ▸ mem_tables h.parent)
    left
    rw [setEntry_of_ne hct, h.zero]
  · rw [Function.update_of_ne hrq] at hr
    by_cases heq : t' = t ∧ j = i
    · obtain ⟨rfl, rfl⟩ := heq
      obtain rfl := h.wellFormed p r t' h.parent hr
      right; left
      rw [setEntry_self, h.entry]
      exact ⟨by simp [h.below], c, rfl⟩
    · rw [setEntry, if_neg heq]
      exact hclean r t' j hr

end Link

/-- What an entry of a last-level table translates its page to. -/
def lastLevel (entry : ℕ) : Option Leaf :=
  match kind entry with
  | .leaf => some (leafOf entry (ppn entry))
  | _ => none

theorem walk_of_tableAt {v : Vpn} (h : tableAt e root (.level0 v.vpn2 v.vpn1) = some t) :
    walk e root v = lastLevel (e t v.vpn0) := by
  cases h₁ : child e root v.vpn2 with
  | none => rw [tableAt, h₁] at h; cases h
  | some t₁ =>
    rw [tableAt_level0 (i := v.vpn2) h₁] at h
    rw [walk, child_eq_some.mp h₁]
    dsimp only
    rw [child_eq_some.mp h]
    rfl

/-- The entries of a last-level table lead to no table. -/
theorem tableAt_setLeaf {a b : Fin 512} (hwf : WellFormed e root)
    (h : tableAt e root (.level0 a b) = some t) :
    tableAt (setEntry e t i entry) root = tableAt e root := by
  have hroot : setEntry e t i entry root = e root :=
    setEntry_of_ne (ne_of_path hwf h (q := .root) rfl (by simp))
  funext p
  cases p with
  | root => rfl
  | level1 j => exact child_congr (congrFun hroot j)
  | level0 j k =>
    rw [tableAt, tableAt, child_congr (congrFun hroot j)]
    cases h₁ : child e root j with
    | none => rfl
    | some t₁ =>
      have hne : t₁ ≠ t := ne_of_path hwf h (q := .level1 j) h₁ (by simp)
      exact child_congr (congrFun (setEntry_of_ne hne) k)

theorem Clean.setLeaf {a b : Fin 512} (h : Clean e root) (hwf : WellFormed e root)
    (ht : tableAt e root (.level0 a b) = some t) (hentry : kind entry = .leaf) :
    Clean (setEntry e t i entry) root := by
  intro r t' j hr
  rw [tableAt_setLeaf hwf ht] at hr
  by_cases heq : t' = t ∧ j = i
  · obtain ⟨rfl, rfl⟩ := heq
    obtain rfl := hwf _ r t' ht hr
    right; right
    rw [setEntry_self]
    exact ⟨rfl, hentry⟩
  · rw [setEntry, if_neg heq]
    exact h r t' j hr

/-- **Writing a last-level entry** changes the translation of its page alone. -/
theorem walk_setLeaf {v : Vpn} (hwf : WellFormed e root)
    (h : tableAt e root (.level0 v.vpn2 v.vpn1) = some t) :
    walk (setEntry e t v.vpn0 entry) root = Function.update (walk e root) v (lastLevel entry) := by
  have hsame : tableAt (setEntry e t v.vpn0 entry) root = tableAt e root := tableAt_setLeaf hwf h
  funext u
  by_cases hu : u = v
  · rw [hu, Function.update_self, walk_of_tableAt (by rw [hsame]; exact h), setEntry_self]
  · rw [Function.update_of_ne hu]
    refine walk_congr ?_ ?_ ?_
    · exact congrFun (setEntry_of_ne (ne_of_path hwf h (q := .root) rfl (by simp))) _
    · exact fun t' ht => congrFun (setEntry_of_ne (ne_of_path hwf h ht (by simp))) _
    · intro t' ht
      by_cases hpath : Path.level0 v.vpn2 v.vpn1 = Path.level0 u.vpn2 u.vpn1
      · obtain rfl : t = t' := by
          rw [← hpath, h] at ht
          exact Option.some.inj ht
        refine setEntry_of_ne_index fun h₀ => hu ?_
        obtain ⟨h₂, h₁⟩ := Path.level0.inj hpath
        cases u
        cases v
        simp_all
      · exact congrFun (setEntry_of_ne (ne_of_path hwf h ht hpath)) _

end Change

/-! ## Addresses -/

/-- The bits above the 39-th one are copies of it. -/
def Canonical (va : ℕ) : Prop := va < 2 ^ 38 ∨ 2 ^ 64 - 2 ^ 38 ≤ va ∧ va < 2 ^ 64

instance : DecidablePred Canonical := fun _ => inferInstanceAs (Decidable (_ ∨ _))

/-- The table indices of an address. -/
def vpn (va : ℕ) : Vpn :=
  ⟨⟨va / 2 ^ 30 % 512, Nat.mod_lt _ (by decide)⟩, ⟨va / 2 ^ 21 % 512, Nat.mod_lt _ (by decide)⟩,
    ⟨va / 2 ^ 12 % 512, Nat.mod_lt _ (by decide)⟩⟩

/-- **Canonical pages are told apart** by their table indices. -/
theorem vpn_eq_iff {a b : ℕ} (ha : Canonical a) (hb : Canonical b) :
    vpn a = vpn b ↔ a / 2 ^ 12 = b / 2 ^ 12 := by
  simp only [vpn, Vpn.mk.injEq, Fin.mk.injEq]
  unfold Canonical at ha hb
  omega

theorem Canonical.add {a k : ℕ} (h : Canonical a) (ha : a % 2 ^ 12 = 0) (hk : k < 2 ^ 12) :
    Canonical (a + k) := by
  unfold Canonical at *
  omega

theorem vpn_add {a k : ℕ} (ha : a % 2 ^ 12 = 0) (hk : k < 2 ^ 12) : vpn (a + k) = vpn a := by
  simp only [vpn, Vpn.mk.injEq, Fin.mk.injEq]
  omega

/-- The physical address of a virtual one and the leaf that maps it. -/
def translate (e : Entries) (root va : ℕ) : Option (ℕ × Leaf) :=
  if Canonical va then
    (walk e root (vpn va)).map fun leaf => (leaf.frame * 2 ^ 12 + va % 2 ^ 12, leaf)
  else none

theorem translate_of_walk {e : Entries} {root va : ℕ} {leaf : Leaf} (h : Canonical va)
    (hw : walk e root (vpn va) = some leaf) :
    translate e root va = some (leaf.frame * 2 ^ 12 + va % 2 ^ 12, leaf) := by
  rw [translate, if_pos h, hw, Option.map_some]

theorem walk_of_translate {e : Entries} {root va : ℕ} {x : ℕ × Leaf}
    (h : translate e root va = some x) : Canonical va ∧ walk e root (vpn va) = some x.2 := by
  unfold translate at h
  by_cases hva : Canonical va
  · rw [if_pos hva] at h
    obtain ⟨leaf, hleaf, rfl⟩ := Option.map_eq_some_iff.mp h
    exact ⟨hva, hleaf⟩
  · rw [if_neg hva] at h
    cases h

/-! ## Encoding entries -/

theorem and_eq_mod_and {a k mask : ℕ} (h : mask < 2 ^ k) : a &&& mask = a % 2 ^ k &&& mask := by
  apply Nat.eq_of_testBit_eq
  intro i
  rw [Nat.testBit_and, Nat.testBit_and, Nat.testBit_mod_two_pow]
  by_cases hi : i < k
  · simp [hi]
  · have : mask.testBit i = false :=
      Nat.testBit_lt_two_pow (h.trans_le (Nat.pow_le_pow_right (by decide) (by omega)))
    simp [this]

section Encode

variable {n flags : ℕ}

theorem encode_mod (h : flags < 2 ^ 10) : (n * 2 ^ 10 + flags) % 2 ^ 10 = flags := by omega

theorem ppn_encode (hn : n < 2 ^ 44) (h : flags < 2 ^ 10) : ppn (n * 2 ^ 10 + flags) = n := by
  unfold ppn
  omega

theorem encode_and (h : flags < 2 ^ 10) {mask : ℕ} (hmask : mask < 2 ^ 10) :
    (n * 2 ^ 10 + flags) &&& mask = flags &&& mask := by
  rw [and_eq_mod_and hmask, encode_mod h]

theorem encode_testBit (h : flags < 2 ^ 10) {k : ℕ} (hk : k < 10) :
    (n * 2 ^ 10 + flags).testBit k = flags.testBit k := by
  have := Nat.testBit_mod_two_pow (n * 2 ^ 10 + flags) 10 k
  rw [encode_mod h] at this
  simpa [hk] using this.symm

theorem kind_pointer (hn : n < 2 ^ 44) : kind (n * 2 ^ 10 + 1) = .pointer n := by
  have h : (1 : ℕ) < 2 ^ 10 := by decide
  rw [kind, encode_and h (by decide), encode_and h (by decide), ppn_encode hn h]
  rfl

/-- An entry with these flags is a leaf. -/
theorem lastLevel_encode (hn : n < 2 ^ 44) (h : flags < 2 ^ 10) (hvalid : flags &&& 1 ≠ 0)
    (hread : flags &&& 2 ≠ 0) : lastLevel (n * 2 ^ 10 + flags) = some (leafOf flags n) := by
  have hleaf : flags &&& 0xe ≠ 0 := by
    intro h0
    have := congrArg (· &&& 2) h0
    simp only [Nat.and_assoc] at this
    exact hread this
  have hkind : kind (n * 2 ^ 10 + flags) = .leaf := by
    rw [kind, encode_and h (by decide), encode_and h (by decide), encode_and h (by decide),
      if_neg hvalid, if_neg hleaf, if_neg (by simp [hread])]
  have hbit : ∀ k < 10, (n * 2 ^ 10 + flags).testBit k = flags.testBit k := fun _ hk =>
    encode_testBit h hk
  rw [lastLevel, hkind, ppn_encode hn h]
  simp only [leafOf, hbit 1 (by decide), hbit 2 (by decide), hbit 3 (by decide), hbit 4 (by decide),
    hbit 6 (by decide), hbit 7 (by decide)]

/-- A leaf of the root maps a gigabyte. -/
theorem walk_gigapage {e : Entries} {root : ℕ} {v : Vpn} (hn : n < 2 ^ 26) (h : flags < 2 ^ 10)
    (hvalid : flags &&& 1 ≠ 0) (hread : flags &&& 2 ≠ 0)
    (hentry : e root v.vpn2 = n * 2 ^ 18 * 2 ^ 10 + flags) :
    walk e root v = some (leafOf flags (n * 2 ^ 18 + v.vpn1 * 2 ^ 9 + v.vpn0)) := by
  have hn' : n * 2 ^ 18 < 2 ^ 44 := by omega
  have hlast := lastLevel_encode hn' h hvalid hread
  have hppn : ppn (e root v.vpn2) = n * 2 ^ 18 := by rw [hentry, ppn_encode hn' h]
  rw [← hentry, lastLevel] at hlast
  split at hlast
  · rename_i hkind
    have hbits : ∀ frame, leafOf (e root v.vpn2) frame = leafOf flags frame := by
      intro frame
      simp only [Option.some.injEq, leafOf, Leaf.mk.injEq] at hlast ⊢
      exact ⟨trivial, hlast.2⟩
    rw [walk, hkind]
    dsimp only
    rw [hppn, if_pos (Nat.mul_mod_left _ _), hbits]
  · cases hlast

theorem translate_gigapage {e : Entries} {root va : ℕ} (hva : Canonical va) (hn : n < 2 ^ 26)
    (h : flags < 2 ^ 10) (hvalid : flags &&& 1 ≠ 0) (hread : flags &&& 2 ≠ 0)
    (hentry : e root (vpn va).vpn2 = n * 2 ^ 18 * 2 ^ 10 + flags) :
    translate e root va = some (n * 2 ^ 30 + va % 2 ^ 30,
      leafOf flags ((n * 2 ^ 30 + va % 2 ^ 30) / 2 ^ 12)) := by
  have hpa : (n * 2 ^ 30 + va % 2 ^ 30) / 2 ^ 12 * 2 ^ 12 + va % 2 ^ 12 =
      n * 2 ^ 30 + va % 2 ^ 30 := by
    omega
  have hframe : (n * 2 ^ 30 + va % 2 ^ 30) / 2 ^ 12 =
      n * 2 ^ 18 + (vpn va).vpn1 * 2 ^ 9 + (vpn va).vpn0 := by
    simp only [vpn]
    omega
  have hw : walk e root (vpn va) = some (leafOf flags ((n * 2 ^ 30 + va % 2 ^ 30) / 2 ^ 12)) := by
    rw [hframe]
    exact walk_gigapage hn h hvalid hread hentry
  rw [translate_of_walk hva hw]
  simp only [leafOf, hpa]

end Encode

end Sv39

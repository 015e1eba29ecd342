import BareboneKernel.Kernel.BootWindow
import BareboneKernel.Kernel.Stock

/-!
# Mapping a range

`mapRange` checks a whole range before it maps its pages one by one. A failure leaves a prefix of
the pages mapped.

* `Mappable range frame`: the range passes the checks;
* `addPages τ start frame permissions n`: a translation with `n` consecutive pages added;
* **`sat_mapRange`**, **`succeeds_mapRange`**: what `mapRange` does to the tables;
* **`map_range_prefix`**: and to the translation.
-/

set_option autoImplicit false

namespace Barebone.Kernel

open Exec Word Sv39

variable {F : Type} [FrameAllocator F]

/-- The number of pages that cover a range. -/
def rangePages (range : VirtRange) : ℕ :=
  (range.stop.asUsize - range.start.asUsize + frameSize - 1) / frameSize

/-- The address of page `i` from `start` on. -/
def pageAt (start i : ℕ) : ℕ := start + i * frameSize

/-- **The checks on a range**: its start is aligned, all its addresses are canonical, and all its
frames are representable. -/
structure Mappable (range : VirtRange) (frame : PhysFrame) : Prop where
  aligned : range.start.asUsize % frameSize = 0
  canonical : ∀ va, range.start.asUsize ≤ va → va < range.stop.asUsize → Canonical va
  frames : frame.number + rangePages range ≤ 2 ^ 44

/-- The translation with `n` consecutive supervisor pages added. -/
def addPages (τ : Vpn → Option Leaf) (start frame : ℕ) (permissions : PagePermissions) :
    ℕ → Vpn → Option Leaf
  | 0 => τ
  | n + 1 => Function.update (addPages τ start frame permissions n) (vpn (pageAt start n))
      (some (leafFor (frame + n) permissions .supervisor))

section Ranges

variable {range : VirtRange} {frame : PhysFrame}

theorem rangePages_pos (range : VirtRange) : 0 < rangePages range := by
  have := range.lt
  unfold rangePages frameSize
  omega

theorem pageAt_lt {i : ℕ} (h : i < rangePages range) :
    pageAt range.start.asUsize i < range.stop.asUsize := by
  have := range.lt
  unfold rangePages frameSize at h
  unfold pageAt frameSize
  omega

theorem Mappable.page (h : Mappable range frame) {i : ℕ} (hi : i < rangePages range) :
    Canonical (pageAt range.start.asUsize i) ∧ pageAt range.start.asUsize i % frameSize = 0 := by
  refine ⟨h.canonical _ (Nat.le_add_right _ _) (pageAt_lt hi), ?_⟩
  rw [pageAt, Nat.add_mul_mod_self_right, h.aligned]

/-- Pages of one range are told apart by their table indices. -/
theorem Mappable.page_inj (h : Mappable range frame) {i j : ℕ} (hi : i < rangePages range)
    (hj : j < rangePages range)
    (heq : vpn (pageAt range.start.asUsize i) = vpn (pageAt range.start.asUsize j)) : i = j := by
  have hpage := (vpn_eq_iff (h.page hi).1 (h.page hj).1).mp heq
  have halign := h.aligned
  unfold pageAt frameSize at *
  omega

theorem addPages_of_forall_ne {τ : Vpn → Option Leaf} {start first n : ℕ}
    {permissions : PagePermissions} {v : Vpn} (h : ∀ i < n, vpn (pageAt start i) ≠ v) :
    addPages τ start first permissions n v = τ v := by
  induction n with
  | zero => rfl
  | succ n ih =>
    rw [addPages, Function.update_of_ne (h n (by omega)).symm]
    exact ih fun i hi => h i (by omega)

/-- **The pages that were added**, when they had no translation before. -/
theorem Mappable.addPages_eq_some (h : Mappable range frame) {τ : Vpn → Option Leaf} {first n : ℕ}
    {permissions : PagePermissions} (hn : n ≤ rangePages range)
    (hnone : ∀ i < n, τ (vpn (pageAt range.start.asUsize i)) = none) {v : Vpn} {leaf : Leaf} :
    addPages τ range.start.asUsize first permissions n v = some leaf ↔ τ v = some leaf ∨
      ∃ i < n, v = vpn (pageAt range.start.asUsize i) ∧
        leaf = leafFor (first + i) permissions .supervisor := by
  induction n with
  | zero => simp [addPages]
  | succ n ih =>
    have ih := ih (by omega) fun i hi => hnone i (by omega)
    rw [addPages]
    by_cases hv : v = vpn (pageAt range.start.asUsize n)
    · have hold : τ v = none := by rw [hv, hnone n (by omega)]
      rw [hv, Function.update_self, ← hv, hold]
      constructor
      · rintro heq
        exact .inr ⟨n, by omega, hv, (Option.some.inj heq).symm⟩
      · rintro (heq | ⟨i, hi, heq, rfl⟩)
        · cases heq
        · obtain rfl := h.page_inj (by omega) (by omega) (hv.symm.trans heq)
          rfl
    · rw [Function.update_of_ne hv, ih]
      refine or_congr_right ⟨?_, ?_⟩
      · rintro ⟨i, hi, heq⟩
        exact ⟨i, by omega, heq⟩
      · rintro ⟨i, hi, heq, hleaf⟩
        refine ⟨i, Nat.lt_of_le_of_ne (by omega) ?_, heq, hleaf⟩
        rintro rfl
        exact hv heq

/-- The checks of `mapRange` on addresses. -/
theorem canonical_range_iff (range : VirtRange) :
    (¬(sv39LowHalfEnd ≤ range.start.asUsize ∧ range.start.asUsize < sv39HighHalfBase) ∧
      ¬(range.start.asUsize < sv39LowHalfEnd ∧ range.stop.asUsize > sv39LowHalfEnd)) ↔
      ∀ va, range.start.asUsize ≤ va → va < range.stop.asUsize → Canonical va := by
  have hlow := sv39LowHalfEnd_eq
  have hhigh := sv39HighHalfBase_eq
  have hmax := wordMax_eq
  have hword := range.stop.isWord
  have hlt := range.lt
  rw [hlow, hhigh]
  unfold Canonical
  constructor
  · intro h va hva hva'
    omega
  · intro h
    have hstart := h range.start.asUsize le_rfl hlt
    refine ⟨by omega, fun hcross => ?_⟩
    have := h (2 ^ 38) (by omega) hcross.2
    omega

/-- The check of `mapRange` on frames. -/
theorem lastFrame_iff (range : VirtRange) (frame : PhysFrame) :
    ((frame.startAddress.checkedAdd ((rangePages range - 1) * pageSize)).filter
      (·.asUsize ≤ maxPhysicalAddress)).isSome ↔ frame.number + rangePages range ≤ 2 ^ 44 := by
  have hpages := rangePages_pos range
  have hmax := wordMax_eq
  have hphysical := maxPhysicalAddress_eq
  have hsize : pageSize = 4096 := rfl
  have hstart : frame.startAddress.asUsize = frame.number * 4096 := frame.start_eq
  rw [hphysical, hsize]
  cases hc : frame.startAddress.checkedAdd ((rangePages range - 1) * 4096) with
  | none =>
    unfold Addr.checkedAdd at hc
    split at hc
    · cases hc
    · simp only [Option.filter_none, Option.isSome_none, Bool.false_eq_true, false_iff]
      omega
  | some last =>
    have hlast := Addr.checkedAdd_eq_some.mp hc
    rw [Option.filter_some]
    by_cases hle : last.asUsize ≤ 2 ^ 56 - 1
    · rw [if_pos (by simpa using hle)]
      simp only [Option.isSome_some, true_iff]
      omega
    · rw [if_neg (by simpa using hle)]
      simp only [Option.isSome_none, Bool.false_eq_true, false_iff]
      omega

end Ranges

section MapRange

variable {w : Window} {access : FrameAccess} {S : Supply F} {root n : ℕ} {s s' : Machine × F}
  {range : VirtRange} {frame : PhysFrame} {permissions : PagePermissions}

/-- **The first `j` pages of the range have been mapped**, on tables for all its pages. -/
structure RangeMapped (w : Window) (S : Supply F) (root : ℕ) (range : VirtRange)
    (frame : PhysFrame) (permissions : PagePermissions) (j : ℕ) (s s' : Machine × F) : Prop where
  ready : Ready w S root s'
  progress : Progress S root s s'
  unmapped : ∀ i < j, walk s.1.entries root (vpn (pageAt range.start.asUsize i)) = none
  walk : walk s'.1.entries root =
    addPages (walk s.1.entries root) range.start.asUsize frame.number permissions j
  rootEntries : ∀ k, s'.1.entries root k ≠ s.1.entries root k →
    ∃ i < rangePages range, k = (vpn (pageAt range.start.asUsize i)).vpn2

theorem RangeMapped.zero (h : Ready w S root s) :
    RangeMapped w S root range frame permissions 0 s s :=
  ⟨h, Progress.refl s, by simp, rfl, by simp⟩

/-- The next page is mapped. -/
theorem RangeMapped.succ (hm : Mappable range frame) {j : ℕ} (hj : j < rangePages range)
    {s₁ : Machine × F} (h : RangeMapped w S root range frame permissions j s s₁)
    (h' : PageMapped w S root (pageAt range.start.asUsize j)
      (leafFor (frame.number + j) permissions .supervisor) s₁ (.ok ()) s') :
    RangeMapped w S root range frame permissions (j + 1) s s' := by
  obtain ⟨-, -, -, hnone, hupdate⟩ := h'.ok rfl
  rw [h.walk] at hnone hupdate
  refine ⟨h'.ready, h.progress.trans h'.progress, fun i hi => ?_, hupdate, fun k hk => ?_⟩
  · by_cases hij : i = j
    · rw [hij, ← hnone, addPages_of_forall_ne]
      intro i' hi' heq
      have := hm.page_inj (by omega) hj heq
      omega
    · exact h.unmapped i (by omega)
  · by_cases hk₁ : s'.1.entries root k = s₁.1.entries root k
    · exact h.rootEntries k (by rwa [hk₁] at hk)
    · exact ⟨j, hj, h'.rootEntries k hk₁⟩

/-- A page that cannot be mapped leaves the pages before it. -/
theorem RangeMapped.failed {j : ℕ} (hj : j < rangePages range) {s₁ : Machine × F}
    {e : PagingError} {leaf : Leaf} (h : RangeMapped w S root range frame permissions j s s₁)
    (h' : PageMapped w S root (pageAt range.start.asUsize j) leaf s₁ (.error e) s') :
    RangeMapped w S root range frame permissions j s s' := by
  refine ⟨h'.ready, h.progress.trans h'.progress, h.unmapped, ?_, fun k hk => ?_⟩
  · rw [(h'.error e rfl).1, h.walk]
  · by_cases hk₁ : s'.1.entries root k = s₁.1.entries root k
    · exact h.rootEntries k (by rwa [hk₁] at hk)
    · exact ⟨j, hj, h'.rootEntries k hk₁⟩

theorem fromStart_page {address : PhysAddr} {j : ℕ}
    (haddress : address.asUsize = frame.startAddress.asUsize + j * pageSize)
    (hframe : frame.number + j < 2 ^ 44) :
    ∃ frame', PhysFrame.fromStart address = some frame' ∧ frame'.number = frame.number + j := by
  have hmax := wordMax_eq
  have hsize : pageSize = 4096 := rfl
  have hstart : frame.startAddress.asUsize = frame.number * 4096 := frame.start_eq
  rw [hstart, hsize] at haddress
  have hfits : address.asUsize % frameSize = 0 ∧ address.asUsize + frameSize ≤ wordMax := by
    unfold frameSize
    omega
  refine ⟨⟨address, hfits.1, hfits.2⟩, dif_pos hfits, ?_⟩
  rw [PhysFrame.number, haddress]
  unfold frameSize
  omega

/-- One round of the loop maps one page. -/
theorem mapRangePage_eq (table : Sv39PageTable) (access : FrameAccess)
    (permissions : PagePermissions) (hm : Mappable range frame) {j : ℕ}
    (hj : j < rangePages range) : ∃ va frame', va.asUsize = pageAt range.start.asUsize j ∧
      frame'.number = frame.number + j ∧
      (table.mapRangePage access range frame permissions j : Exec (Machine × F) _ _) =
        mapPage table.root.frame access va frame' permissions .supervisor := by
  have hmax := wordMax_eq
  have hsize : pageSize = 4096 := rfl
  have hlt := pageAt_lt hj
  have hstop := range.stop.isWord
  have hframes := hm.frames
  have hstart : frame.startAddress.asUsize = frame.number * 4096 := frame.start_eq
  obtain ⟨va, hva⟩ : ∃ va : VirtAddr, va.asUsize = pageAt range.start.asUsize j :=
    ⟨⟨pageAt range.start.asUsize j, by omega⟩, rfl⟩
  obtain ⟨pa, hpa⟩ : ∃ pa : PhysAddr, pa.asUsize = frame.startAddress.asUsize + j * pageSize :=
    ⟨⟨frame.startAddress.asUsize + j * pageSize, by rw [hstart, hsize]; omega⟩, rfl⟩
  obtain ⟨frame', hfrom, hnumber⟩ := fromStart_page hpa (by omega)
  refine ⟨va, frame', hva, hnumber, ?_⟩
  funext s
  have hreturnsVa : Returns (Sv39PageTable.offsetAddress range.start (j * pageSize) :
      Exec (Machine × F) PagingError VirtAddr) s va s :=
    returns_expectSome.mpr ⟨Addr.checkedAdd_eq_some.mpr hva, rfl⟩
  have hreturnsPa : Returns (Sv39PageTable.offsetAddress frame.startAddress (j * pageSize) :
      Exec (Machine × F) PagingError PhysAddr) s pa s :=
    returns_expectSome.mpr ⟨Addr.checkedAdd_eq_some.mpr hpa, rfl⟩
  unfold Sv39PageTable.mapRangePage
  rw [bind_of_returns hreturnsVa, bind_of_returns hreturnsPa, hfrom]

theorem sat_mapRangePage (hs : w.Serves access) {table : Sv39PageTable}
    (hm : Mappable range frame) {j : ℕ} (hj : j < rangePages range)
    (h : Ready w S table.root.frame.number s)
    (havoid : Avoids w s.1.entries table.root.frame.number (vpn (pageAt range.start.asUsize j))) :
    Sat (table.mapRangePage access range frame permissions j) s
      (PageMapped w S table.root.frame.number (pageAt range.start.asUsize j)
        (leafFor (frame.number + j) permissions .supervisor) s) := by
  obtain ⟨va, frame', hva, hnumber, heq⟩ := mapRangePage_eq (F := F) table access permissions hm hj
  rw [heq, ← hva, ← hnumber]
  rw [← hva] at havoid
  exact sat_mapPage hs h (fun _ _ => havoid) frame' permissions .supervisor

/-- **Mapping a range.** A range that does not pass the checks changes nothing; otherwise all its
pages are mapped, or the ones before the page that failed. -/
theorem sat_mapRange (hs : w.Serves access) {table : Sv39PageTable}
    (h : Ready w S table.root.frame.number s)
    (havoid : Mappable range frame → ∀ i < rangePages range,
      Avoids w s.1.entries table.root.frame.number (vpn (pageAt range.start.asUsize i))) :
    Sat (table.mapRange access range frame permissions) s fun r s' =>
      (Mappable range frame ∧ r = .ok () ∧ RangeMapped w S table.root.frame.number range frame
        permissions (rangePages range) s s') ∨
      (Mappable range frame ∧ ∃ e, r = .error e ∧ ∃ j < rangePages range,
        RangeMapped w S table.root.frame.number range frame permissions j s s') ∨
      ¬Mappable range frame ∧ ∃ e, r = .error e ∧ s' = s := by
  unfold Sv39PageTable.mapRange
  dsimp only
  rw [and_pageMask]
  by_cases halign : range.start.asUsize % frameSize = 0
  swap
  · rw [if_pos halign]
    exact sat_fail (.inr (.inr ⟨fun hm => halign hm.aligned, _, rfl, rfl⟩))
  rw [if_neg (not_not.mpr halign)]
  by_cases hstart : sv39LowHalfEnd ≤ range.start.asUsize ∧ range.start.asUsize < sv39HighHalfBase
  · rw [if_pos hstart]
    refine sat_fail (.inr (.inr ⟨fun hm => ?_, _, rfl, rfl⟩))
    exact ((canonical_range_iff range).mpr hm.canonical).1 hstart
  rw [if_neg hstart]
  by_cases hcross : range.start.asUsize < sv39LowHalfEnd ∧ range.stop.asUsize > sv39LowHalfEnd
  · rw [if_pos hcross]
    refine sat_fail (.inr (.inr ⟨fun hm => ?_, _, rfl, rfl⟩))
    exact ((canonical_range_iff range).mpr hm.canonical).2 hcross
  rw [if_neg hcross]
  have hcanonical := (canonical_range_iff range).mp ⟨hstart, hcross⟩
  have hlast := lastFrame_iff range frame
  rw [show (range.stop.asUsize - range.start.asUsize + pageSize - 1) / pageSize =
    rangePages range from rfl]
  cases hcheck : (frame.startAddress.checkedAdd ((rangePages range - 1) * pageSize)).filter
      (·.asUsize ≤ maxPhysicalAddress) with
  | none =>
    rw [hcheck] at hlast
    refine sat_fail (.inr (.inr ⟨fun hm => ?_, _, rfl, rfl⟩))
    exact absurd (hlast.mpr hm.frames) (by simp)
  | some last =>
    rw [hcheck] at hlast
    have hm : Mappable range frame := ⟨halign, hcanonical, hlast.mp rfl⟩
    refine sat_forRange (P := fun j s' =>
      RangeMapped w S table.root.frame.number range frame permissions j s s')
      (RangeMapped.zero h) (fun j s₁ hj h₁ => ?_) fun s₁ h₁ => .inl ⟨hm, rfl, h₁⟩
    have havoid₁ := (havoid hm j hj).progress h h₁.ready.wellFormed h₁.progress
    refine (sat_mapRangePage hs hm hj h₁.ready havoid₁).mono fun r s₂ h₂ => ⟨?_, ?_⟩
    · rintro rfl
      exact h₁.succ hm hj h₂
    · rintro e rfl
      exact .inr (.inl ⟨hm, e, rfl, j, hj, h₁.failed hj h₂⟩)

theorem succeeds_mapRangePage (hs : w.Serves access) {table : Sv39PageTable}
    (hm : Mappable range frame) {j : ℕ} (hj : j < rangePages range)
    (h : Ready w S table.root.frame.number s) (hclean : Clean s.1.entries table.root.frame.number)
    (hstock : Stocked (n + 2) s.2)
    (havoid : Avoids w s.1.entries table.root.frame.number (vpn (pageAt range.start.asUsize j)))
    (hnone : walk s.1.entries table.root.frame.number (vpn (pageAt range.start.asUsize j)) = none) :
    Succeeds (table.mapRangePage access range frame permissions j) s fun _ s' =>
      Stocked n s'.2 := by
  obtain ⟨va, frame', hva, hnumber, heq⟩ := mapRangePage_eq (F := F) table access permissions hm hj
  obtain ⟨hcanonical, halign⟩ := hm.page hj
  have hframes := hm.frames
  have hrep : frame'.Representable := by
    unfold PhysFrame.Representable
    omega
  rw [heq]
  rw [← hva] at hcanonical halign havoid hnone
  exact succeeds_mapPage hs h hclean hstock hcanonical halign havoid hnone hrep _ _

/-- **A range of pages without translation is mapped**, with two frames at hand for each page. -/
theorem succeeds_mapRange (hs : w.Serves access) {table : Sv39PageTable}
    (h : Ready w S table.root.frame.number s) (hclean : Clean s.1.entries table.root.frame.number)
    (hm : Mappable range frame) (permissions : PagePermissions)
    (hstock : Stocked (n + 2 * rangePages range) s.2)
    (havoid : ∀ i < rangePages range,
      Avoids w s.1.entries table.root.frame.number (vpn (pageAt range.start.asUsize i)))
    (hnone : ∀ i < rangePages range,
      walk s.1.entries table.root.frame.number (vpn (pageAt range.start.asUsize i)) = none) :
    Succeeds (table.mapRange access range frame permissions) s fun _ s' => Stocked n s'.2 := by
  have hcanonical := (canonical_range_iff range).mpr hm.canonical
  have hlast := (lastFrame_iff range frame).mpr hm.frames
  obtain ⟨last, hlast⟩ := Option.isSome_iff_exists.mp hlast
  unfold Sv39PageTable.mapRange
  dsimp only
  rw [and_pageMask, if_neg (not_not.mpr hm.aligned), if_neg hcanonical.1, if_neg hcanonical.2]
  rw [show (range.stop.asUsize - range.start.asUsize + pageSize - 1) / pageSize =
    rangePages range from rfl, hlast]
  -- after `j` rounds there are two frames left for each page that is to come
  refine Succeeds.mono (succeeds_forRange (P := fun j s' =>
    Stocked (n + 2 * (rangePages range - j)) s'.2 ∧
      RangeMapped w S table.root.frame.number range frame permissions j s s')
    ⟨hstock, RangeMapped.zero h⟩ fun j s₁ hj h₁ => ?_)
    fun _ s' h' => h'.1.mono (Nat.le_add_right n _)
  obtain ⟨hstock₁, h₁⟩ := h₁
  have havoid₁ := (havoid j hj).progress h h₁.ready.wellFormed h₁.progress
  have hnone₁ : walk s₁.1.entries table.root.frame.number
      (vpn (pageAt range.start.asUsize j)) = none := by
    rw [h₁.walk, addPages_of_forall_ne, hnone j hj]
    intro i hi heq
    have := hm.page_inj (hi.trans hj) hj heq
    omega
  have hcount : n + 2 * (rangePages range - j) = n + 2 * (rangePages range - (j + 1)) + 2 := by omega
  rw [hcount] at hstock₁
  refine ((succeeds_mapRangePage hs hm hj h₁.ready (h₁.progress.clean hclean) hstock₁ havoid₁
    hnone₁).and (sat_mapRangePage hs hm hj h₁.ready havoid₁)).mono fun _ s₂ h₂ => ?_
  exact ⟨h₂.1, h₁.succ hm hj h₂.2⟩

end MapRange

/-! ## Translations -/

/-- **The abstract operation**: `n` pages from `start` on, so far without a translation, are added
on consecutive frames. -/
def AddsPages (τ τ' : ℕ → Option (ℕ × Leaf)) (start frame : ℕ) (permissions : PagePermissions)
    (n : ℕ) : Prop :=
  (∀ va, start ≤ va → va < pageAt start n → τ va = none ∧
    τ' va = some (frame * frameSize + (va - start),
      leafFor ((frame * frameSize + (va - start)) / frameSize) permissions .supervisor)) ∧
  ∀ va, ¬(start ≤ va ∧ va < pageAt start n) → τ' va = τ va

section Translate

variable {start n va : ℕ}

/-- An address lies on one of the pages. -/
theorem exists_page (hstart : start % frameSize = 0) (hlow : start ≤ va)
    (hhigh : va < pageAt start n) : ∃ i < n, va / frameSize = pageAt start i / frameSize := by
  refine ⟨(va - start) / frameSize, ?_, ?_⟩
  · rw [Nat.div_lt_iff_lt_mul (by decide)]
    unfold pageAt at hhigh
    omega
  · unfold pageAt
    unfold frameSize at *
    omega

/-- The translation on one of consecutive pages. -/
theorem translate_pageAt {e : Entries} {root first i : ℕ} {permissions : PagePermissions}
    (hcanonical : Canonical (pageAt start i)) (halign : pageAt start i % frameSize = 0)
    (hva : va / frameSize = pageAt start i / frameSize)
    (hw : walk e root (vpn (pageAt start i)) =
      some (leafFor (first + i) permissions .supervisor)) :
    translate e root va = some (first * frameSize + (va - start),
      leafFor ((first * frameSize + (va - start)) / frameSize) permissions .supervisor) := by
  have hva' := canonical_of_page hcanonical halign hva
  have hvpn : vpn va = vpn (pageAt start i) := (vpn_eq_iff hva' hcanonical).mpr hva
  have hsize : frameSize = 2 ^ 12 := rfl
  have hpa : first * frameSize + (va - start) = (first + i) * 2 ^ 12 + va % 2 ^ 12 := by
    have hoffset : va - start = i * frameSize + va % frameSize := by
      unfold pageAt at *
      unfold frameSize at *
      omega
    rw [hoffset, hsize, Nat.add_mul, Nat.add_assoc]
  have hdiv : ((first + i) * 2 ^ 12 + va % 2 ^ 12) / frameSize = first + i := by
    rw [hsize]
    omega
  rw [← hvpn] at hw
  rw [hpa, hdiv, translate_of_walk hva' hw, leafFor]

theorem RangeMapped.addsPages {w : Window} {S : Supply F} {root : ℕ} {s s' : Machine × F}
    {range : VirtRange} {frame : PhysFrame} {permissions : PagePermissions} {j : ℕ}
    (hm : Mappable range frame) (hj : j ≤ rangePages range)
    (h : RangeMapped w S root range frame permissions j s s') :
    AddsPages (translate s.1.entries root) (translate s'.1.entries root) range.start.asUsize
      frame.number permissions j := by
  refine ⟨fun va hlow hhigh => ?_, fun va hva => ?_⟩
  · obtain ⟨i, hi, hpage⟩ := exists_page hm.aligned hlow hhigh
    obtain ⟨hcanonical, halign⟩ := hm.page (hi.trans_le hj)
    refine ⟨?_, translate_pageAt hcanonical halign hpage ?_⟩
    · have hva' := canonical_of_page hcanonical halign hpage
      have hvpn := (vpn_eq_iff hva' hcanonical).mpr hpage
      rw [Sv39.translate, if_pos hva', hvpn, h.unmapped i hi, Option.map_none]
    · rw [h.walk]
      exact (hm.addPages_eq_some hj h.unmapped).mpr (.inr ⟨i, hi, rfl, rfl⟩)
  · unfold Sv39.translate
    by_cases hva' : Canonical va
    · rw [if_pos hva', if_pos hva', h.walk, addPages_of_forall_ne]
      intro i hi heq
      obtain ⟨hcanonical, halign⟩ := hm.page (hi.trans_le hj)
      have hpage := (vpn_eq_iff hcanonical hva').mp heq
      have hnext : (i + 1) * frameSize ≤ j * frameSize := Nat.mul_le_mul_right _ hi
      refine hva ?_
      unfold pageAt at *
      unfold frameSize at *
      omega
    · rw [if_neg hva', if_neg hva']

end Translate

/-- The range is refused: its start is unaligned, it has an address that is not canonical, or its
last frame is not representable. -/
def Refused (range : VirtRange) (frame : PhysFrame) : Prop :=
  range.start.asUsize % frameSize ≠ 0 ∨
  (∃ va, range.start.asUsize ≤ va ∧ va < range.stop.asUsize ∧ ¬Canonical va) ∨
  frame.start.asUsize + (rangePages range - 1) * frameSize > maxPhysicalAddress

theorem not_refused_iff {range : VirtRange} {frame : PhysFrame} :
    ¬Refused range frame ↔ Mappable range frame := by
  have hphysical := maxPhysicalAddress_eq
  have hpages := rangePages_pos range
  have hstart := frame.start_eq
  have hlast : ¬frame.start.asUsize + (rangePages range - 1) * frameSize > maxPhysicalAddress ↔
      frame.number + rangePages range ≤ 2 ^ 44 := by
    unfold frameSize at *
    omega
  unfold Refused
  rw [not_or, not_or, not_not, hlast, not_exists]
  constructor
  · rintro ⟨haligned, hcanonical, hframes⟩
    refine ⟨haligned, fun va hlow hhigh => ?_, hframes⟩
    by_contra hva
    exact hcanonical va ⟨hlow, hhigh, hva⟩
  · rintro ⟨haligned, hcanonical, hframes⟩
    exact ⟨haligned, fun va hva => hva.2.2 (hcanonical va hva.1 hva.2.1), hframes⟩

/-- **`mapRange` maps a range page by page.** A range that is refused changes nothing. Otherwise
every address of the loop is canonical and representable, all pages of the range are added to the
translation, or an error leaves the ones before the page that failed. -/
theorem map_range_prefix (w : Window) (access : FrameAccess) (S : Supply F) (table : Sv39PageTable)
    (s : Machine × F) (hs : w.Serves access) (h : Ready w S table.root.frame.number s)
    (range : VirtRange) (frame : PhysFrame) (permissions : PagePermissions)
    (havoid : ¬Refused range frame → ∀ i < rangePages range,
      Avoids w s.1.entries table.root.frame.number (vpn (pageAt range.start.asUsize i))) :
    Sat (table.mapRange access range frame permissions) s fun r s' =>
      (Refused range frame → (∃ e, r = .error e) ∧ s' = s) ∧
      (¬Refused range frame →
        (∀ i < rangePages range, pageAt range.start.asUsize i ≤ wordMax ∧
          Canonical (pageAt range.start.asUsize i) ∧
          frame.start.asUsize + i * frameSize ≤ maxPhysicalAddress) ∧
        WellFormed s'.1.entries table.root.frame.number ∧
        (r = .ok () → AddsPages (translate s.1.entries table.root.frame.number)
          (translate s'.1.entries table.root.frame.number) range.start.asUsize frame.number
          permissions (rangePages range)) ∧
        ∀ e, r = .error e → ∃ j < rangePages range,
          AddsPages (translate s.1.entries table.root.frame.number)
            (translate s'.1.entries table.root.frame.number) range.start.asUsize frame.number
            permissions j) := by
  have hloop : Mappable range frame → ∀ i < rangePages range,
      pageAt range.start.asUsize i ≤ wordMax ∧ Canonical (pageAt range.start.asUsize i) ∧
        frame.start.asUsize + i * frameSize ≤ maxPhysicalAddress := by
    intro hm i hi
    have hphysical := maxPhysicalAddress_eq
    have hframes := hm.frames
    have hstart := frame.start_eq
    refine ⟨(pageAt_lt hi).le.trans range.stop.isWord, (hm.page hi).1, ?_⟩
    unfold frameSize at *
    omega
  refine (sat_mapRange hs h fun hm => havoid (not_refused_iff.mpr hm)).mono fun r s' hr => ?_
  rcases hr with ⟨hm, rfl, hr⟩ | ⟨hm, e, rfl, j, hj, hr⟩ | ⟨hm, e, rfl, rfl⟩
  · refine ⟨fun hrefused => absurd hrefused (not_refused_iff.mpr hm), fun _ => ⟨hloop hm,
      hr.ready.wellFormed, fun _ => hr.addsPages hm le_rfl, by simp⟩⟩
  · refine ⟨fun hrefused => absurd hrefused (not_refused_iff.mpr hm), fun _ => ⟨hloop hm,
      hr.ready.wellFormed, by simp, fun _ _ => ⟨j, hj, hr.addsPages hm hj.le⟩⟩⟩
  · exact ⟨fun _ => ⟨⟨e, rfl⟩, rfl⟩, fun hrefused => absurd (not_refused_iff.mp hrefused) hm⟩

section Sample

/-- An empty address space beside the sample boot table. -/
def sampleTable : Sv39PageTable := ⟨⟨sampleFrame 4⟩⟩

theorem entries_sampleTable (i : Fin 512) : sampleBootMachine.entries 4 i = 0 := by
  rw [entries_sampleBootMachine, setEntry_of_ne (by decide), entries_emptyMachine]

theorem ready_sampleTable : Ready (sampleBootstrap.window sampleBootMachine.root) listSupply
    sampleTable.root.frame.number (sampleBootMachine, sampleStock) := by
  have hroot : sampleTable.root.frame.number = 4 := by decide
  have hslot : sampleBootMachine.entries sampleBootMachine.root 511 = 0 := by
    rw [root_sampleBootMachine]
    exact entries_sampleBootMachine_of_ne (by decide)
  have htable := tables_of_empty entries_sampleTable
  rw [hroot]
  refine ⟨identity_sample.isOpen hslot, valid_sampleStock, by decide,
    wellFormed_of_empty entries_sampleTable, fun t ht => ⟨fun hmem => ?_, fun hmem => ?_⟩, .inr ?_⟩
  · have : t = 4 := htable hmem
    have := mem_pool_sampleStock ht
    omega
  · rw [root_sampleBootMachine] at hmem
    have : t = 1 := tables_sampleBootMachine hmem
    have := mem_pool_sampleStock ht
    omega
  · refine Set.disjoint_left.mpr fun t hmem hmem' => ?_
    rw [root_sampleBootMachine] at hmem'
    have h₄ : t = 4 := htable hmem
    have h₁ : t = 1 := tables_sampleBootMachine hmem'
    omega

/-- The last pages of the address space. -/
def sampleTop : VirtRange :=
  ⟨⟨wordMax - 0x1fff, by decide⟩, ⟨wordMax, by decide⟩, by decide⟩

/-- The last two pages are mapped in an empty address space. -/
theorem map_range_prefix_sample : rangePages sampleTop = 2 ∧
    Succeeds (sampleTable.mapRange sampleBootstrap.access sampleTop (sampleFrame 7) .readOnly)
      (sampleBootMachine, sampleStock) fun _ s' =>
        AddsPages (translate sampleBootMachine.entries sampleTable.root.frame.number)
          (translate s'.1.entries sampleTable.root.frame.number) sampleTop.start.asUsize
          (sampleFrame 7).number .readOnly 2 := by
  have hroot : sampleTable.root.frame.number = 4 := by decide
  have hpages : rangePages sampleTop = 2 := by decide
  have hmappable : Mappable sampleTop (sampleFrame 7) := by
    have hstart : sampleTop.start.asUsize = 2 ^ 64 - 2 ^ 13 := by decide
    have hstop : sampleTop.stop.asUsize = 2 ^ 64 - 1 := by decide
    refine ⟨by decide, fun va hlow hhigh => ?_, by decide⟩
    unfold Canonical
    omega
  have hne : sampleBootMachine.root ≠ sampleTable.root.frame.number := by decide
  have hserves := sampleBootstrap.serves sampleBootMachine.root
  have hclean : Clean sampleBootMachine.entries sampleTable.root.frame.number := by
    rw [hroot]
    exact clean_of_empty entries_sampleTable
  have hnone : ∀ i < rangePages sampleTop, walk sampleBootMachine.entries
      sampleTable.root.frame.number (vpn (pageAt sampleTop.start.asUsize i)) = none := by
    intro i _
    rw [hroot]
    exact walk_of_empty entries_sampleTable _
  have hsucceeds := succeeds_mapRange (n := 0) hserves ready_sampleTable hclean hmappable .readOnly
    (stocked_sampleStock.mono (by decide)) (fun i _ => ready_sampleTable.avoids hne _) hnone
  have hmapped := map_range_prefix _ _ listSupply sampleTable _ hserves ready_sampleTable sampleTop
    (sampleFrame 7) .readOnly fun _ i _ => ready_sampleTable.avoids hne _
  refine ⟨hpages, (hsucceeds.and hmapped).mono fun _ s' h => ?_⟩
  rw [← hpages]
  exact (h.2.2 (not_refused_iff.mpr hmappable)).2.2.1 rfl

end Sample

end Barebone.Kernel

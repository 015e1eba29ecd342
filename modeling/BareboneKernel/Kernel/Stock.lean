import BareboneKernel.Kernel.AddressSpace

/-!
# Enough frames

Every page needs at most two new tables, so the code that maps pages succeeds when the allocator has
frames for them and the pages are free.

* `Stocked n f`: the allocator hands out `n` more representable frames;
* **`succeeds_nextTable`**, **`succeeds_mapPage`**: what succeeds on a stock;
* `succeeds_mapUserPage`, `succeeds_installPage`: and in the kernel's address space.
-/

set_option autoImplicit false

namespace Barebone.Kernel

open Exec Word Sv39

variable {F ε : Type} [FrameAllocator F]

/-- **A stock of frames**: the next `n` requests are answered with representable frames. -/
def Stocked : ℕ → F → Prop
  | 0, _ => True
  | n + 1, f => ∃ frame f', Returns FrameAllocator.allocate f (some frame) f' ∧
      frame.frame.Representable ∧ Stocked n f'

theorem Stocked.mono {f : F} {n : ℕ} {m : ℕ} (h : Stocked m f) (hle : n ≤ m) : Stocked n f := by
  induction n generalizing m f with
  | zero => trivial
  | succ n ih =>
    cases m with
    | zero => omega
    | succ m =>
      obtain ⟨frame, f', hreturns, hrep, hrest⟩ := h
      exact ⟨frame, f', hreturns, hrep, ih hrest (Nat.le_of_succ_le_succ hle)⟩

section Allocate

variable {S : Supply F} {w : Window} {access : FrameAccess} {s : Machine × F} {n root : ℕ}

theorem succeeds_allocateFrame (h : Stocked (n + 1) s.2) :
    Succeeds allocateFrame s fun frame s' => frame.frame.Representable ∧ Stocked n s'.2 := by
  obtain ⟨frame, f', hreturns, hrep, hrest⟩ := h
  have hzoom : Returns (zoom Prod.snd (fun f s => (s.1, f))
      (infallible FrameAllocator.allocate) : Exec (Machine × F) PagingError _) s (some frame)
      (s.1, f') := returns_zoom.mpr ⟨f', returns_infallible.mpr hreturns, rfl⟩
  exact hzoom.succeeds_bind (succeeds_pure ⟨hrep, hrest⟩)

theorem succeeds_allocatePageTable (hs : w.Serves access) (hopen : w.Open s.1)
    (hvalid : S.Valid s.2) (hfresh : ∀ t ∈ S.pool s.2, t ∉ tables s.1.entries s.1.root)
    (h : Stocked (n + 1) s.2) :
    Succeeds access.allocatePageTable s fun _ s' => Stocked n s'.2 := by
  refine ((succeeds_allocateFrame h).and (sat_allocateFrame hvalid)).bind fun frame s₁ h₁ => ?_
  obtain ⟨⟨hrep, hrest⟩, ht⟩ := h₁
  have hfree : frame.frame.number ∉ tables s₁.1.entries s₁.1.root := by
    rw [ht.machine]
    exact hfresh _ (ht.frame frame rfl hrep).1
  have hopen₁ : w.Open s₁.1 := ht.machine ▸ hopen
  obtain ⟨hzero, -⟩ := returns_zeroFrame hs hopen₁ hrep hfree
  exact (returns_onMachine hzero).succeeds_bind (succeeds_pure hrest)

/-- **The next table** takes one frame at most. -/
theorem succeeds_nextTable (hs : w.Serves access) (h : Ready w S root s)
    (hclean : Clean s.1.entries root) (hstock : Stocked (n + 1) s.2) {parent : PhysFrame}
    {p q : Path} {i : Fin 512} (hp : tableAt s.1.entries root p = some parent.number)
    (hq : p.child i = some q) (hne : (parent.number, i) ≠ w.slot) :
    Succeeds (access.nextTable parent i) s fun _ s' => Stocked n s'.2 := by
  have hrep : parent.Representable := lt_of_mem_tables h.root_lt (mem_tables hp)
  refine (returns_onMachine (hs.returns_read h.isOpen hrep hne)).succeeds_bind ?_
  by_cases hentry : s.1.entries parent.number i = 0
  · rw [if_neg (not_not.mpr hentry)]
    have hfresh : ∀ t ∈ S.pool s.2, t ∉ tables s.1.entries s.1.root := fun t ht => (h.fresh t ht).2
    refine ((succeeds_allocatePageTable hs h.isOpen h.valid hfresh hstock).and
      (sat_allocatePageTable hs h.isOpen h.valid hfresh)).bind fun frame s₁ h₁ => ?_
    obtain ⟨hrest, ht⟩ := h₁
    obtain ⟨hcrep, hin, -, hmachine, hopen₁⟩ := ht.ok frame rfl
    have hempty : s₁.1.entries parent.number i = 0 := by
      rw [hmachine, Machine.entries_zero, clear_of_ne, hentry]
      intro heq
      exact (h.fresh _ hin).1 (heq ▸ mem_tables hp)
    have hflags : pteValid < 2 ^ 10 := by decide
    obtain ⟨hwrite, -⟩ := hs.returns_write hopen₁ hrep hne hempty (encode_le_wordMax hcrep hflags)
    have hpte := pageTableEntry_eq_ok hcrep hflags
    exact (returns_ofExcept.mpr ⟨hpte, rfl⟩).succeeds_bind
      ((returns_onMachine hwrite).succeeds_bind (succeeds_pure hrest))
  · rw [if_pos hentry]
    have hrest := hstock.mono (Nat.le_succ n)
    rcases intermediateFrame_eq i (s.1.entries parent.number i) with ⟨frame, hok, -⟩ | ⟨-, hk⟩
    · exact (returns_ofExcept.mpr ⟨hok, rfl⟩).succeeds hrest
    · -- a clean table has no entry that is neither empty nor a pointer here
      rcases hclean p _ i hp with h₀ | ⟨-, c, hc⟩ | ⟨hnone, -⟩
      · exact absurd h₀ hentry
      · exact absurd hc (hk c)
      · simp [hq] at hnone

/-- The entry of a page without translation is empty. -/
theorem entry_of_walk {e : Entries} {v : Vpn} {t : ℕ} (hclean : Clean e root)
    (ht : tableAt e root (.level0 v.vpn2 v.vpn1) = some t) (hnone : walk e root v = none) :
    e t v.vpn0 = 0 := by
  rw [walk_of_tableAt ht] at hnone
  rcases hclean _ _ v.vpn0 ht with h₀ | ⟨hchild, -⟩ | ⟨-, hk⟩
  · exact h₀
  · exact absurd rfl hchild
  · simp [lastLevel, hk] at hnone

/-- **A page without translation is mapped**, with two frames at hand. -/
theorem succeeds_mapPage (hs : w.Serves access) {root : PhysFrame} (h : Ready w S root.number s)
    (hclean : Clean s.1.entries root.number) (hstock : Stocked (n + 2) s.2) {address : VirtAddr}
    (hcanonical : Canonical address.asUsize) (halign : address.asUsize % frameSize = 0)
    (havoid : Avoids w s.1.entries root.number (vpn address.asUsize))
    (hnone : walk s.1.entries root.number (vpn address.asUsize) = none) {frame : PhysFrame}
    (hrep : frame.Representable) (permissions : PagePermissions) (privilege : PagePrivilege) :
    Succeeds (mapPage root access address frame permissions privilege) s fun _ s' =>
      Stocked n s'.2 := by
  obtain ⟨hi₂, hi₁, hi₀⟩ := vpn_indices address.asUsize
  have hflags := leafFlags_lt permissions privilege
  unfold mapPage
  dsimp only
  rw [and_pageMask, hi₂, hi₁, hi₀, if_neg (not_not.mpr halign),
    if_neg (by rw [not_canonical_iff, not_not]; exact hcanonical), pageTableEntry_eq_ok hrep hflags]
  refine (returns_ofExcept.mpr ⟨rfl, rfl⟩).succeeds_bind ?_
  refine ((succeeds_nextTable hs h hclean hstock (p := .root) rfl rfl havoid.level2).and
    (sat_nextTable hs h (p := .root) rfl rfl havoid.level2)).bind fun level1 s₁ h₁ => ?_
  obtain ⟨hstock₁, h₁⟩ := h₁
  have havoid₁ := havoid.progress h h₁.ready.wellFormed h₁.progress
  have hclean₁ := h₁.progress.clean hclean
  have ht₁ := h₁.ok level1 rfl
  refine ((succeeds_nextTable hs h₁.ready hclean₁ hstock₁ ht₁ rfl (havoid₁.level1 _ ht₁)).and
    (sat_nextTable hs h₁.ready ht₁ rfl (havoid₁.level1 _ ht₁))).bind fun level0 s₂ h₂ => ?_
  obtain ⟨hstock₂, h₂⟩ := h₂
  have havoid₂ := havoid₁.progress h₁.ready h₂.ready.wellFormed h₂.progress
  have hclean₂ := h₂.progress.clean hclean₁
  have ht₀ := h₂.ok level0 rfl
  have hrep₀ : level0.Representable := lt_of_mem_tables h₂.ready.root_lt (mem_tables ht₀)
  have hempty : s₂.1.entries level0.number (vpn address.asUsize).vpn0 = 0 := by
    apply entry_of_walk hclean₂ ht₀
    rw [h₂.walk, h₁.walk, hnone]
  refine (returns_onMachine (hs.returns_read h₂.ready.isOpen hrep₀
    (havoid₂.level0 _ ht₀))).succeeds_bind ?_
  rw [if_neg (not_not.mpr hempty)]
  obtain ⟨hwrite, -⟩ := hs.returns_write h₂.ready.isOpen hrep₀ (havoid₂.level0 _ ht₀) hempty
    (encode_le_wordMax hrep hflags)
  exact (returns_onMachine hwrite).succeeds hstock₂

end Allocate

/-! ## The kernel's address space -/

namespace KernelPaging

variable {paging : KernelPaging} {S : Supply F} {s : Machine × F} {n : ℕ} {address : VirtAddr}
  {frame : AllocatedFrame}

/-- A free page of the lower half is mapped for user mode. -/
theorem succeeds_mapUserPage (h : paging.Sound S s)
    (hclean : Clean s.1.entries paging.root.frame.number) (hstock : Stocked (n + 2) s.2)
    (hnull : pageSize ≤ address.asUsize) (hlow : address.asUsize < sv39LowHalfEnd)
    (halign : address.asUsize % frameSize = 0)
    (hnone : walk s.1.entries paging.root.frame.number (vpn address.asUsize) = none)
    (hrep : frame.frame.Representable) (permissions : PagePermissions) :
    Succeeds (paging.mapUserPage address frame permissions) s fun _ s' => Stocked n s'.2 := by
  have hend := sv39LowHalfEnd_eq
  unfold mapUserPage
  dsimp only
  rw [if_neg (not_not.mpr ⟨hnull, hlow⟩)]
  refine succeeds_mapPage (serves h.fixmap.slot) h.ready hclean hstock (.inl (by omega)) halign
    (h.avoids fun heq => ?_) hnone hrep permissions .user
  have hv : address.asUsize / 2 ^ 30 % 512 = 509 := by
    rw [vpn_fixmapFrameBase] at heq
    exact congrArg (fun v => v.vpn2.val) heq
  omega

/-- A free page of the upper half is mapped for the kernel. -/
theorem succeeds_installPage (h : paging.Sound S s)
    (hclean : Clean s.1.entries paging.root.frame.number) (hstock : Stocked (n + 2) s.2)
    (hhigh : sv39HighHalfBase ≤ address.asUsize) (hne : vpn address.asUsize ≠ vpn fixmapFrameBase)
    (halign : address.asUsize % frameSize = 0)
    (hnone : walk s.1.entries paging.root.frame.number (vpn address.asUsize) = none)
    (hrep : frame.frame.Representable) (permissions : PagePermissions) :
    Succeeds (paging.installPage address frame permissions) s fun _ s' => Stocked n s'.2 := by
  have hcanonical : Canonical address.asUsize := by
    have hbase := sv39HighHalfBase_eq
    have hmax := wordMax_eq
    have hword := address.isWord
    exact .inr (by omega)
  have hreserved : address.asUsize ≠ fixmapFrameBase := fun heq => hne (congrArg vpn heq)
  unfold installPage
  dsimp only
  rw [if_neg (Nat.not_lt.mpr hhigh), if_neg hreserved]
  exact succeeds_mapPage (serves h.fixmap.slot) h.ready hclean hstock hcanonical halign
    (h.avoids hne) hnone hrep permissions .supervisor

end KernelPaging

/-! ## A sample stock -/

theorem stocked_list {frames : List AllocatedFrame}
    (h : ∀ frame ∈ frames, frame.frame.Representable) : Stocked frames.length frames := by
  induction frames with
  | nil => trivial
  | cons frame frames ih =>
    exact ⟨frame, frames, rfl, h frame List.mem_cons_self,
      ih fun frame' hmem => h frame' (List.mem_cons_of_mem _ hmem)⟩

/-- Frames 16 to 79. -/
def sampleStock : List AllocatedFrame :=
  (List.range' 16 64).map fun n => ⟨sampleFrame (Fin.ofNat 1000 n)⟩

theorem numbers_sampleStock : sampleStock.map (·.frame.number) = List.range' 16 64 := by
  decide +kernel

theorem mem_pool_sampleStock {t : ℕ} (ht : t ∈ listSupply.pool sampleStock) : 16 ≤ t ∧ t < 80 := by
  have hmem : t ∈ sampleStock.map (·.frame.number) := ht
  rw [numbers_sampleStock, List.mem_range'_1] at hmem
  omega

theorem valid_sampleStock : listSupply.Valid sampleStock := by
  show (sampleStock.map (·.frame.number)).Nodup
  rw [numbers_sampleStock]
  exact List.nodup_range'

theorem stocked_sampleStock : Stocked 64 sampleStock := by
  have hlength : sampleStock.length = 64 := by rw [sampleStock, List.length_map, List.length_range']
  rw [← hlength]
  apply stocked_list
  intro frame hframe
  have hmem : frame.frame.number ∈ listSupply.pool sampleStock := List.mem_map.mpr ⟨frame, hframe, rfl⟩
  have hlt := (mem_pool_sampleStock hmem).2
  unfold PhysFrame.Representable
  omega

end Barebone.Kernel

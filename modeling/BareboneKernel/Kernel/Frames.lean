import BareboneKernel.Kernel.Backing
import BareboneKernel.Kernel.BootAllocator

/-!
# The frames of the devicetree

The boot allocator supplies the frames of all page tables and pages. What it can still return is a
pool, and no frame leaves the pool twice.

* `yieldSupply`: an allocator that ends, without repetitions, keeps the promises of a supply;
* `FreeFrame fdt kernel dtb n`: frame `n` is RAM of the devicetree that nothing reserves;
* **`claimed_frames`**: a claimed boot allocator supplies exactly these frames.
-/

set_option autoImplicit false

namespace Barebone.Kernel

open Exec Word Devicetree

variable {F : Type}

/-! ## Allocators that end -/

/-- The numbers of frames. -/
def frameNumbers (frames : List AllocatedFrame) : List ℕ := frames.map (·.frame.number)

/-- **An allocator that ends** and returns no frame twice keeps the promise. -/
def yieldSupply (F : Type) [FrameAllocator F] : Supply F where
  Valid f := ∃ frames, Yields FrameAllocator.allocate frames f ∧ (frameNumbers frames).Nodup
  pool f := {n | ∃ frames, Yields FrameAllocator.allocate frames f ∧ n ∈ frameNumbers frames}
  allocate {f} h := by
    obtain ⟨frames, hy, hnodup⟩ := h
    cases frames with
    | nil =>
      obtain ⟨f', h₁, h₂⟩ := hy
      have hy' : Yields FrameAllocator.allocate [] f' := ⟨f', h₂, h₂⟩
      refine ⟨none, f', h₁, ⟨[], hy', hnodup⟩, ?_, by simp⟩
      rintro n ⟨frames, hframes, hn⟩
      rw [hframes.unique hy'] at hn
      cases hn
    | cons frame frames =>
      obtain ⟨f', h₁, h₂⟩ := hy
      obtain ⟨hnew, hnodup'⟩ := List.nodup_cons.mp hnodup
      have hall : Yields FrameAllocator.allocate (frame :: frames) f := ⟨f', h₁, h₂⟩
      refine ⟨some frame, f', h₁, ⟨frames, h₂, hnodup'⟩, ?_, ?_⟩
      · rintro n ⟨frames', hframes, hn⟩
        rw [hframes.unique h₂] at hn
        exact ⟨_, hall, List.mem_cons_of_mem _ hn⟩
      · rintro frame' heq -
        obtain rfl := Option.some.inj heq
        refine ⟨⟨_, hall, List.mem_cons_self⟩, ?_⟩
        rintro ⟨frames', hframes, hn⟩
        rw [hframes.unique h₂] at hn
        exact hnew hn

theorem mem_yieldSupply_pool [FrameAllocator F] {f : F} {frames : List AllocatedFrame}
    (hy : Yields FrameAllocator.allocate frames f) {n : ℕ} :
    n ∈ (yieldSupply F).pool f ↔ n ∈ frameNumbers frames := by
  refine ⟨?_, fun hn => ⟨frames, hy, hn⟩⟩
  rintro ⟨frames', hframes, hn⟩
  rwa [hframes.unique hy] at hn

theorem stocked_of_yields [FrameAllocator F] {frames : List AllocatedFrame} : ∀ {f : F},
    Yields FrameAllocator.allocate frames f → (∀ frame ∈ frames, frame.frame.Representable) →
      Stocked frames.length f := by
  induction frames with
  | nil => exact fun _ _ => trivial
  | cons frame frames ih =>
    rintro f ⟨f', h₁, h₂⟩ hrep
    exact ⟨frame, f', h₁, hrep frame List.mem_cons_self,
      ih h₂ fun frame' hmem => hrep frame' (List.mem_cons_of_mem _ hmem)⟩

/-- **A pool is a stock**: `n` numbers in a row are `n` frames. -/
theorem stocked_of_pool [FrameAllocator F] {f : F} (h : (yieldSupply F).Valid f) {first n : ℕ}
    (hpool : ∀ k, first ≤ k → k < first + n → k ∈ (yieldSupply F).pool f)
    (hrep : ∀ k ∈ (yieldSupply F).pool f, k < 2 ^ 44) : Stocked n f := by
  obtain ⟨frames, hy, -⟩ := h
  have hsub : List.range' first n ⊆ frameNumbers frames := by
    intro k hk
    obtain ⟨hle, hlt⟩ := List.mem_range'_1.mp hk
    exact (mem_yieldSupply_pool hy).mp (hpool k hle hlt)
  have hlength := (List.subperm_of_subset List.nodup_range' hsub).length_le
  rw [List.length_range', frameNumbers, List.length_map] at hlength
  refine (stocked_of_yields hy fun frame hmem => ?_).mono hlength
  exact hrep _ ((mem_yieldSupply_pool hy).mpr (List.mem_map_of_mem hmem))

/-! ## The boot allocator -/

instance : FrameAllocator BootFrameAllocator := ⟨BootFrameAllocator.allocate⟩

/-- The addresses of a frame. -/
def frameExtent (n : ℕ) : Set ℕ := Set.Ico (n * frameSize) (n * frameSize + frameSize)

/-- **A free frame**: all of it is memory of the devicetree, and nothing reserves any of it. -/
structure FreeFrame (fdt : Fdt) (kernel dtb : PhysRange) (n : ℕ) : Prop where
  memory : ∃ it rs, Returns (fdt.memoryRanges : Exec Unit Empty _) () it () ∧
    Yields (MemoryRanges.next : Exec _ Empty _) rs it ∧
      ∃ r ∈ rs, frameExtent n ⊆ extent r.address r.size
  kernel : Disjoint (frameExtent n) kernel.span
  dtb : Disjoint (frameExtent n) dtb.span
  block : ∀ es, Yields (MemoryReservations.next : Exec _ Empty _) es fdt.memoryReservations →
    ∀ e ∈ es, Disjoint (frameExtent n) (extent e.address e.size)
  static : ∀ it rs, Returns (fdt.reservedMemoryRanges : Exec Unit Empty _) () it () →
    Yields (ReservedMemoryRanges.next : Exec _ Empty _) rs it →
      ∀ r ∈ rs, Disjoint (frameExtent n) (extent r.address r.size)

theorem frameExtent_subset_iff {n address size : ℕ} :
    frameExtent n ⊆ extent address size ↔
      address ≤ n * frameSize ∧ n * frameSize + frameSize ≤ address + size := by
  have hpos : n * frameSize < n * frameSize + frameSize := Nat.lt_add_of_pos_right (by decide)
  exact Set.Ico_subset_Ico_iff hpos

/-- Nothing that is reserved touches the frame. -/
theorem disjoint_reservedMemory_iff {kernel dtb : PhysRange} {es : List MemoryReservation}
    {rs : List RegRange} {x : Set ℕ} : Disjoint x (reservedMemory kernel dtb es rs) ↔
      Disjoint x kernel.span ∧ Disjoint x dtb.span ∧
        (∀ e ∈ es, Disjoint x (extent e.address e.size)) ∧
        ∀ r ∈ rs, Disjoint x (extent r.address r.size) := by
  have hunion : reservedMemory kernel dtb es rs = kernel.span ∪ (dtb.span ∪
      ((⋃ e ∈ es, extent e.address e.size) ∪ ⋃ r ∈ rs, extent r.address r.size)) := by
    ext y
    simp [reservedMemory]
  rw [hunion]
  simp only [Set.disjoint_union_right, Set.disjoint_iUnion_right]

/-- The free frames, read off the tree. -/
theorem freeFrame_iff {fdt : Fdt} {t : Tree} {es : List MemoryReservation} (hv : fdt.Validated t es)
    {kernel dtb : PhysRange} {n : ℕ} : FreeFrame fdt kernel dtb n ↔
      (∃ r ∈ t.memoryRanges fdt.strings, frameExtent n ⊆ extent r.address r.size) ∧
        Disjoint (frameExtent n) (reservedMemory kernel dtb es (t.reservedRanges fdt.strings)) := by
  obtain ⟨it₁, h₁, hy₁⟩ := hv.yields_memoryRanges (σ := Unit) (ε := Empty)
  obtain ⟨it₂, h₂, hy₂⟩ := hv.yields_reservedMemoryRanges (σ := Unit) (ε := Empty)
  have hy₃ := hv.yields_memoryReservations (ε := Empty)
  rw [disjoint_reservedMemory_iff]
  constructor
  · rintro ⟨⟨it', rs, hit, hrs, r, hr, hsub⟩, hkernel, hdtb, hblock, hstatic⟩
    obtain ⟨rfl, -⟩ := hit.unique (h₁ ())
    rw [hrs.unique (hy₁ Empty)] at hr
    exact ⟨⟨r, hr, hsub⟩, hkernel, hdtb, hblock es hy₃, hstatic it₂ _ (h₂ ()) hy₂⟩
  · rintro ⟨⟨r, hr, hsub⟩, hkernel, hdtb, hblock, hstatic⟩
    refine ⟨⟨it₁, _, h₁ (), hy₁ Empty, r, hr, hsub⟩, hkernel, hdtb, fun es' hes => ?_,
      fun it rs hit hrs => ?_⟩
    · rw [hes.unique hy₃]
      exact hblock
    · obtain ⟨rfl, -⟩ := hit.unique (h₂ ())
      rw [hrs.unique hy₂]
      exact hstatic

open BootFrameAllocator in
/-- **The boot allocator supplies the free frames**: exactly those of an accepted devicetree, each of
them once. -/
theorem claimed_frames {fdt : Fdt} {t : Tree} {es : List MemoryReservation}
    (hv : fdt.Validated t es) {kernel dtb : PhysRange} {allocator : BootFrameAllocator}
    {claimed claimed' : Bool}
    (hclaim : Returns (claim fdt kernel dtb) claimed allocator claimed') :
    (yieldSupply BootFrameAllocator).Valid allocator ∧
      ∀ n, n ∈ (yieldSupply BootFrameAllocator).pool allocator ↔ FreeFrame fdt kernel dtb n := by
  obtain ⟨hpair, it, rfl, hy⟩ := returns_claim hv hclaim
  have ha : Ahead Empty fdt kernel dtb (t.memoryRanges fdt.strings) ⟨fdt, it, none, kernel, dtb⟩ :=
    ⟨rfl, rfl, rfl, hy Empty, hv.semantics.memoryRanges_bounds, by simp⟩
  obtain ⟨frames, hframes, hall⟩ := yields_allocate hv ha hv.length_memoryRanges_lt rfl
  have hfree : frames.map (·.startAddress.asUsize) = freeOf (reservedMemory kernel dtb es
      (t.reservedRanges fdt.strings)) (t.memoryRanges fdt.strings) := hframes
  have hstart : ∀ frame : AllocatedFrame, frame.startAddress.asUsize =
      frame.frame.number * frameSize := fun frame => frame.frame.start_eq
  refine ⟨⟨frames, hall, ?_⟩, fun n => ?_⟩
  · -- frames that are apart have different numbers
    have hapart : (freeOf (reservedMemory kernel dtb es (t.reservedRanges fdt.strings))
        (t.memoryRanges fdt.strings)).Pairwise fun f g =>
          Disjoint (Set.Ico f (f + frameSize)) (Set.Ico g (g + frameSize)) := pairwise_freeOf hpair
    rw [← hfree, List.pairwise_map] at hapart
    refine List.pairwise_map.mpr (hapart.imp fun {f g} hdisjoint heq => ?_)
    rw [hstart, hstart, heq] at hdisjoint
    have hmem : g.frame.number * frameSize ∈ frameExtent g.frame.number :=
      ⟨le_rfl, Nat.lt_add_of_pos_right (by decide)⟩
    exact Set.disjoint_left.mp hdisjoint hmem hmem
  · have hnumber : n ∈ frameNumbers frames ↔ n * frameSize ∈ frames.map (·.startAddress.asUsize) := by
      simp only [frameNumbers, List.mem_map, hstart]
      refine exists_congr fun frame => and_congr_right fun _ => ?_
      exact ⟨fun heq => by rw [heq], fun heq => Nat.mul_right_cancel (by decide) heq⟩
    have hmod : n * frameSize % frameSize = 0 := Nat.mul_mod_left _ _
    rw [mem_yieldSupply_pool hall, hnumber, hfree, freeFrame_iff hv, freeOf, List.mem_flatMap]
    simp only [mem_freeFrames, hmod, true_and, frameExtent_subset_iff]
    constructor
    · rintro ⟨r, hr, hlow, hhigh, hdisjoint⟩
      exact ⟨⟨r, hr, hlow, hhigh⟩, hdisjoint⟩
    · rintro ⟨⟨r, hr, hlow, hhigh⟩, hdisjoint⟩
      exact ⟨r, hr, hlow, hhigh, hdisjoint⟩

end Barebone.Kernel

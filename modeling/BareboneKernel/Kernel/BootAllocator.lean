import BareboneKernel.Fdt.Blob
import BareboneKernel.Kernel.Memory
import Mathlib.Data.List.Sort
import Mathlib.Order.CompletePartialOrder
import Mathlib.Order.Interval.Set.Disjoint

/-!
# The boot frame allocator

`BootFrameAllocator` walks over the memory ranges of the devicetree and hands out frame after
frame, jumping over everything reserved.

* `BootFrameAllocator.claim`, `BootFrameAllocator.allocate`: the allocator;
* `freeFrames reserved ranges`: the frames inside the ranges that touch nothing reserved, range by
  range and upward in each;
* **`boot_allocator_eq_free`**: the `k`-th call returns the `k`-th of them.
-/

set_option autoImplicit false

namespace Barebone.Kernel

open Exec Word Devicetree

variable {σ ε : Type}

inductive BootFrameAllocatorError where
  | overlappingMemoryRanges (first second : PhysRange)
  | alreadyClaimed
  deriving DecidableEq

/-- The aligned part of a memory range that is still to be scanned. -/
structure CurrentMemoryRange where
  cursor : PhysAddr
  stop : PhysAddr
  deriving DecidableEq

structure BootFrameAllocator where
  fdt : Fdt
  memoryRanges : MemoryRanges
  current : Option CurrentMemoryRange
  kernel : PhysRange
  dtb : PhysRange

/-- `usize::try_from` on a number of the devicetree. -/
def usizeTryFrom (value : ℕ) : Option PhysAddr :=
  if h : value ≤ wordMax then some ⟨value, h⟩ else none

def fdtRange (address size : ℕ) : Exec σ ε PhysRange := do
  let address ← expectSome "64-bit targets can represent FDT u64 physical addresses"
    (usizeTryFrom address)
  let size ← expectSome "64-bit targets can represent FDT u64 physical sizes" (usizeTryFrom size)
  expectSome "validated FDT range must have a representable non-empty end"
    (AddrRange.fromStartSize address size.asUsize)

/-- Compares one memory range with a later one. -/
def compareMemoryRanges (first : PhysRange) (second : RegRange) :
    Exec σ BootFrameAllocatorError Unit := do
  let second ← fdtRange second.address second.size
  if first.overlaps second then fail (.overlappingMemoryRanges first second) else pure ()

/-- Compares the next memory range with all that follow it. -/
def validateMemoryRange (fdt : Fdt) (v : ℕ × MemoryRanges) :
    Exec σ BootFrameAllocatorError ((ℕ × MemoryRanges) ⊕ Unit) := do
  match ← advance MemoryRanges.next v.2 with
  | (none, _) => pure (.inr ())
  | (some first, ranges) =>
    let first ← fdtRange first.address first.size
    match checkedAdd v.1 1 with
    | none => pure (.inr ())
    | some nextIndex =>
      let rest ← fdt.memoryRanges
      let rest ← skipIter MemoryRanges.next nextIndex rest
      foldIter MemoryRanges.next (fun _ => compareMemoryRanges first) fdt.bound rest ()
      pure (.inl (nextIndex, ranges))

def validateMemoryRanges (fdt : Fdt) : Exec σ BootFrameAllocatorError Unit := do
  let ranges ← fdt.memoryRanges
  iterate (validateMemoryRange fdt) fdt.bound (0, ranges)

namespace BootFrameAllocator

/-- The state is the flag that an allocator has been claimed. -/
def claim (fdt : Fdt) (kernel dtb : PhysRange) :
    Exec Bool BootFrameAllocatorError BootFrameAllocator := do
  validateMemoryRanges fdt
  if ← get then fail .alreadyClaimed
  else
    set true
    let memoryRanges ← fdt.memoryRanges
    pure ⟨fdt, memoryRanges, none, kernel, dtb⟩

/-- Looks at the next memory range. -/
def advanceRound : Unit → Exec BootFrameAllocator ε (Unit ⊕ Bool) := fun _ => do
  match ← zoom memoryRanges (fun it a => { a with memoryRanges := it }) MemoryRanges.next with
  | none => pure (.inr false)
  | some range =>
    let range ← fdtRange range.address range.size
    match alignUp range.start with
    | none => pure (.inl ())
    | some start =>
      let stop := alignDown range.stop
      if start.asUsize ≥ stop.asUsize then pure (.inl ())
      else
        modify fun a => { a with current := some ⟨start, stop⟩ }
        pure (.inr true)

def advanceMemoryRange : Exec BootFrameAllocator ε Bool := do
  let allocator ← get
  iterate advanceRound allocator.fdt.bound ()

/-- The reservation, when it overlaps the candidate. -/
def overlappingRange (candidate : PhysRange) (address size : ℕ) : Exec σ ε (Option PhysRange) := do
  let range ← fdtRange address size
  pure (if candidate.overlaps range then some range else none)

def overlappingReservation (allocator : BootFrameAllocator) (candidate : PhysRange) :
    Exec σ ε (Option PhysRange) :=
  if candidate.overlaps allocator.kernel then pure (some allocator.kernel)
  else if candidate.overlaps allocator.dtb then pure (some allocator.dtb)
  else do
    match ← findSomeIter MemoryReservations.next (fun reservation =>
      if reservation.size = 0 then pure none
      else overlappingRange candidate reservation.address reservation.size)
        allocator.fdt.bound allocator.fdt.memoryReservations with
    | some range => pure (some range)
    | none =>
      let reserved ← allocator.fdt.reservedMemoryRanges
      findSomeIter ReservedMemoryRanges.next (fun reservation =>
        overlappingRange candidate reservation.address reservation.size)
          allocator.fdt.bound reserved

/-- Where the scan goes on: at `next`, or in another range. -/
def resumeAt (next stop : PhysAddr) : Option CurrentMemoryRange :=
  if next.asUsize ≥ stop.asUsize then none else some ⟨next, stop⟩

/-- Looks at the candidate frame at the cursor. -/
def tryCandidate (allocator : BootFrameAllocator) (current : CurrentMemoryRange) :
    Exec BootFrameAllocator ε (Unit ⊕ Option AllocatedFrame) := do
  let frame ← expectSome "allocator cursor must remain frame aligned"
    (PhysFrame.fromStart current.cursor)
  let frameRange ← frame.range
  match ← allocator.overlappingReservation frameRange with
  | some reserved =>
    match alignUp reserved.stop with
    | none =>
      modify fun a => { a with current := none }
      pure (.inl ())
    | some next =>
      modify fun a => { a with current := resumeAt next current.stop }
      pure (.inl ())
  | none =>
    modify fun a => { a with current := resumeAt frameRange.stop current.stop }
    pure (.inr (some ⟨frame⟩))

/-- Whether there is a range to scan; a new one is entered when there is none. -/
def enterRange : Exec BootFrameAllocator ε Bool := do
  let allocator ← get
  if allocator.current.isNone then advanceMemoryRange else pure true

def allocateRound : Unit → Exec BootFrameAllocator ε (Unit ⊕ Option AllocatedFrame) := fun _ => do
  let ready ← enterRange
  if !ready then pure (.inr none)
  else
    let allocator ← get
    match allocator.current with
    | none => pure (.inr none)
    | some current => tryCandidate allocator current

/-- A bound for the candidates looked at in one call. -/
def bound (allocator : BootFrameAllocator) : ℕ := allocator.fdt.bound * (wordMax + 1)

def allocate : Exec BootFrameAllocator ε (Option AllocatedFrame) := do
  let allocator ← get
  iterate allocateRound allocator.bound ()

end BootFrameAllocator

/-! ## Free frames -/

open Classical in
/-- The frames in `[start, stop)` that touch nothing reserved, upward. -/
noncomputable def freeFrames (reserved : Set ℕ) (start stop : ℕ) : List ℕ :=
  ((List.range (stop / frameSize)).map (· * frameSize)).filter fun f =>
    start ≤ f ∧ f + frameSize ≤ stop ∧ Disjoint (Set.Ico f (f + frameSize)) reserved

section FreeFrames

variable {reserved : Set ℕ} {start stop f : ℕ}

theorem mem_freeFrames : f ∈ freeFrames reserved start stop ↔
    f % frameSize = 0 ∧ start ≤ f ∧ f + frameSize ≤ stop ∧
      Disjoint (Set.Ico f (f + frameSize)) reserved := by
  simp only [freeFrames, List.mem_filter, List.mem_map, List.mem_range, decide_eq_true_eq]
  constructor
  · rintro ⟨⟨i, -, rfl⟩, h⟩
    exact ⟨Nat.mul_mod_left i frameSize, h⟩
  · rintro ⟨hmod, h⟩
    refine ⟨⟨f / frameSize, ?_, Nat.div_mul_cancel (Nat.dvd_of_mod_eq_zero hmod)⟩, h⟩
    have := h.2.1
    unfold frameSize at *
    omega

theorem pairwise_freeFrames : (freeFrames reserved start stop).Pairwise (· < ·) := by
  refine List.Pairwise.filter _ (List.pairwise_map.mpr ?_)
  exact List.pairwise_lt_range.imp fun h => Nat.mul_lt_mul_of_pos_right h (by decide)

/-- Lists of free frames are determined by their elements. -/
theorem eq_freeFrames {l : List ℕ} (hl : l.Pairwise (· < ·))
    (h : ∀ f, f ∈ l ↔ f ∈ freeFrames reserved start stop) : freeFrames reserved start stop = l :=
  pairwise_freeFrames.eq_of_mem_iff hl fun f => (h f).symm

theorem freeFrames_of_le (h : stop < start + frameSize) : freeFrames reserved start stop = [] := by
  refine List.eq_nil_iff_forall_not_mem.mpr fun f hf => ?_
  have := mem_freeFrames.mp hf
  omega

/-- A free frame at the start comes first. -/
theorem freeFrames_cons (hmod : start % frameSize = 0) (hle : start + frameSize ≤ stop)
    (hfree : Disjoint (Set.Ico start (start + frameSize)) reserved) :
    freeFrames reserved start stop = start :: freeFrames reserved (start + frameSize) stop := by
  apply eq_freeFrames
  · refine List.pairwise_cons.mpr ⟨fun f hf => ?_, pairwise_freeFrames⟩
    have := (mem_freeFrames.mp hf).2.1
    unfold frameSize at *
    omega
  · intro f
    rw [List.mem_cons, mem_freeFrames, mem_freeFrames]
    constructor
    · rintro (rfl | ⟨h₁, h₂, h₃, h₄⟩)
      · exact ⟨hmod, le_rfl, hle, hfree⟩
      · exact ⟨h₁, by omega, h₃, h₄⟩
    · rintro ⟨h₁, h₂, h₃, h₄⟩
      by_cases heq : f = start
      · exact .inl heq
      · refine .inr ⟨h₁, ?_, h₃, h₄⟩
        unfold frameSize at *
        omega

/-- A jump loses nothing when no frame it passes over is free. -/
theorem freeFrames_skip (start' : ℕ) (hle : start ≤ start')
    (hskip : ∀ f, f % frameSize = 0 → start ≤ f → f < start' → f + frameSize ≤ stop →
      ¬ Disjoint (Set.Ico f (f + frameSize)) reserved) :
    freeFrames reserved start stop = freeFrames reserved start' stop := by
  apply eq_freeFrames pairwise_freeFrames
  intro f
  rw [mem_freeFrames, mem_freeFrames]
  constructor
  · rintro ⟨h₁, h₂, h₃, h₄⟩
    exact ⟨h₁, by omega, h₃, h₄⟩
  · rintro ⟨h₁, h₂, h₃, h₄⟩
    refine ⟨h₁, ?_, h₃, h₄⟩
    by_contra hlt
    exact hskip f h₁ h₂ (by omega) h₃ h₄

/-- Trimming a range to frame boundaries keeps its frames. -/
theorem freeFrames_align {start' stop' : ℕ} (hstart' : start' % frameSize = 0)
    (hstart : start ≤ start' ∧ start' < start + frameSize)
    (hstop' : stop' = stop - stop % frameSize) :
    freeFrames reserved start stop = freeFrames reserved start' stop' := by
  apply eq_freeFrames pairwise_freeFrames
  intro f
  rw [mem_freeFrames, mem_freeFrames]
  refine and_congr_right fun hf => ?_
  rw [← and_assoc, ← and_assoc]
  refine and_congr_left fun _ => ?_
  unfold frameSize at *
  omega

end FreeFrames

/-! ## Ranges of the devicetree -/

/-- The addresses in a range. -/
def AddrRange.span {space : Space} (range : AddrRange space) : Set ℕ :=
  Set.Ico range.start.asUsize range.stop.asUsize

theorem AddrRange.disjoint_span {space : Space} {r r' : AddrRange space}
    (h : r.overlaps r' = false) : Disjoint r.span r'.span := by
  rw [AddrRange.span, AddrRange.span, Set.Ico_disjoint_Ico]
  have := r.lt
  have := r'.lt
  have : ¬(r.start.asUsize < r'.stop.asUsize ∧ r'.start.asUsize < r.stop.asUsize) := by
    rw [← AddrRange.overlaps_iff, h]
    simp
  omega

theorem exists_fdtRange {address size : ℕ} (hpos : 0 < size) (hle : address + size ≤ wordMax) :
    ∃ range : PhysRange, range.start.asUsize = address ∧ range.stop.asUsize = address + size ∧
      ∀ s : σ, Returns (fdtRange address size : Exec σ ε _) s range s := by
  have ha : address ≤ wordMax := by omega
  have hs : size ≤ wordMax := by omega
  refine ⟨⟨⟨address, ha⟩, ⟨address + size, hle⟩, Nat.lt_add_of_pos_right hpos⟩, rfl, rfl,
    fun s => ?_⟩
  simp only [fdtRange, returns_bind, returns_expectSome, usizeTryFrom, dif_pos ha, dif_pos hs,
    Option.some.injEq]
  exact ⟨_, s, ⟨rfl, rfl⟩, _, s, ⟨rfl, rfl⟩, AddrRange.fromStartSize_eq_some.mpr ⟨hpos, rfl, rfl⟩, rfl⟩

/-- Two ranges with no address in common. -/
def Apart (r r' : RegRange) : Prop :=
  r.address + r.size ≤ r'.address ∨ r'.address + r'.size ≤ r.address

/-- A range that validation accepts. -/
def Representable (r : RegRange) : Prop := 0 < r.size ∧ r.address + r.size ≤ wordMax

theorem decides_compareMemoryRanges {first : PhysRange} {r r' : RegRange}
    (hstart : first.start.asUsize = r.address) (hstop : first.stop.asUsize = r.address + r.size)
    (h : Representable r') : Decides (compareMemoryRanges first r' : Exec σ _ _) fun _ =>
      Apart r r' := by
  obtain ⟨second, hs₁, hs₂, hret⟩ := exists_fdtRange (σ := σ) (ε := BootFrameAllocatorError) h.1 h.2
  have happart : Apart r r' ↔ ¬ first.overlaps second = true := by
    rw [AddrRange.overlaps_iff, Apart]
    omega
  refine decides_bind_of_returns hret ?_
  split
  · exact (decides_fail _).congr fun _ => by simp_all
  · exact (decides_pure ()).congr fun _ => by simp_all

section Validated

variable {fdt : Fdt} {t : Tree} {es : List MemoryReservation} (hv : fdt.Validated t es)

include hv

/-- One memory range is compared with all that follow it. -/
theorem decides_validateMemoryRange {r : RegRange} {rs : List RegRange} {index : ℕ}
    {it it' : MemoryRanges} (hdrop : (t.memoryRanges fdt.strings).drop index = r :: rs)
    (h₁ : Returns (MemoryRanges.next : Exec _ BootFrameAllocatorError _) it (some r) it') :
    Decides (validateMemoryRange fdt (index, it) : Exec σ _ _) fun x =>
      (∀ r' ∈ rs, Apart r r') ∧ x = .inl (index + 1, it') := by
  have hmem : ∀ r' ∈ r :: rs, Representable r' := fun r' hr =>
    hv.semantics.memoryRanges_bounds r' (List.mem_of_mem_drop (hdrop.symm ▸ hr))
  have htail : (t.memoryRanges fdt.strings).drop (index + 1) = rs := by
    rw [← List.drop_drop, hdrop, List.drop_one, List.tail_cons]
  have hlen : index + (rs.length + 1) ≤ (t.memoryRanges fdt.strings).length := by
    have := congrArg List.length hdrop
    rw [List.length_drop, List.length_cons] at this
    omega
  obtain ⟨first, hstart, hstop, hfirst⟩ := exists_fdtRange (σ := σ) (ε := BootFrameAllocatorError)
    (hmem r List.mem_cons_self).1 (hmem r List.mem_cons_self).2
  have hindex : checkedAdd index 1 = some (index + 1) := by
    have := hv.length_memoryRanges_le
    exact checkedAdd_of_le (by omega)
  obtain ⟨all, hall, hyall⟩ := hv.yields_memoryRanges (σ := σ) (ε := BootFrameAllocatorError)
  refine decides_bind_of_returns (fun s => advance_of_returns s h₁) ?_
  refine decides_bind_of_returns hfirst ?_
  rw [hindex]
  refine decides_bind_of_returns hall ?_
  obtain ⟨rest, hrest, hyrest⟩ := (hyall _).skipIter (σ := σ) (n := index + 1)
  rw [htail] at hyrest
  refine decides_bind_of_returns hrest ?_
  have := hv.length_memoryRanges_lt
  rw [foldIter_eq hyrest (by omega)]
  have hcompare : Decides (rs.foldlM (fun _ => compareMemoryRanges first) () : Exec σ _ _) fun _ =>
      ∀ r' ∈ rs, Apart r r' :=
    decides_foldlM (List.forall₂_same.mpr fun r' hr =>
      decides_compareMemoryRanges hstart hstop (hmem r' (List.mem_cons_of_mem _ hr)))
  exact (decides_bind hcompare fun _ _ => decides_pure _).congr fun _ => by simp

/-- The comparison of the ranges from the `index`-th one on. -/
theorem decides_validateLoop {rs : List RegRange} : ∀ {index fuel : ℕ} {it : MemoryRanges},
    (t.memoryRanges fdt.strings).drop index = rs →
    Yields (MemoryRanges.next : Exec _ BootFrameAllocatorError _) rs it → rs.length < fuel →
    Decides (iterate (validateMemoryRange fdt) fuel (index, it) : Exec σ _ _) fun _ =>
      rs.Pairwise Apart := by
  induction rs with
  | nil =>
    intro index fuel it _ hy hf
    obtain ⟨fuel, rfl⟩ : ∃ n, fuel = n + 1 := ⟨fuel - 1, by omega⟩
    obtain ⟨it', h₁, -⟩ := hy
    refine (decides_of_returns (a := ()) fun s => ?_).congr fun _ => by simp
    refine returns_iterate_succ.mpr (.inr (returns_bind.mpr ⟨_, s, advance_of_returns s h₁, ?_⟩))
    exact returns_pure.mpr ⟨rfl, rfl⟩
  | cons r rs ih =>
    intro index fuel it hdrop hy hf
    rw [List.length_cons] at hf
    obtain ⟨fuel, rfl⟩ : ∃ n, fuel = n + 1 := ⟨fuel - 1, by omega⟩
    obtain ⟨it', h₁, h₂⟩ := hy
    have htail : (t.memoryRanges fdt.strings).drop (index + 1) = rs := by
      rw [← List.drop_drop, hdrop, List.drop_one, List.tail_cons]
    refine (decides_bind (decides_validateMemoryRange hv hdrop h₁)
      (Q := fun _ _ => rs.Pairwise Apart) ?_).congr fun _ => by simp [List.pairwise_cons]
    rintro _ ⟨-, rfl⟩
    exact ih htail h₂ (by omega)

/-- **Construction** succeeds exactly when the memory ranges are pairwise apart. -/
theorem decides_validateMemoryRanges : Decides (validateMemoryRanges fdt : Exec σ _ _) fun _ =>
    (t.memoryRanges fdt.strings).Pairwise Apart := by
  obtain ⟨it, hit, hy⟩ := hv.yields_memoryRanges (σ := σ) (ε := BootFrameAllocatorError)
  exact decides_bind_of_returns hit (decides_validateLoop hv rfl (hy _) hv.length_memoryRanges_lt)

theorem returns_claim {kernel dtb : PhysRange} {allocator : BootFrameAllocator}
    {claimed claimed' : Bool}
    (h : Returns (BootFrameAllocator.claim fdt kernel dtb) claimed allocator claimed') :
    (t.memoryRanges fdt.strings).Pairwise Apart ∧ ∃ it, allocator = ⟨fdt, it, none, kernel, dtb⟩ ∧
      ∀ ε : Type, Yields (MemoryRanges.next : Exec _ ε _) (t.memoryRanges fdt.strings) it := by
  obtain ⟨it, hit, hy⟩ := hv.yields_memoryRanges (σ := Bool) (ε := BootFrameAllocatorError)
  simp only [BootFrameAllocator.claim, returns_bind, returns_get] at h
  obtain ⟨_, s₁, hvalidate, flag, _, ⟨rfl, rfl⟩, h⟩ := h
  obtain ⟨hpair, rfl⟩ := (decides_validateMemoryRanges hv).returns_iff.mp hvalidate
  split at h
  · simp at h
  simp only [returns_bind, returns_pure] at h
  obtain ⟨_, s₂, -, it', _, hit', rfl, -⟩ := h
  obtain ⟨rfl, -⟩ := hit'.unique (hit s₂)
  exact ⟨hpair, it', rfl, hy⟩

/-- The first claim succeeds when the memory ranges are apart. -/
theorem exists_claim (hpair : (t.memoryRanges fdt.strings).Pairwise Apart) (kernel dtb : PhysRange) :
    ∃ allocator, Returns (BootFrameAllocator.claim fdt kernel dtb) false allocator true := by
  obtain ⟨it, hit, -⟩ := hv.yields_memoryRanges (σ := Bool) (ε := BootFrameAllocatorError)
  have hvalidate : Returns (validateMemoryRanges fdt) false () false :=
    (decides_validateMemoryRanges hv).returns_iff.mpr ⟨hpair, rfl⟩
  exact ⟨⟨fdt, it, none, kernel, dtb⟩, returns_bind.mpr ⟨(), false, hvalidate, returns_bind.mpr
    ⟨false, false, rfl, returns_bind.mpr ⟨(), true, rfl, returns_bind.mpr ⟨it, true, hit true, rfl⟩⟩⟩⟩⟩

end Validated

/-! ## Reservations -/

/-- The addresses of a range of the devicetree. -/
def extent (address size : ℕ) : Set ℕ := Set.Ico address (address + size)

/-- Everything that must not be allocated. -/
def reservedMemory (kernel dtb : PhysRange) (entries : List MemoryReservation)
    (ranges : List RegRange) : Set ℕ :=
  {x | x ∈ kernel.span ∨ x ∈ dtb.span ∨ (∃ e ∈ entries, x ∈ extent e.address e.size) ∨
    ∃ r ∈ ranges, x ∈ extent r.address r.size}

/-- What a search for a reservation that overlaps the candidate has to return. -/
def SearchResult (candidate : PhysRange) (reserved : Set ℕ) : Option PhysRange → Prop
  | some r => candidate.overlaps r = true ∧ r.span ⊆ reserved
  | none => Disjoint candidate.span reserved

theorem searchResult_of_range (candidate range : PhysRange) :
    SearchResult candidate range.span (if candidate.overlaps range then some range else none) := by
  split
  · exact ⟨by assumption, Set.Subset.rfl⟩
  · rename_i h
    exact AddrRange.disjoint_span (by simpa using h)

/-- The comparison of the candidate with one reservation. -/
theorem returns_overlappingRange (candidate : PhysRange) {address size : ℕ} (hpos : 0 < size)
    (hle : address + size ≤ wordMax) (s : σ) : ∃ o,
    Returns (BootFrameAllocator.overlappingRange candidate address size : Exec σ ε _) s o s ∧
      SearchResult candidate (extent address size) o := by
  obtain ⟨range, hstart, hstop, hret⟩ := exists_fdtRange (σ := σ) (ε := ε) hpos hle
  refine ⟨_, returns_bind.mpr ⟨range, s, hret s, returns_pure.mpr ⟨rfl, rfl⟩⟩, ?_⟩
  rw [extent, ← hstop, ← hstart]
  exact searchResult_of_range candidate range

section Search

variable {fdt : Fdt} {t : Tree} {es : List MemoryReservation} (hv : fdt.Validated t es)

include hv

theorem returns_searchEntry (candidate : PhysRange) {e : MemoryReservation} (he : e ∈ es) (s : σ) :
    ∃ o, Returns (if e.size = 0 then pure none
        else BootFrameAllocator.overlappingRange candidate e.address e.size : Exec σ ε _) s o s ∧
      SearchResult candidate (extent e.address e.size) o := by
  split
  · rename_i hzero
    refine ⟨none, returns_pure.mpr ⟨rfl, rfl⟩, ?_⟩
    rw [extent, hzero]
    simp [SearchResult]
  · exact returns_overlappingRange candidate (by omega) (hv.entries e he).1 s

theorem returns_searchRange (candidate : PhysRange) {r : RegRange}
    (hr : r ∈ t.reservedRanges fdt.strings) (s : σ) :
    ∃ o, Returns (BootFrameAllocator.overlappingRange candidate r.address r.size : Exec σ ε _)
        s o s ∧ SearchResult candidate (extent r.address r.size) o := by
  obtain ⟨hpos, hle⟩ := hv.semantics.reservedRanges_bounds r hr
  exact returns_overlappingRange candidate hpos hle s

/-- **The search** finds a reservation that overlaps the candidate unless none does. -/
theorem returns_overlappingReservation (allocator : BootFrameAllocator)
    (hfdt : allocator.fdt = fdt) (candidate : PhysRange) (s : σ) :
    ∃ o, Returns (allocator.overlappingReservation candidate : Exec σ ε _) s o s ∧
      SearchResult candidate (reservedMemory allocator.kernel allocator.dtb es
        (t.reservedRanges fdt.strings)) o := by
  subst hfdt
  unfold BootFrameAllocator.overlappingReservation
  split
  · exact ⟨_, returns_pure.mpr ⟨rfl, rfl⟩, by assumption, fun x hx => .inl hx⟩
  split
  · exact ⟨_, returns_pure.mpr ⟨rfl, rfl⟩, by assumption, fun x hx => .inr (.inl hx)⟩
  rename_i hkernel hdtb
  rcases (hv.yields_memoryReservations (ε := ε)).findSomeIter (s := s) hv.length_entries_lt
      (fun e he => returns_searchEntry hv candidate he s) with
    ⟨e, he, r, hr, hret⟩ | ⟨hentries, hret⟩
  · exact ⟨some r, returns_bind.mpr ⟨_, s, hret, returns_pure.mpr ⟨rfl, rfl⟩⟩, hr.1,
      fun x hx => .inr (.inr (.inl ⟨e, he, hr.2 hx⟩))⟩
  obtain ⟨it, hit, hy⟩ := hv.yields_reservedMemoryRanges (σ := σ) (ε := ε)
  rcases hy.findSomeIter (s := s) hv.length_reservedRanges_lt
      (fun r hr => returns_searchRange hv candidate hr s) with
    ⟨e, he, r, hr, hret'⟩ | ⟨hranges, hret'⟩
  · exact ⟨some r, returns_bind.mpr ⟨_, s, hret, returns_bind.mpr ⟨it, s, hit s, hret'⟩⟩, hr.1,
      fun x hx => .inr (.inr (.inr ⟨e, he, hr.2 hx⟩))⟩
  refine ⟨none, returns_bind.mpr ⟨_, s, hret, returns_bind.mpr ⟨it, s, hit s, hret'⟩⟩, ?_⟩
  -- nothing in the four kinds of reservations overlaps
  refine Set.disjoint_left.mpr fun x hx hres => ?_
  rcases hres with h | h | ⟨e, he, h⟩ | ⟨r, hr, h⟩
  · exact Set.disjoint_left.mp (AddrRange.disjoint_span (by simpa using hkernel)) hx h
  · exact Set.disjoint_left.mp (AddrRange.disjoint_span (by simpa using hdtb)) hx h
  · exact Set.disjoint_left.mp (hentries e he) hx h
  · exact Set.disjoint_left.mp (hranges r hr) hx h

end Search

/-! ## The scan -/

namespace BootFrameAllocator

/-- The free frames of the memory ranges, range by range. -/
noncomputable def freeOf (reserved : Set ℕ) (rs : List RegRange) : List ℕ :=
  rs.flatMap fun r => freeFrames reserved r.address (r.address + r.size)

/-- The free frames in the rest of the current range. -/
noncomputable def pending (reserved : Set ℕ) : Option CurrentMemoryRange → List ℕ
  | none => []
  | some c => freeFrames reserved c.cursor.asUsize c.stop.asUsize

/-- The rest of a range has aligned ends and room for a frame. -/
structure WellFormed (c : CurrentMemoryRange) : Prop where
  cursor_mod : c.cursor.asUsize % frameSize = 0
  stop_mod : c.stop.asUsize % frameSize = 0
  lt : c.cursor.asUsize < c.stop.asUsize

/-- What an allocator has still to scan: the current range and the ranges `rs`. -/
structure Ahead (ε : Type) (fdt : Fdt) (kernel dtb : PhysRange) (rs : List RegRange)
    (a : BootFrameAllocator) : Prop where
  fdt_eq : a.fdt = fdt
  kernel_eq : a.kernel = kernel
  dtb_eq : a.dtb = dtb
  yields : Yields (MemoryRanges.next : Exec _ ε _) rs a.memoryRanges
  bounds : ∀ r ∈ rs, Representable r
  current : ∀ c, a.current = some c → WellFormed c

/-- An allocator with nothing left to scan. -/
structure Done (ε : Type) (a : BootFrameAllocator) : Prop where
  current : a.current = none
  next : Returns (MemoryRanges.next : Exec _ ε _) a.memoryRanges none a.memoryRanges

variable {fdt : Fdt} {kernel dtb : PhysRange} {reserved : Set ℕ}

theorem returns_nextRange {a : BootFrameAllocator} {x : Option RegRange} {it : MemoryRanges}
    (h : Returns (MemoryRanges.next : Exec _ ε _) a.memoryRanges x it) :
    Returns (zoom memoryRanges (fun it (a : BootFrameAllocator) => { a with memoryRanges := it })
      (MemoryRanges.next : Exec _ ε _)) a x { a with memoryRanges := it } :=
  returns_zoom.mpr ⟨it, h, rfl⟩

/-- A round over a range leaves the loop with a current range that has the same free frames, or
goes on because the range has none. -/
theorem returns_advanceRound (reserved : Set ℕ) {a : BootFrameAllocator} {r : RegRange}
    {it : MemoryRanges} (hb : Representable r)
    (h : Returns (MemoryRanges.next : Exec _ ε _) a.memoryRanges (some r) it) :
    (∃ c, WellFormed c ∧ pending reserved (some c) =
        freeFrames reserved r.address (r.address + r.size) ∧
      Returns (advanceRound () : Exec _ ε _) a (.inr true)
        { a with memoryRanges := it, current := some c }) ∨
    freeFrames reserved r.address (r.address + r.size) = [] ∧
      Returns (advanceRound () : Exec _ ε _) a (.inl ()) { a with memoryRanges := it } := by
  obtain ⟨range, hstart, hstop, hret⟩ := exists_fdtRange (σ := BootFrameAllocator) (ε := ε) hb.1 hb.2
  have hround : ∀ {x a'}, Returns (match alignUp range.start with
      | none => pure (.inl ())
      | some start =>
        let stop := alignDown range.stop
        if start.asUsize ≥ stop.asUsize then pure (.inl ())
        else do
          modify fun a => { a with current := some ⟨start, stop⟩ }
          pure (.inr true) : Exec BootFrameAllocator ε (Unit ⊕ Bool))
        { a with memoryRanges := it } x a' → Returns (advanceRound () : Exec _ ε _) a x a' :=
    fun hx => returns_bind.mpr ⟨_, _, returns_nextRange h, returns_bind.mpr ⟨_, _, hret _, hx⟩⟩
  cases hup : alignUp range.start with
  | none =>
    rw [hup] at hround
    have hlt := lt_of_alignUp_eq_none hup
    refine .inr ⟨?_, hround (returns_pure.mpr ⟨rfl, rfl⟩)⟩
    refine freeFrames_of_le ?_
    have := hb.2
    omega
  | some start =>
    rw [hup] at hround
    obtain ⟨hmod, hle, hlt⟩ := alignUp_eq_some hup
    have halign : freeFrames reserved r.address (r.address + r.size) =
        freeFrames reserved start.asUsize (alignDown range.stop).asUsize := by
      rw [← hstop, ← hstart]
      exact freeFrames_align hmod ⟨hle, hlt⟩ rfl
    by_cases hge : start.asUsize ≥ (alignDown range.stop).asUsize
    · refine .inr ⟨?_, hround (by simp only [if_pos hge]; exact returns_pure.mpr ⟨rfl, rfl⟩)⟩
      rw [halign]
      refine freeFrames_of_le ?_
      unfold frameSize
      omega
    · refine .inl ⟨⟨start, alignDown range.stop⟩, ⟨hmod, ?_, Nat.lt_of_not_le hge⟩, halign.symm, ?_⟩
      · change (range.stop.asUsize - range.stop.asUsize % frameSize) % frameSize = 0
        unfold frameSize
        omega
      · refine hround ?_
        simp only [if_neg hge, returns_bind, returns_modify, returns_pure]
        exact ⟨(), _, rfl, trivial, rfl⟩

/-- **The next range.** The allocator moves to the next range with a complete frame, or finds that
no range has one. -/
theorem returns_advance (reserved : Set ℕ) {rs : List RegRange} :
    ∀ {a : BootFrameAllocator} {fuel : ℕ}, Ahead ε fdt kernel dtb rs a → a.current = none →
      rs.length < fuel →
      (∃ a' rs', Ahead ε fdt kernel dtb rs' a' ∧ rs'.length < rs.length ∧ a'.current.isSome ∧
        freeOf reserved rs = pending reserved a'.current ++ freeOf reserved rs' ∧
        Returns (iterate advanceRound fuel () : Exec _ ε _) a true a') ∨
      (freeOf reserved rs = [] ∧
        ∃ a', Done ε a' ∧ a'.fdt = fdt ∧
          Returns (iterate advanceRound fuel () : Exec _ ε _) a false a') := by
  induction rs with
  | nil =>
    intro a fuel h hnone hf
    obtain ⟨fuel, rfl⟩ : ∃ n, fuel = n + 1 := ⟨fuel - 1, by omega⟩
    obtain ⟨it, h₁, h₂⟩ := h.yields
    refine .inr ⟨rfl, { a with memoryRanges := it }, ⟨hnone, h₂⟩, h.fdt_eq, ?_⟩
    refine returns_iterate_succ.mpr (.inr (returns_bind.mpr ⟨_, _, returns_nextRange h₁, ?_⟩))
    exact returns_pure.mpr ⟨rfl, rfl⟩
  | cons r rs ih =>
    intro a fuel h hnone hf
    rw [List.length_cons] at hf
    obtain ⟨fuel, rfl⟩ : ∃ n, fuel = n + 1 := ⟨fuel - 1, by omega⟩
    obtain ⟨it, h₁, h₂⟩ := h.yields
    obtain ⟨hb, hbs⟩ := List.forall_mem_cons.mp h.bounds
    have hfree : freeOf reserved (r :: rs) =
      freeFrames reserved r.address (r.address + r.size) ++ freeOf reserved rs := List.flatMap_cons
    rcases returns_advanceRound reserved hb h₁ with ⟨c, hc, hp, hret⟩ | ⟨hnil, hret⟩
    · refine .inl ⟨{ a with memoryRanges := it, current := some c }, rs,
        ⟨h.fdt_eq, h.kernel_eq, h.dtb_eq, h₂, hbs, ?_⟩, Nat.lt_succ_self _, rfl, ?_,
        returns_iterate_succ.mpr (.inr hret)⟩
      · intro c' hc'
        rwa [← Option.some.inj hc']
      · rw [hfree, hp]
    · have h' : Ahead ε fdt kernel dtb rs { a with memoryRanges := it } :=
        ⟨h.fdt_eq, h.kernel_eq, h.dtb_eq, h₂, hbs, h.current⟩
      rw [hnil, List.nil_append] at hfree
      rw [hfree]
      rcases ih h' hnone (show rs.length < fuel by omega) with
        ⟨a', rs', ha, hlen, hsome, heq, hr⟩ | ⟨heq, a', ha, hfdt, hr⟩
      · exact .inl ⟨a', rs', ha, by rw [List.length_cons]; omega, hsome, heq,
          returns_iterate_succ.mpr (.inl ⟨(), _, hret, hr⟩)⟩
      · exact .inr ⟨heq, a', ha, hfdt, returns_iterate_succ.mpr (.inl ⟨(), _, hret, hr⟩)⟩

/-- How much of the current range is left. -/
def remaining : Option CurrentMemoryRange → ℕ
  | none => 0
  | some c => c.stop.asUsize - c.cursor.asUsize

/-- Going on at a later frame boundary. -/
theorem resumeAt_spec (reserved : Set ℕ) {c : CurrentMemoryRange} (hc : WellFormed c)
    (next : PhysAddr) (hmod : next.asUsize % frameSize = 0)
    (hlt : c.cursor.asUsize < next.asUsize) :
    (∀ c', resumeAt next c.stop = some c' → WellFormed c') ∧
      pending reserved (resumeAt next c.stop) = freeFrames reserved next.asUsize c.stop.asUsize ∧
      remaining (resumeAt next c.stop) < remaining (some c) := by
  have := hc.lt
  unfold resumeAt
  split
  · refine ⟨by simp, (freeFrames_of_le ?_).symm, ?_⟩
    · unfold frameSize
      omega
    · simp only [remaining]
      omega
  · rename_i hnext
    refine ⟨?_, rfl, ?_⟩
    · intro c' hc'
      obtain rfl := Option.some.inj hc'
      exact ⟨hmod, hc.stop_mod, Nat.lt_of_not_le hnext⟩
    · simp only [remaining]
      omega

/-- A frame that a reservation ends in or behind is not free. -/
theorem not_free_of_overlap {start f : ℕ} {r : PhysRange} (hr : r.span ⊆ reserved)
    (hstart : r.start.asUsize < start + frameSize) (hle : start ≤ f) (hlt : f < r.stop.asUsize) :
    ¬ Disjoint (Set.Ico f (f + frameSize)) reserved := by
  intro hdis
  have := r.lt
  have hmem : max f r.start.asUsize ∈ Set.Ico f (f + frameSize) :=
    ⟨le_max_left _ _, max_lt (by unfold frameSize; omega) (by omega)⟩
  exact Set.disjoint_left.mp hdis hmem (hr ⟨le_max_right _ _, max_lt hlt this⟩)

section Scan

variable {t : Tree} {es : List MemoryReservation} (hv : fdt.Validated t es)

include hv

/-- **The candidate** is returned when it is free; otherwise the scan jumps to a later place of the
range and passes over no free frame. -/
theorem returns_tryCandidate {rs : List RegRange} {a : BootFrameAllocator} {c : CurrentMemoryRange}
    (ha : Ahead ε fdt kernel dtb rs a) (hc : WellFormed c) :
    let reserved := reservedMemory kernel dtb es (t.reservedRanges fdt.strings)
    ∃ x, (∀ c', x = some c' → WellFormed c') ∧
      ((∃ frame : PhysFrame,
          pending reserved (some c) = frame.start.asUsize :: pending reserved x ∧
          Returns (tryCandidate a c : Exec _ ε _) a (.inr (some ⟨frame⟩)) { a with current := x }) ∨
        (pending reserved (some c) = pending reserved x ∧ remaining x < remaining (some c) ∧
          Returns (tryCandidate a c : Exec _ ε _) a (.inl ()) { a with current := x })) := by
  intro reserved
  obtain ⟨hmod, hstop, hlt⟩ := hc
  have hroom : c.cursor.asUsize + frameSize ≤ c.stop.asUsize := by
    unfold frameSize at *
    omega
  have hfits : c.cursor.asUsize + frameSize ≤ wordMax := hroom.trans c.stop.isWord
  let frame : PhysFrame := ⟨c.cursor, hmod, hfits⟩
  let range : PhysRange := ⟨c.cursor, ⟨_, hfits⟩, Nat.lt_add_of_pos_right (by decide)⟩
  obtain ⟨o, ho, hsearch⟩ := returns_overlappingReservation (σ := BootFrameAllocator) (ε := ε) hv a
    ha.fdt_eq range a
  rw [ha.kernel_eq, ha.dtb_eq] at hsearch
  have hround : ∀ {x a'}, Returns (match o with
      | some reserved =>
        match alignUp reserved.stop with
        | none => do
          modify fun a => { a with current := none }
          pure (.inl ())
        | some next => do
          modify fun a => { a with current := resumeAt next c.stop }
          pure (.inl ())
      | none => do
        modify fun a => { a with current := resumeAt range.stop c.stop }
        pure (.inr (some ⟨frame⟩)) : Exec BootFrameAllocator ε (Unit ⊕ Option AllocatedFrame))
        a x a' → Returns (tryCandidate a c : Exec _ ε _) a x a' := fun hx =>
    returns_bind.mpr ⟨frame, a, returns_expectSome.mpr ⟨dif_pos ⟨hmod, hfits⟩, rfl⟩,
      returns_bind.mpr ⟨range, a, returns_expectSome.mpr
        ⟨AddrRange.fromStartSize_eq_some.mpr ⟨by decide, rfl, rfl⟩, rfl⟩,
        returns_bind.mpr ⟨o, a, ho, hx⟩⟩⟩
  cases o with
  | none =>
    obtain ⟨hwf, hpend, -⟩ := resumeAt_spec reserved ⟨hmod, hstop, hlt⟩ range.stop
      ((Nat.add_mod_right _ _).trans hmod) (Nat.lt_add_of_pos_right (by decide))
    refine ⟨_, hwf, .inl ⟨frame, ?_, hround ?_⟩⟩
    · rw [hpend]
      exact freeFrames_cons hmod hroom hsearch
    · simp only [returns_bind, returns_modify, returns_pure]
      exact ⟨(), _, rfl, trivial, rfl⟩
  | some r =>
    obtain ⟨hover, hsub⟩ := hsearch
    obtain ⟨hcr, hrc⟩ := AddrRange.overlaps_iff.mp hover
    cases hup : alignUp r.stop with
    | none =>
      -- the rest of the range lies inside the reservation
      simp only [hup] at hround
      have hend := lt_of_alignUp_eq_none hup
      refine ⟨none, by simp, .inr ⟨?_, ?_, hround ?_⟩⟩
      · refine (freeFrames_skip c.stop.asUsize hlt.le fun f hf hle _ hfs => ?_).trans
          (freeFrames_of_le (by unfold frameSize; omega))
        refine not_free_of_overlap hsub hrc hle ?_
        have := c.stop.isWord
        unfold frameSize at *
        omega
      · simp only [remaining]
        omega
      · simp only [returns_bind, returns_modify, returns_pure]
        exact ⟨(), _, rfl, trivial, rfl⟩
    | some next =>
      simp only [hup] at hround
      obtain ⟨hnmod, hnle, hnlt⟩ := alignUp_eq_some hup
      have hcn : c.cursor.asUsize < next.asUsize := lt_of_lt_of_le hcr hnle
      obtain ⟨hwf, hpend, hrem⟩ := resumeAt_spec reserved ⟨hmod, hstop, hlt⟩ next hnmod hcn
      refine ⟨_, hwf, .inr ⟨?_, hrem, hround ?_⟩⟩
      · rw [hpend]
        refine freeFrames_skip _ hcn.le fun f hf hle hfn _ => not_free_of_overlap hsub hrc hle ?_
        unfold frameSize at *
        omega
      · simp only [returns_bind, returns_modify, returns_pure]
        exact ⟨(), _, rfl, trivial, rfl⟩

/-- The free frames an allocator has still to return. -/
noncomputable def freeAhead (reserved : Set ℕ) (a : BootFrameAllocator) (rs : List RegRange) :
    List ℕ :=
  pending reserved a.current ++ freeOf reserved rs

/-- A measure for the rounds of one call. -/
def workAhead (a : BootFrameAllocator) (rs : List RegRange) : ℕ :=
  rs.length * (wordMax + 1) + remaining a.current

omit hv in
theorem remaining_le (x : Option CurrentMemoryRange) : remaining x ≤ wordMax := by
  cases x with
  | none => exact Nat.zero_le _
  | some c => exact (Nat.sub_le _ _).trans c.stop.isWord

omit hv in
theorem returns_advanceMemoryRange_done {a : BootFrameAllocator} (h : Done ε a) :
    Returns (advanceMemoryRange : Exec _ ε _) a false a := by
  refine returns_bind.mpr ⟨a, a, returns_get.mpr ⟨rfl, rfl⟩, ?_⟩
  refine returns_iterate_succ.mpr (.inr (returns_bind.mpr ⟨none, a, returns_nextRange h.next, ?_⟩))
  exact returns_pure.mpr ⟨rfl, rfl⟩

omit hv in
theorem returns_allocateRound_done {a a' : BootFrameAllocator} (h : a.current = none)
    (hadv : Returns (advanceMemoryRange : Exec _ ε _) a false a') :
    Returns (allocateRound () : Exec _ ε _) a (.inr none) a' := by
  refine returns_bind.mpr ⟨false, a', returns_bind.mpr ⟨a, a, returns_get.mpr ⟨rfl, rfl⟩, ?_⟩, ?_⟩
  · rw [h]
    exact hadv
  · exact returns_pure.mpr ⟨rfl, rfl⟩

omit hv in
/-- A round looks at the candidate of the range it stands in, which it may have to enter first. -/
theorem returns_allocateRound_candidate {a a' a'' : BootFrameAllocator} {c : CurrentMemoryRange}
    {x : Unit ⊕ Option AllocatedFrame}
    (hready : a.current.isSome ∧ a' = a ∨
      a.current = none ∧ Returns (advanceMemoryRange : Exec _ ε _) a true a')
    (hc : a'.current = some c) (h : Returns (tryCandidate a' c : Exec _ ε _) a' x a'') :
    Returns (allocateRound () : Exec _ ε _) a x a'' := by
  refine returns_bind.mpr ⟨true, a', returns_bind.mpr ⟨a, a, returns_get.mpr ⟨rfl, rfl⟩, ?_⟩, ?_⟩
  · rcases hready with ⟨hsome, rfl⟩ | ⟨hnone, hadv⟩
    · rw [Option.isNone_eq_false_iff.mpr hsome]
      exact returns_pure.mpr ⟨rfl, rfl⟩
    · rw [hnone]
      exact hadv
  · refine returns_bind.mpr ⟨a', a', returns_get.mpr ⟨rfl, rfl⟩, ?_⟩
    rw [hc]
    exact h

/-- **One round** returns the next free frame, or goes on closer to it, or finds that there is
none. -/
theorem returns_allocateRound {rs : List RegRange} {a : BootFrameAllocator}
    (ha : Ahead ε fdt kernel dtb rs a) (hlen : rs.length < fdt.bound) :
    let reserved := reservedMemory kernel dtb es (t.reservedRanges fdt.strings)
    (∃ a' rs', ∃ frame : PhysFrame, Ahead ε fdt kernel dtb rs' a' ∧ rs'.length ≤ rs.length ∧
        freeAhead reserved a rs = frame.start.asUsize :: freeAhead reserved a' rs' ∧
        Returns (allocateRound () : Exec _ ε _) a (.inr (some ⟨frame⟩)) a') ∨
      (∃ a' rs', Ahead ε fdt kernel dtb rs' a' ∧ rs'.length ≤ rs.length ∧
        freeAhead reserved a rs = freeAhead reserved a' rs' ∧ workAhead a' rs' < workAhead a rs ∧
        Returns (allocateRound () : Exec _ ε _) a (.inl ()) a') ∨
      freeAhead reserved a rs = [] ∧ ∃ a', Done ε a' ∧ a'.fdt = fdt ∧
        Returns (allocateRound () : Exec _ ε _) a (.inr none) a' := by
  intro reserved
  -- enter a range, then look at its first candidate
  have henter : (∃ a' rs', ∃ c, Ahead ε fdt kernel dtb rs' a' ∧ a'.current = some c ∧
        rs'.length ≤ rs.length ∧ freeAhead reserved a rs = freeAhead reserved a' rs' ∧
        workAhead a' rs' ≤ workAhead a rs ∧
        ∀ x a'', Returns (tryCandidate a' c : Exec _ ε _) a' x a'' →
          Returns (allocateRound () : Exec _ ε _) a x a'') ∨
      freeAhead reserved a rs = [] ∧ ∃ a', Done ε a' ∧ a'.fdt = fdt ∧
        Returns (allocateRound () : Exec _ ε _) a (.inr none) a' := by
    cases hcur : a.current with
    | some c =>
      exact .inl ⟨a, rs, c, ha, hcur, le_rfl, rfl, le_rfl, fun x a'' h =>
        returns_allocateRound_candidate (.inl ⟨by rw [hcur]; rfl, rfl⟩) hcur h⟩
    | none =>
      have hfuel : rs.length < a.fdt.bound := by rw [ha.fdt_eq]; exact hlen
      have hadv : ∀ {b a'}, Returns (iterate advanceRound a.fdt.bound () : Exec _ ε _) a b a' →
          Returns (advanceMemoryRange : Exec _ ε _) a b a' := fun h =>
        returns_bind.mpr ⟨a, a, returns_get.mpr ⟨rfl, rfl⟩, h⟩
      have hfree : freeAhead reserved a rs = freeOf reserved rs := by
        rw [freeAhead, hcur]
        rfl
      rcases returns_advance reserved ha hcur hfuel with
        ⟨a', rs', ha', hlt, hsome, heq, hr⟩ | ⟨hnil, a', hdone, hfdt, hr⟩
      · obtain ⟨c, hc⟩ := Option.isSome_iff_exists.mp hsome
        refine .inl ⟨a', rs', c, ha', hc, hlt.le, hfree.trans heq, ?_, fun x a'' h =>
          returns_allocateRound_candidate (.inr ⟨hcur, hadv hr⟩) hc h⟩
        have := remaining_le a'.current
        have := Nat.mul_le_mul_right (wordMax + 1) (Nat.succ_le_of_lt hlt)
        rw [Nat.succ_mul] at this
        unfold workAhead
        omega
      · exact .inr ⟨hfree.trans hnil, a', hdone, hfdt, returns_allocateRound_done hcur (hadv hr)⟩
  rcases henter with ⟨a', rs', c, ha', hc, hle, hfree, hwork, hround⟩ | hdone
  · obtain ⟨x, hwf, hx⟩ := returns_tryCandidate hv ha' (ha'.current c hc)
    have hnext : Ahead ε fdt kernel dtb rs' { a' with current := x } :=
      ⟨ha'.fdt_eq, ha'.kernel_eq, ha'.dtb_eq, ha'.yields, ha'.bounds, hwf⟩
    rw [freeAhead, freeAhead, hc] at hfree
    rcases hx with ⟨frame, hp, hr⟩ | ⟨hp, hrem, hr⟩
    · refine .inl ⟨_, rs', frame, hnext, hle, ?_, hround _ _ hr⟩
      rw [freeAhead, hfree, hp, List.cons_append]
      rfl
    · refine .inr (.inl ⟨_, rs', hnext, hle, ?_, ?_, hround _ _ hr⟩)
      · rw [freeAhead, hfree, hp]
        rfl
      · refine lt_of_lt_of_le ?_ hwork
        rw [workAhead, workAhead, hc]
        exact Nat.add_lt_add_left hrem _
  · exact .inr (.inr hdone)

/-- **One call** returns the next free frame, or nothing when there is none. -/
theorem returns_allocateLoop {fuel : ℕ} : ∀ {rs : List RegRange} {a : BootFrameAllocator},
    Ahead ε fdt kernel dtb rs a → rs.length < fdt.bound → workAhead a rs < fuel →
    let reserved := reservedMemory kernel dtb es (t.reservedRanges fdt.strings)
    (∃ a' rs', ∃ frame : PhysFrame, Ahead ε fdt kernel dtb rs' a' ∧ rs'.length ≤ rs.length ∧
        freeAhead reserved a rs = frame.start.asUsize :: freeAhead reserved a' rs' ∧
        Returns (iterate allocateRound fuel () : Exec _ ε _) a (some ⟨frame⟩) a') ∨
      freeAhead reserved a rs = [] ∧ ∃ a', Done ε a' ∧ a'.fdt = fdt ∧
        Returns (iterate allocateRound fuel () : Exec _ ε _) a none a' := by
  induction fuel with
  | zero => exact fun _ _ h => absurd h (Nat.not_lt_zero _)
  | succ fuel ih =>
    intro rs a ha hlen hwork reserved
    rcases returns_allocateRound hv ha hlen with
      ⟨a', rs', frame, ha', hle, hfree, hr⟩ | ⟨a', rs', ha', hle, hfree, hlt, hr⟩ |
        ⟨hnil, a', hdone, hfdt, hr⟩
    · exact .inl ⟨a', rs', frame, ha', hle, hfree, returns_iterate_succ.mpr (.inr hr)⟩
    · have hgo : ∀ {x a''}, Returns (iterate allocateRound fuel () : Exec _ ε _) a' x a'' →
          Returns (iterate allocateRound (fuel + 1) () : Exec _ ε _) a x a'' := fun h =>
        returns_iterate_succ.mpr (.inl ⟨(), a', hr, h⟩)
      rcases ih ha' (hle.trans_lt hlen) (by omega) with
        ⟨a'', rs'', frame, ha'', hle', hfree', hr'⟩ | ⟨hnil, a'', hdone, hfdt, hr'⟩
      · exact .inl ⟨a'', rs'', frame, ha'', hle'.trans hle, hfree.trans hfree', hgo hr'⟩
      · exact .inr ⟨hfree.trans hnil, a'', hdone, hfdt, hgo hr'⟩
    · exact .inr ⟨hnil, a', hdone, hfdt, returns_iterate_succ.mpr (.inr hr)⟩

omit hv in
theorem returns_allocate {a a' : BootFrameAllocator} {x : Option AllocatedFrame}
    (h : Returns (iterate allocateRound a.bound () : Exec _ ε _) a x a') :
    Returns (allocate : Exec _ ε _) a x a' :=
  returns_bind.mpr ⟨a, a, returns_get.mpr ⟨rfl, rfl⟩, h⟩

omit hv in
theorem workAhead_lt (rs : List RegRange) {a : BootFrameAllocator} (hfdt : a.fdt = fdt)
    (hlen : rs.length < fdt.bound) : workAhead a rs < a.bound := by
  have := remaining_le a.current
  have := Nat.mul_le_mul_right (wordMax + 1) (Nat.succ_le_of_lt hlen)
  rw [Nat.succ_mul] at this
  unfold workAhead BootFrameAllocator.bound
  rw [hfdt]
  omega

omit hv in
theorem returns_allocate_done {a : BootFrameAllocator} (h : Done ε a) :
    Returns (allocate : Exec _ ε _) a none a := by
  have hround := returns_allocateRound_done h.current (returns_advanceMemoryRange_done h)
  obtain ⟨n, hn⟩ : ∃ n, a.bound = n + 1 :=
    ⟨a.bound - 1, by have := workAhead_lt [] (a := a) rfl (Nat.succ_pos _); omega⟩
  refine returns_allocate ?_
  rw [hn]
  exact returns_iterate_succ.mpr (.inr hround)

/-- **All calls** return the free frames ahead, in order, and then nothing. -/
theorem yields_allocate {free : List ℕ} : ∀ {rs : List RegRange} {a : BootFrameAllocator},
    Ahead ε fdt kernel dtb rs a → rs.length < fdt.bound →
    freeAhead (reservedMemory kernel dtb es (t.reservedRanges fdt.strings)) a rs = free →
    ∃ frames : List AllocatedFrame, frames.map (·.startAddress.asUsize) = free ∧
      Yields (allocate : Exec _ ε _) frames a := by
  induction free with
  | nil =>
    intro rs a ha hlen hfree
    rcases returns_allocateLoop hv ha hlen (workAhead_lt rs ha.fdt_eq hlen) with
      ⟨a', rs', frame, -, -, hcons, -⟩ | ⟨-, a', hdone, -, hr⟩
    · rw [hfree] at hcons
      cases hcons
    · exact ⟨[], rfl, a', returns_allocate hr, returns_allocate_done hdone⟩
  | cons f free ih =>
    intro rs a ha hlen hfree
    rcases returns_allocateLoop hv ha hlen (workAhead_lt rs ha.fdt_eq hlen) with
      ⟨a', rs', frame, ha', hle, hcons, hr⟩ | ⟨hnil, -⟩
    · obtain ⟨hf, hrest⟩ := List.cons.inj (hfree.symm.trans hcons)
      obtain ⟨frames, hmap, hy⟩ := ih ha' (hle.trans_lt hlen) hrest.symm
      refine ⟨⟨frame⟩ :: frames, ?_, a', returns_allocate hr, hy⟩
      rw [List.map_cons, hmap, hf]
      rfl
    · rw [hfree] at hnil
      cases hnil

end Scan

/-- Frames of ranges that are apart are disjoint. -/
theorem pairwise_freeOf {rs : List RegRange} (h : rs.Pairwise Apart) :
    (freeOf reserved rs).Pairwise fun f g =>
      Disjoint (Set.Ico f (f + frameSize)) (Set.Ico g (g + frameSize)) := by
  refine List.pairwise_flatMap.mpr ⟨fun r _ => ?_, h.imp fun {r r'} hr f hf g hg => ?_⟩
  · refine pairwise_freeFrames.imp_of_mem fun {f g} hf hg hlt => ?_
    have hf' := (mem_freeFrames.mp hf).1
    have hg' := (mem_freeFrames.mp hg).1
    rw [Set.Ico_disjoint_Ico]
    unfold frameSize at *
    omega
  · obtain ⟨-, hf₁, hf₂, -⟩ := mem_freeFrames.mp hf
    obtain ⟨-, hg₁, hg₂, -⟩ := mem_freeFrames.mp hg
    rw [Set.Ico_disjoint_Ico]
    unfold Apart at hr
    omega

end BootFrameAllocator

open BootFrameAllocator in
/-- **The boot allocator hands out exactly the free frames.** For an accepted devicetree and a
successful claim, the `k`-th call of `allocate` ends and returns the `k`-th free frame of the memory
ranges, and nothing when there are no more; the frames are pairwise disjoint. -/
theorem boot_allocator_eq_free {address : ℕ} {memory : List UInt8} {fdt : Fdt}
    (h : Returns (Fdt.fromPtr address memory) () fdt ()) {kernel dtb : PhysRange}
    {allocator : BootFrameAllocator} {claimed claimed' : Bool}
    (hclaim : Returns (claim fdt kernel dtb) claimed allocator claimed') :
    ∃ (ranges : List RegRange) (entries : List MemoryReservation) (static : List RegRange),
      (∃ it, Returns (fdt.memoryRanges : Exec Unit Empty _) () it () ∧
        Yields (MemoryRanges.next : Exec _ Empty _) ranges it) ∧
      Yields (MemoryReservations.next : Exec _ Empty _) entries fdt.memoryReservations ∧
      (∃ it, Returns (fdt.reservedMemoryRanges : Exec Unit Empty _) () it () ∧
        Yields (ReservedMemoryRanges.next : Exec _ Empty _) static it) ∧
      let free := ranges.flatMap fun r =>
        freeFrames (reservedMemory kernel dtb entries static) r.address (r.address + r.size)
      (∀ n, ∃ results allocator',
        Returns (times (allocate : Exec _ Empty _) n) allocator results allocator' ∧
          results.map (Option.map (·.startAddress.asUsize)) =
            (List.range n).map fun k => free[k]?) ∧
      free.Pairwise fun f g =>
        Disjoint (Set.Ico f (f + frameSize)) (Set.Ico g (g + frameSize)) := by
  obtain ⟨t, es, hv⟩ := validated_of_fromPtr h
  obtain ⟨hpair, it, rfl, hy⟩ := returns_claim hv hclaim
  obtain ⟨it₁, h₁, hy₁⟩ := hv.yields_memoryRanges (σ := Unit) (ε := Empty)
  obtain ⟨it₂, h₂, hy₂⟩ := hv.yields_reservedMemoryRanges (σ := Unit) (ε := Empty)
  refine ⟨_, es, _, ⟨it₁, h₁ (), hy₁ Empty⟩, hv.yields_memoryReservations, ⟨it₂, h₂ (), hy₂⟩, ?_,
    pairwise_freeOf hpair⟩
  intro n
  have ha : Ahead Empty fdt kernel dtb (t.memoryRanges fdt.strings) ⟨fdt, it, none, kernel, dtb⟩ :=
    ⟨rfl, rfl, rfl, hy Empty, hv.semantics.memoryRanges_bounds, by simp⟩
  obtain ⟨frames, hframes, hall⟩ := yields_allocate hv ha hv.length_memoryRanges_lt rfl
  obtain ⟨allocator', hcalls⟩ := hall.times (n := n)
  refine ⟨_, allocator', hcalls, ?_⟩
  rw [List.map_map]
  refine List.map_congr_left fun k _ => ?_
  rw [Function.comp_apply, ← List.getElem?_map, hframes]
  rfl

/-! ## A run -/

/-- The range of one page at an address. -/
def samplePage (address : ℕ) (h : address + frameSize ≤ wordMax) : PhysRange :=
  ⟨⟨address, (Nat.le_add_right _ _).trans h⟩, ⟨address + frameSize, h⟩,
    Nat.lt_add_of_pos_right (by decide)⟩

/-- The kernel in the first page of the memory. -/
def sampleKernel : PhysRange := samplePage 0x80000000 (by decide)

def sampleDtb : PhysRange := samplePage 0x90000000 (by decide)

theorem exists_sampleClaim : ∃ allocator,
    Returns (BootFrameAllocator.claim sampleFdt sampleKernel sampleDtb) false allocator true := by
  have heval : (match BootFrameAllocator.claim sampleFdt sampleKernel sampleDtb false with
      | .ok (.ok _, true) => true
      | _ => false) = true := by decide +kernel
  split at heval
  · exact ⟨_, by assumption⟩
  · cases heval

theorem boot_allocator_eq_free_sample : ∃ allocator,
    Returns (BootFrameAllocator.claim sampleFdt sampleKernel sampleDtb) false allocator true ∧
      ∀ n, ∃ results allocator',
        Returns (times (BootFrameAllocator.allocate : Exec _ Empty _) n) allocator results
          allocator' := by
  obtain ⟨allocator, hclaim⟩ := exists_sampleClaim
  obtain ⟨_, _, _, -, -, -, hcalls, -⟩ := boot_allocator_eq_free returns_sampleFdt hclaim
  refine ⟨allocator, hclaim, fun n => ?_⟩
  obtain ⟨results, allocator', hr, -⟩ := hcalls n
  exact ⟨results, allocator', hr⟩

-- the second page holds a static reservation and the fourth an entry of the reservation block
example : (match BootFrameAllocator.claim sampleFdt sampleKernel sampleDtb false with
    | .ok (.ok a, _) => match times (BootFrameAllocator.allocate : Exec _ Empty _) 3 a with
      | .ok (.ok results, _) => results.map (Option.map (·.startAddress.asUsize))
      | _ => []
    | _ => []) = [some 0x80002000, none, none] := by decide +kernel

end Barebone.Kernel

import BareboneKernel.Kernel.Memory
import Mathlib.Data.List.Nodup
import Mathlib.Order.Bounds.Defs
import Mathlib.Order.CompletePartialOrder
import Mathlib.Order.Interval.Set.Disjoint

/-!
# The kernel heap

`KernelHeap` hands out blocks downward from the end of its range. The pages behind a block are
requested one by one from a backing, which may refuse any of them.

* `KernelHeap.new`, `KernelHeap.allocate`, `KernelHeap.backTo`: the allocator;
* `recording respond`: a backing that answers as `respond` does and keeps a record;
* `Reachable respond range heap r blocks`: the heap, the record and the blocks handed out after some
  sequence of calls;
* **`kernel_heap_correct`**: what holds in every such state.
-/

set_option autoImplicit false

namespace Barebone.Kernel

open Exec Word

variable {β E : Type}

/-- Size and alignment of a request; the alignment is a power of two. -/
structure Layout where
  size : ℕ
  align : ℕ
  size_le : size ≤ wordMax
  isPowerOfTwo : ∃ k < 64, align = 2 ^ k

/-- A pointer that is not null. -/
structure NonNull where
  address : ℕ
  ne_zero : address ≠ 0

def NonNull.new (address : ℕ) : Option NonNull :=
  if h : address ≠ 0 then some ⟨address, h⟩ else none

/-- Backs one page of the heap. -/
abbrev HeapBacking (β E : Type) := VirtAddr → Exec β E Unit

inductive HeapError (E : Type) where
  | invalidRange (range : VirtRange)
  | zeroSizedAllocation
  | exhausted
  | backing (error : E)

structure KernelHeap where
  range : VirtRange
  cursor : VirtAddr
  mappedStart : VirtAddr

namespace KernelHeap

/-- Backs the page below the backed part, unless that part reaches `start`. -/
def backRound (mapPage : HeapBacking β E) (start : VirtAddr) :
    Unit → Exec (KernelHeap × β) (HeapError E) (Unit ⊕ Unit) := fun _ => do
  let s ← get
  if s.1.mappedStart.asUsize > start.asUsize then
    match s.1.mappedStart.checkedSub frameSize with
    | none => fail .exhausted
    | some page =>
      mapError .backing (zoom Prod.snd (fun b s => (s.1, b)) (mapPage page))
      modify fun s => ({ s.1 with mappedStart := page }, s.2)
      pure (.inl ())
  else pure (.inr ())

def backTo (mapPage : HeapBacking β E) (start : VirtAddr) :
    Exec (KernelHeap × β) (HeapError E) Unit := do
  let s ← get
  iterate (backRound mapPage start) (s.1.mappedStart.asUsize / frameSize + 1) ()

def new (range : VirtRange) (mapPage : HeapBacking β E) : Exec β (HeapError E) KernelHeap :=
  if range.start.asUsize = 0 ∨ range.start.asUsize % frameSize ≠ 0 ∨
      range.stop.asUsize % frameSize ≠ 0 then fail (.invalidRange range)
  else
    match range.stop.checkedSub frameSize with
    | none => fail (.invalidRange range)
    | some firstPage => do
      let r ← withLocal ⟨range, range.stop, range.stop⟩ (backTo mapPage firstPage)
      pure r.2

/-- Where the block goes: as high as its size and alignment allow. -/
def placement (heap : KernelHeap) (layout : Layout) : Option VirtAddr :=
  ((heap.cursor.checkedSub layout.size).map (·.clear (layout.align - 1))).filter
    (·.asUsize ≥ heap.range.start.asUsize)

def allocate (mapPage : HeapBacking β E) (layout : Layout) :
    Exec (KernelHeap × β) (HeapError E) NonNull :=
  if layout.size = 0 then fail .zeroSizedAllocation
  else do
    let s ← get
    match s.1.placement layout with
    | none => fail .exhausted
    | some address =>
      match NonNull.new address.asUsize with
      | none => fail .exhausted
      | some pointer =>
        backTo mapPage (address.clear (frameSize - 1))
        modify fun s => ({ s.1 with cursor := address }, s.2)
        pure pointer

end KernelHeap

/-! ## Recorded requests -/

/-- The state of a backing and its requests so far, the latest first, with their outcomes. -/
structure Record (β : Type) where
  state : β
  log : List (VirtAddr × Bool)

/-- A backing that answers every request as `respond` does. -/
def recording (respond : VirtAddr → β → Except E Unit × β) : HeapBacking (Record β) E :=
  fun page r => .ok ((respond page r.state).1,
    ⟨(respond page r.state).2, (page, (respond page r.state).1.isOk) :: r.log⟩)

namespace Record

/-- The pages requested. -/
def requested (r : Record β) : List ℕ := r.log.map (·.1.asUsize)

/-- The pages whose request has succeeded. -/
def succeeded (r : Record β) : List ℕ := (r.log.filter (·.2)).map (·.1.asUsize)

end Record

/-- A block handed out. -/
structure Block where
  address : ℕ
  size : ℕ

/-- The addresses of a block. -/
def Block.extent (block : Block) : Set ℕ := Set.Ico block.address (block.address + block.size)

/-- The states after a heap has been made for `range` and some calls of `allocate`. -/
inductive Reachable (respond : VirtAddr → β → Except E Unit × β) (range : VirtRange) :
    KernelHeap → Record β → List Block → Prop
  | new {b : β} {heap : KernelHeap} {r : Record β}
      (h : Returns (KernelHeap.new range (recording respond)) ⟨b, []⟩ heap r) :
      Reachable respond range heap r []
  | allocated {heap heap' : KernelHeap} {r r' : Record β} {blocks : List Block} {layout : Layout}
      {pointer : NonNull} (before : Reachable respond range heap r blocks)
      (h : Returns (KernelHeap.allocate (recording respond) layout) (heap, r) pointer (heap', r')) :
      Reachable respond range heap' r' (⟨pointer.address, layout.size⟩ :: blocks)
  | failed {heap heap' : KernelHeap} {r r' : Record β} {blocks : List Block} {layout : Layout}
      {e : HeapError E} (before : Reachable respond range heap r blocks)
      (h : Fails (KernelHeap.allocate (recording respond) layout) (heap, r) e (heap', r')) :
      Reachable respond range heap' r' blocks

/-! ## Invariants of a heap and its backing -/

/-- The backed part of the heap consists of pages. -/
structure KernelHeap.Paged (heap : KernelHeap) : Prop where
  start_mod : heap.range.start.asUsize % frameSize = 0
  mapped_mod : heap.mappedStart.asUsize % frameSize = 0

/-- The page below the backed part, while that part ends above `start`. -/
theorem KernelHeap.Paged.exists_page {heap : KernelHeap} {start : VirtAddr} (h : heap.Paged)
    (hmod : start.asUsize % frameSize = 0) (hgt : start.asUsize < heap.mappedStart.asUsize) :
    ∃ page, heap.mappedStart.checkedSub frameSize = some page ∧
      page.asUsize + frameSize = heap.mappedStart.asUsize ∧ start.asUsize ≤ page.asUsize := by
  have hroom : start.asUsize + frameSize ≤ heap.mappedStart.asUsize := by
    have := h.mapped_mod
    unfold frameSize at *
    omega
  obtain ⟨page, hsub, hpage⟩ :=
    Addr.exists_checkedSub ((Nat.le_add_left frameSize _).trans hroom)
  exact ⟨page, hsub, hpage, by omega⟩

/-- **An invariant of heap and backing**: it is kept whenever the page below the backed part is
requested, whether the page is backed or refused. -/
structure Kept (mapPage : HeapBacking β E) (I : KernelHeap → β → Prop) : Prop where
  paged : ∀ {heap : KernelHeap} {b : β}, I heap b → heap.Paged
  page : ∀ {heap : KernelHeap} {b : β} {page : VirtAddr}, I heap b →
    heap.range.start.asUsize ≤ page.asUsize →
    page.asUsize + frameSize = heap.mappedStart.asUsize →
    Sat (mapPage page) b fun result b' => match result with
      | .ok _ => I { heap with mappedStart := page } b'
      | .error _ => I heap b'

/-- The error of a request for the page below the backed part, in a state with the invariant `I`. -/
def PageRefused (mapPage : HeapBacking β E) (I : KernelHeap → β → Prop) (e : HeapError E) : Prop :=
  ∃ e' heap b page b', e = .backing e' ∧ I heap b ∧ heap.range.start.asUsize ≤ page.asUsize ∧
    page.asUsize + frameSize = heap.mappedStart.asUsize ∧ Fails (mapPage page) b e' b'

/-- The result of extending the backed part of `heap` down to `start`, with the invariant `I`. -/
structure BackedTo (mapPage : HeapBacking β E) (I : KernelHeap → β → Prop) (heap : KernelHeap)
    (start : ℕ) (result : Except (HeapError E) Unit) (s : KernelHeap × β) : Prop where
  range_eq : s.1.range = heap.range
  cursor_eq : s.1.cursor = heap.cursor
  invariant : I s.1 s.2
  ok : result = .ok () → s.1.mappedStart.asUsize ≤ start
  error : ∀ e, result = .error e → PageRefused mapPage I e

namespace Kept

variable {mapPage : HeapBacking β E} {I : KernelHeap → β → Prop} {heap : KernelHeap} {b : β}
  {start : VirtAddr}

/-- **One page.** A round ends the loop, or is refused the page, or backs it. -/
theorem sat_backRound (hI : Kept mapPage I) (h : I heap b) (hmod : start.asUsize % frameSize = 0)
    (hle : heap.range.start.asUsize ≤ start.asUsize) :
    Sat (KernelHeap.backRound mapPage start ()) (heap, b) fun result s =>
      s.1.range = heap.range ∧ s.1.cursor = heap.cursor ∧ I s.1 s.2 ∧
      match result with
      | .ok (.inl ()) => s.1.mappedStart.asUsize + frameSize = heap.mappedStart.asUsize
      | .ok (.inr ()) => s.1.mappedStart.asUsize ≤ start.asUsize
      | .error e => PageRefused mapPage I e := by
  refine sat_get ?_
  dsimp only
  split
  · rename_i hgt
    obtain ⟨page, hsub, hpage, hpage'⟩ := (hI.paged h).exists_page hmod hgt
    rw [hsub]
    obtain ⟨answer, b₁, hrun, hkept⟩ := hI.page h (hle.trans hpage') hpage
    have hrequest : Sat (mapPage page) b fun result b' => result = answer ∧ b' = b₁ :=
      ⟨answer, b₁, hrun, rfl, rfl⟩
    refine (Sat.mapError (Sat.zoom hrequest)).bind ?_ ?_
    · rintro u s ⟨result, ⟨b', ⟨rfl, rfl⟩, rfl⟩, hresult⟩
      cases result with
      | error e => cases hresult
      | ok u' => exact sat_modify (sat_pure ⟨rfl, rfl, hkept, hpage⟩)
    · rintro e s ⟨result, ⟨b', ⟨rfl, rfl⟩, rfl⟩, hresult⟩
      cases result with
      | ok u' => cases hresult
      | error e' =>
        exact ⟨rfl, rfl, hkept, e', heap, b, page, b', Except.error.inj hresult, h,
          hle.trans hpage', hpage, hrun⟩
  · rename_i hngt
    exact sat_pure ⟨rfl, rfl, h, Nat.le_of_not_lt hngt⟩

/-- **Backing down to a page.** The backed part grows page by page until it reaches `start` or a
page is refused. -/
theorem sat_backLoop (hI : Kept mapPage I) (hmod : start.asUsize % frameSize = 0) {fuel : ℕ} :
    ∀ {heap : KernelHeap} {b : β}, I heap b → heap.range.start.asUsize ≤ start.asUsize →
      heap.mappedStart.asUsize / frameSize < fuel →
      Sat (iterate (KernelHeap.backRound mapPage start) fuel ()) (heap, b)
        (BackedTo mapPage I heap start.asUsize) := by
  induction fuel with
  | zero => exact fun _ _ h => absurd h (Nat.not_lt_zero _)
  | succ fuel ih =>
    intro heap b h hle hfuel
    refine sat_iterate_succ (hI.sat_backRound h hmod hle) ?_ ?_ ?_
    · rintro _ ⟨heap', b'⟩ ⟨hrange, hcursor, hinv, hstep⟩
      have hfuel' : heap'.mappedStart.asUsize / frameSize < fuel := by
        dsimp only at hstep
        unfold frameSize at *
        omega
      refine (ih hinv (by rw [hrange]; exact hle) hfuel').mono fun result s hs => ?_
      exact ⟨hs.range_eq.trans hrange, hs.cursor_eq.trans hcursor, hs.invariant, hs.ok, hs.error⟩
    · rintro _ s ⟨hrange, hcursor, hinv, hdone⟩
      exact ⟨hrange, hcursor, hinv, fun _ => hdone, by simp⟩
    · rintro e s ⟨hrange, hcursor, hinv, hback⟩
      refine ⟨hrange, hcursor, hinv, by simp, fun e' he => ?_⟩
      cases he
      exact hback

theorem sat_backTo (hI : Kept mapPage I) (h : I heap b) (hmod : start.asUsize % frameSize = 0)
    (hle : heap.range.start.asUsize ≤ start.asUsize) :
    Sat (KernelHeap.backTo mapPage start) (heap, b) (BackedTo mapPage I heap start.asUsize) :=
  sat_get (hI.sat_backLoop hmod h hle (Nat.lt_succ_self _))

/-- **A new heap.** Over a range of whole pages it fails only when its first page is refused. -/
theorem sat_new (hI : Kept mapPage I) {range : VirtRange}
    (h : range.start.asUsize ≠ 0 → range.start.asUsize % frameSize = 0 →
      range.stop.asUsize % frameSize = 0 → I ⟨range, range.stop, range.stop⟩ b)
    (Q : β → Prop) (hQ : Q b) (hIQ : ∀ heap b', I heap b' → Q b') :
    Sat (KernelHeap.new range mapPage) b fun result b' => Q b' ∧
      (∀ heap, result = .ok heap → heap.range = range ∧ I heap b') ∧
      ∀ e, result = .error e → range.start.asUsize ≠ 0 → range.start.asUsize % frameSize = 0 →
        range.stop.asUsize % frameSize = 0 → PageRefused mapPage I e := by
  unfold KernelHeap.new
  split
  · rename_i hinvalid
    refine sat_fail ⟨hQ, by simp, fun e _ hpos hstart hstop => ?_⟩
    rcases hinvalid with h₀ | h₁ | h₂
    · exact absurd h₀ hpos
    · exact absurd hstart h₁
    · exact absurd hstop h₂
  rename_i hvalid
  push Not at hvalid
  obtain ⟨hpos, hstart, hstop⟩ := hvalid
  have hlt := range.lt
  have hroom : range.start.asUsize + frameSize ≤ range.stop.asUsize := by
    unfold frameSize at *
    omega
  obtain ⟨page, hsub, hpage⟩ := Addr.exists_checkedSub ((Nat.le_add_left frameSize _).trans hroom)
  have hmod : page.asUsize % frameSize = 0 := by
    unfold frameSize at *
    omega
  rw [hsub]
  obtain ⟨result, s, hrun, hs⟩ := hI.sat_backTo (h hpos hstart hstop) hmod
    (by dsimp only; omega)
  cases result with
  | ok u =>
    refine (returns_withLocal.mpr hrun).sat_bind (sat_pure ⟨hIQ _ _ hs.invariant, ?_, by simp⟩)
    intro heap hheap
    cases hheap
    exact ⟨hs.range_eq, hs.invariant⟩
  | error e =>
    have hfails : Fails (withLocal ⟨range, range.stop, range.stop⟩
        (KernelHeap.backTo mapPage page)) b e s.2 := by
      unfold Fails withLocal
      rw [hrun]
      rfl
    refine hfails.bind.sat ⟨hIQ _ _ hs.invariant, by simp, fun e' he _ _ _ => ?_⟩
    obtain rfl := Except.error.inj he
    exact hs.error e rfl

end Kept

/-! ## Backing pages -/

/-- The pages of `[start, stop)`, upward. -/
def pagesFrom (start stop : ℕ) : List ℕ :=
  (List.range ((stop - start) / frameSize)).map fun i => start + i * frameSize

theorem pagesFrom_sub {start stop : ℕ} (hpos : frameSize ≤ start) (hle : start ≤ stop)
    (hstart : start % frameSize = 0) (hstop : stop % frameSize = 0) :
    pagesFrom (start - frameSize) stop = (start - frameSize) :: pagesFrom start stop := by
  have hcount : (stop - (start - frameSize)) / frameSize = (stop - start) / frameSize + 1 := by
    unfold frameSize at *
    omega
  rw [pagesFrom, hcount, List.range_succ_eq_map, List.map_cons, List.map_map, pagesFrom]
  refine List.cons_eq_cons.mpr ⟨by omega, List.map_congr_left fun i _ => ?_⟩
  simp only [Function.comp_apply, Nat.succ_mul]
  omega

theorem nodup_pagesFrom (start stop : ℕ) : (pagesFrom start stop).Nodup := by
  refine List.Nodup.map (fun i j h => ?_) List.nodup_range
  have := Nat.add_left_cancel h
  unfold frameSize at this
  omega

theorem mem_pagesFrom {start stop a : ℕ} (hstart : start % frameSize = 0)
    (hstop : stop % frameSize = 0) :
    a ∈ pagesFrom start stop ↔ a % frameSize = 0 ∧ start ≤ a ∧ a < stop := by
  simp only [pagesFrom, List.mem_map, List.mem_range]
  constructor
  · rintro ⟨i, hi, rfl⟩
    unfold frameSize at *
    omega
  · rintro ⟨hmod, hle, hlt⟩
    refine ⟨(a - start) / frameSize, ?_, ?_⟩ <;> unfold frameSize at * <;> omega

/-- What holds between calls: the range and the backed part consist of pages, the cursor lies in
the backed part or at its end, and exactly the pages of the backed part have been backed, once. -/
structure Invariant (heap : KernelHeap) (r : Record β) : Prop where
  start_pos : 0 < heap.range.start.asUsize
  start_mod : heap.range.start.asUsize % frameSize = 0
  stop_mod : heap.range.stop.asUsize % frameSize = 0
  mapped_mod : heap.mappedStart.asUsize % frameSize = 0
  start_le : heap.range.start.asUsize ≤ heap.mappedStart.asUsize
  mapped_le : heap.mappedStart.asUsize ≤ heap.cursor.asUsize
  cursor_le : heap.cursor.asUsize ≤ heap.range.stop.asUsize
  succeeded : r.succeeded = pagesFrom heap.mappedStart.asUsize heap.range.stop.asUsize
  requested : ∀ a ∈ r.requested, a % frameSize = 0 ∧ heap.range.start.asUsize ≤ a ∧
    a + frameSize ≤ heap.range.stop.asUsize

/-- The result of extending the backed part of `heap` down to `start`. -/
structure Extends (heap : KernelHeap) (r : Record β) (start : ℕ)
    (result : Except (HeapError E) Unit) (s : KernelHeap × Record β) : Prop where
  range_eq : s.1.range = heap.range
  cursor_eq : s.1.cursor = heap.cursor
  invariant : Invariant s.1 s.2
  kept : ∀ a ∈ r.succeeded, a ∈ s.2.succeeded
  ok : result = .ok () → s.1.mappedStart.asUsize ≤ start
  error : ∀ e, result = .error e → ∃ e', e = .backing e'

section BackTo

variable {respond : VirtAddr → β → Except E Unit × β} {heap : KernelHeap} {r : Record β}
  {start : VirtAddr}

/-- A page of the range that has been refused. -/
theorem Invariant.refused (h : Invariant heap r) {page : VirtAddr} {b : β}
    (hmod : page.asUsize % frameSize = 0) (hle : heap.range.start.asUsize ≤ page.asUsize)
    (hpage : page.asUsize + frameSize = heap.mappedStart.asUsize) :
    Invariant heap ⟨b, (page, false) :: r.log⟩ := by
  refine { h with succeeded := h.succeeded, requested := ?_ }
  refine List.forall_mem_cons.mpr ⟨⟨hmod, hle, ?_⟩, h.requested⟩
  have := h.mapped_le
  have := h.cursor_le
  change page.asUsize + frameSize ≤ heap.range.stop.asUsize
  omega

/-- A page of the range that has been backed. -/
theorem Invariant.backed (h : Invariant heap r) {page : VirtAddr} {b : β}
    (hmod : page.asUsize % frameSize = 0) (hle : heap.range.start.asUsize ≤ page.asUsize)
    (hpage : page.asUsize + frameSize = heap.mappedStart.asUsize) :
    Invariant { heap with mappedStart := page } ⟨b, (page, true) :: r.log⟩ := by
  have h₁ := h.mapped_le
  have h₂ := h.cursor_le
  refine { h with
    mapped_mod := hmod
    start_le := hle
    mapped_le := ?_
    succeeded := ?_
    requested := List.forall_mem_cons.mpr ⟨⟨hmod, hle, ?_⟩, h.requested⟩ }
  · change page.asUsize ≤ heap.cursor.asUsize
    omega
  · change page.asUsize :: r.succeeded = pagesFrom page.asUsize heap.range.stop.asUsize
    rw [h.succeeded, show page.asUsize = heap.mappedStart.asUsize - frameSize by omega]
    exact (pagesFrom_sub (by omega) (by omega) h.mapped_mod h.stop_mod).symm
  · change page.asUsize + frameSize ≤ heap.range.stop.asUsize
    omega

/-- Requests keep the invariant, and the pages backed before. -/
theorem kept_recording (respond : VirtAddr → β → Except E Unit × β) (pages : List ℕ) :
    Kept (recording respond) fun heap (r : Record β) =>
      Invariant heap r ∧ ∀ a ∈ pages, a ∈ r.succeeded where
  paged h := ⟨h.1.start_mod, h.1.mapped_mod⟩
  page {heap r page} h hle hpage := by
    obtain ⟨h, hpages⟩ := h
    have hmod : page.asUsize % frameSize = 0 := by
      have := h.mapped_mod
      unfold frameSize at *
      omega
    refine ⟨_, _, rfl, ?_⟩
    cases hr : respond page r.state with
    | mk result b =>
      cases result with
      | ok u => exact ⟨h.backed hmod hle hpage, fun a ha => List.mem_cons_of_mem _ (hpages a ha)⟩
      | error e => exact ⟨h.refused hmod hle hpage, hpages⟩

theorem sat_backTo (h : Invariant heap r) (start : VirtAddr) (hmod : start.asUsize % frameSize = 0)
    (hle : heap.range.start.asUsize ≤ start.asUsize) :
    Sat (KernelHeap.backTo (recording respond) start) (heap, r) (Extends heap r start.asUsize) :=
  ((kept_recording respond r.succeeded).sat_backTo ⟨h, fun _ ha => ha⟩ hmod hle).mono
    fun _ _ hs => ⟨hs.range_eq, hs.cursor_eq, hs.invariant.1, hs.invariant.2, hs.ok, fun e he => by
      obtain ⟨e', -, -, -, -, hbacking, -⟩ := hs.error e he
      exact ⟨e', hbacking⟩⟩

end BackTo

/-! ## Placing a block -/

/-- Where a block with this layout fits below the cursor. -/
def Fits (heap : KernelHeap) (layout : Layout) : Set ℕ :=
  {p | layout.align ∣ p ∧ heap.range.start.asUsize ≤ p ∧ p + layout.size ≤ heap.cursor.asUsize}

/-- Clearing the bits below the alignment rounds down. -/
theorem clear_align (address : VirtAddr) (layout : Layout) :
    (address.clear (layout.align - 1)).asUsize = address.asUsize / layout.align * layout.align := by
  obtain ⟨k, hk, halign⟩ := layout.isPowerOfTwo
  rw [halign]
  exact and_complement_mask address.isWord hk

theorem clear_page (address : VirtAddr) :
    (address.clear (frameSize - 1)).asUsize = address.asUsize / frameSize * frameSize :=
  and_complement_mask (k := 12) address.isWord (by decide)

theorem Layout.align_pos (layout : Layout) : 0 < layout.align := by
  obtain ⟨k, -, halign⟩ := layout.isPowerOfTwo
  rw [halign]
  exact Nat.two_pow_pos k

/-- A place where the block fits is not above the rounded one. -/
theorem le_rounded {heap : KernelHeap} {layout : Layout} {p : ℕ} (h : p ∈ Fits heap layout) :
    layout.size ≤ heap.cursor.asUsize ∧
      p ≤ (heap.cursor.asUsize - layout.size) / layout.align * layout.align := by
  obtain ⟨⟨q, rfl⟩, -, hle⟩ := h
  refine ⟨by omega, ?_⟩
  rw [Nat.mul_comm layout.align q]
  refine Nat.mul_le_mul_right _ ((Nat.le_div_iff_mul_le layout.align_pos).mpr ?_)
  rw [Nat.mul_comm q]
  omega

/-- **The placement** is the highest one that fits. -/
theorem placement_eq_some {heap : KernelHeap} {layout : Layout} {address : VirtAddr}
    (h : heap.placement layout = some address) :
    IsGreatest (Fits heap layout) address.asUsize := by
  obtain ⟨hsome, hge⟩ := Option.filter_eq_some_iff.mp h
  obtain ⟨a, ha, rfl⟩ := Option.map_eq_some_iff.mp hsome
  have hsub := Addr.checkedSub_eq_some.mp ha
  have hround := clear_align a layout
  have hle := Nat.div_mul_le_self a.asUsize layout.align
  refine ⟨⟨?_, by simpa using hge, by omega⟩, fun p hp => ?_⟩
  · rw [hround]
    exact Dvd.intro_left _ rfl
  · have := (le_rounded hp).2
    rwa [show heap.cursor.asUsize - layout.size = a.asUsize by omega, ← hround] at this

theorem placement_eq_none {heap : KernelHeap} {layout : Layout} (h : heap.placement layout = none) :
    ∀ p, p ∉ Fits heap layout := by
  intro p hp
  obtain ⟨hsize, hle⟩ := le_rounded hp
  obtain ⟨a, ha, hsub⟩ := Addr.exists_checkedSub hsize
  rw [KernelHeap.placement, ha, Option.map_some, Option.filter_eq_none_iff] at h
  have hlt := h _ rfl
  rw [show heap.cursor.asUsize - layout.size = a.asUsize by omega, ← clear_align a layout] at hle
  have := hp.2.1
  simp only [ge_iff_le, decide_eq_true_eq, not_le] at hlt
  omega

/-! ## Allocating -/

/-- What a call of `allocate` returns and leaves. -/
structure Allocates (heap : KernelHeap) (r : Record β) (layout : Layout)
    (result : Except (HeapError E) NonNull) (s : KernelHeap × Record β) : Prop where
  range_eq : s.1.range = heap.range
  invariant : Invariant s.1 s.2
  kept : ∀ a ∈ r.succeeded, a ∈ s.2.succeeded
  ok : ∀ p, result = .ok p → layout.size ≠ 0 ∧ IsGreatest (Fits heap layout) p.address ∧
    s.1.cursor.asUsize = p.address
  error : ∀ e, result = .error e → s.1.cursor = heap.cursor
  exhausted : layout.size ≠ 0 → (result = .error .exhausted ↔ ∀ p, p ∉ Fits heap layout)

theorem Invariant.move {heap : KernelHeap} {r : Record β} (h : Invariant heap r) {cursor : VirtAddr}
    (hle : heap.mappedStart.asUsize ≤ cursor.asUsize)
    (hcursor : cursor.asUsize ≤ heap.range.stop.asUsize) :
    Invariant { heap with cursor := cursor } r :=
  { h with mapped_le := hle, cursor_le := hcursor, succeeded := h.succeeded }

/-- A page at or above the start of the range. -/
theorem placed_page {heap : KernelHeap} {layout : Layout} {address : VirtAddr}
    (hplace : heap.placement layout = some address)
    (hmod : heap.range.start.asUsize % frameSize = 0) :
    (address.clear (frameSize - 1)).asUsize % frameSize = 0 ∧
      heap.range.start.asUsize ≤ (address.clear (frameSize - 1)).asUsize := by
  obtain ⟨-, hge, -⟩ := (placement_eq_some hplace).1
  rw [clear_page]
  refine ⟨Nat.mul_mod_left _ _, ?_⟩
  unfold frameSize at *
  omega

/-- A call keeps an invariant that says nothing about the cursor. -/
theorem Kept.sat_allocate {mapPage : HeapBacking β E} {I : KernelHeap → β → Prop}
    (hI : Kept mapPage I)
    (hcursor : ∀ {heap : KernelHeap} {b : β} (cursor : VirtAddr), I heap b →
      I { heap with cursor := cursor } b)
    {heap : KernelHeap} {b : β} (h : I heap b) (layout : Layout) :
    Sat (KernelHeap.allocate mapPage layout) (heap, b) fun _ s =>
      s.1.range = heap.range ∧ I s.1 s.2 := by
  unfold KernelHeap.allocate
  split
  · exact sat_fail ⟨rfl, h⟩
  refine sat_get ?_
  dsimp only
  cases hplace : heap.placement layout with
  | none => exact sat_fail ⟨rfl, h⟩
  | some address =>
    obtain ⟨hmod, hle⟩ := placed_page hplace (hI.paged h).start_mod
    dsimp only
    cases NonNull.new address.asUsize with
    | none => exact sat_fail ⟨rfl, h⟩
    | some pointer =>
      refine (hI.sat_backTo h hmod hle).bind (fun _ s hs => ?_) fun e s hs =>
        ⟨hs.range_eq, hs.invariant⟩
      exact sat_modify (sat_pure ⟨hs.range_eq, hcursor address hs.invariant⟩)

/-! ## Requests that are granted -/

/-- **Requests that succeed**: from states of the invariant the page below the backed part is backed,
down to the address `bottom`. -/
structure Granted (mapPage : HeapBacking β E) (bottom : ℕ) (I : KernelHeap → β → Prop) : Prop where
  paged : ∀ {heap : KernelHeap} {b : β}, I heap b → heap.Paged
  page : ∀ {heap : KernelHeap} {b : β} {page : VirtAddr}, I heap b → bottom ≤ page.asUsize →
    page.asUsize + frameSize = heap.mappedStart.asUsize →
    Succeeds (mapPage page) b fun _ b' => I { heap with mappedStart := page } b'

namespace Granted

variable {mapPage : HeapBacking β E} {bottom : ℕ} {I : KernelHeap → β → Prop} {heap : KernelHeap}
  {b : β} {start : VirtAddr}

theorem succeeds_backLoop (hI : Granted mapPage bottom I) (hmod : start.asUsize % frameSize = 0)
    (hle : bottom ≤ start.asUsize) {fuel : ℕ} : ∀ {heap : KernelHeap} {b : β}, I heap b →
      heap.mappedStart.asUsize / frameSize < fuel →
      Succeeds (iterate (KernelHeap.backRound mapPage start) fuel ()) (heap, b) fun _ s =>
        I s.1 s.2 := by
  induction fuel with
  | zero => exact fun _ h => absurd h (Nat.not_lt_zero _)
  | succ fuel ih =>
    intro heap b h hfuel
    rw [iterate]
    by_cases hgt : heap.mappedStart.asUsize > start.asUsize
    · obtain ⟨page, hsub, hpage, hpage'⟩ := (hI.paged h).exists_page hmod hgt
      obtain ⟨u, b', hback, hinv⟩ := hI.page h (hle.trans hpage') hpage
      have hround : Returns (KernelHeap.backRound mapPage start ()) (heap, b) (.inl ())
          ({ heap with mappedStart := page }, b') := by
        refine returns_bind.mpr ⟨(heap, b), (heap, b), returns_get.mpr ⟨rfl, rfl⟩, ?_⟩
        dsimp only
        rw [if_pos hgt, hsub]
        refine returns_bind.mpr ⟨u, (heap, b'), ?_, rfl⟩
        exact returns_mapError.mpr (returns_zoom.mpr ⟨b', hback, rfl⟩)
      refine hround.succeeds_bind (ih hinv ?_)
      dsimp only
      unfold frameSize at *
      omega
    · have hround : Returns (KernelHeap.backRound mapPage start ()) (heap, b) (.inr ()) (heap, b) := by
        refine returns_bind.mpr ⟨(heap, b), (heap, b), returns_get.mpr ⟨rfl, rfl⟩, ?_⟩
        dsimp only
        rw [if_neg hgt]
        exact returns_pure.mpr ⟨rfl, rfl⟩
      exact hround.succeeds_bind (succeeds_pure h)

/-- **Backing down to a page** that is not below `bottom`. -/
theorem succeeds_backTo (hI : Granted mapPage bottom I) (h : I heap b)
    (hmod : start.asUsize % frameSize = 0) (hle : bottom ≤ start.asUsize) :
    Succeeds (KernelHeap.backTo mapPage start) (heap, b) fun _ s => I s.1 s.2 :=
  succeeds_get (hI.succeeds_backLoop hmod hle h (Nat.lt_succ_self _))

/-- **A new heap** is made when its first page is granted. -/
theorem succeeds_new (hI : Granted mapPage bottom I) {range : VirtRange}
    (hpos : range.start.asUsize ≠ 0) (hstart : range.start.asUsize % frameSize = 0)
    (hstop : range.stop.asUsize % frameSize = 0) (h : I ⟨range, range.stop, range.stop⟩ b)
    (hle : bottom + frameSize ≤ range.stop.asUsize) :
    Succeeds (KernelHeap.new range mapPage) b I := by
  obtain ⟨page, hsub, hpage⟩ := Addr.exists_checkedSub ((Nat.le_add_left frameSize _).trans hle)
  have hmod : page.asUsize % frameSize = 0 := by
    unfold frameSize at *
    omega
  unfold KernelHeap.new
  rw [if_neg (by simp [hpos, hstart, hstop]), hsub]
  obtain ⟨u, s, hback, hinv⟩ := hI.succeeds_backTo h hmod (by omega)
  exact (returns_withLocal.mpr hback).succeeds_bind (succeeds_pure hinv)

/-- **A block is handed out** when its place is not below `bottom`. -/
theorem succeeds_allocate (hI : Granted mapPage bottom I) (h : I heap b) {layout : Layout}
    {address : VirtAddr} (hsize : layout.size ≠ 0) (hplace : heap.placement layout = some address)
    (hpos : address.asUsize ≠ 0) (hle : bottom ≤ (address.clear (frameSize - 1)).asUsize) :
    Succeeds (KernelHeap.allocate mapPage layout) (heap, b) fun p s =>
      p.address = address.asUsize ∧ ∃ before, s.1 = { before with cursor := address } ∧
        I before s.2 := by
  obtain ⟨hmod, -⟩ := placed_page hplace (hI.paged h).start_mod
  have hnew : NonNull.new address.asUsize = some ⟨address.asUsize, hpos⟩ := dif_pos hpos
  unfold KernelHeap.allocate
  rw [if_neg hsize]
  refine succeeds_get ?_
  dsimp only
  rw [hplace]
  dsimp only
  rw [hnew]
  refine (hI.succeeds_backTo h hmod hle).bind fun _ s hinv => succeeds_modify (succeeds_pure ?_)
  exact ⟨rfl, s.1, rfl, hinv⟩

/-- Requests leave the cursor alone. -/
theorem cursor (hI : Granted mapPage bottom I) (cursor : VirtAddr) :
    Granted mapPage bottom fun heap b => I heap b ∧ heap.cursor = cursor where
  paged h := hI.paged h.1
  page h hle hpage := (hI.page h.1 hle hpage).mono fun _ _ h' => ⟨h', h.2⟩

end Granted

/-- **One call.** -/
theorem sat_allocate (respond : VirtAddr → β → Except E Unit × β) {heap : KernelHeap} {r : Record β}
    (h : Invariant heap r) (layout : Layout) :
    Sat (KernelHeap.allocate (recording respond) layout) (heap, r) (Allocates heap r layout) := by
  unfold KernelHeap.allocate
  split
  · exact sat_fail ⟨rfl, h, fun _ ha => ha, by simp, fun _ _ => rfl, fun hne => absurd ‹_› hne⟩
  rename_i hsize
  refine sat_get ?_
  dsimp only
  cases hplace : heap.placement layout with
  | none =>
    have hnone := placement_eq_none hplace
    exact sat_fail ⟨rfl, h, fun _ ha => ha, by simp, fun _ _ => rfl, fun _ => by simp [hnone]⟩
  | some address =>
    have hgreatest := placement_eq_some hplace
    obtain ⟨⟨-, hge, hfit⟩, -⟩ := id hgreatest
    have hpos := h.start_pos
    have hne : address.asUsize ≠ 0 := by omega
    have hsome : ¬ ∀ p, p ∉ Fits heap layout := fun hnone => hnone _ hgreatest.1
    obtain ⟨hmod, hle⟩ := placed_page hplace h.start_mod
    have hpage := clear_page address
    have hnew : NonNull.new address.asUsize = some ⟨address.asUsize, hne⟩ := dif_pos hne
    dsimp only
    rw [hnew]
    refine (sat_backTo h (address.clear (frameSize - 1)) hmod hle).bind ?_ ?_
    · rintro _ s hs
      refine sat_modify (sat_pure ⟨hs.range_eq, ?_, hs.kept, ?_, by simp, fun _ => by simp [hsome]⟩)
      · have hreach := hs.ok rfl
        have := Nat.div_mul_le_self address.asUsize frameSize
        have := h.cursor_le
        refine hs.invariant.move (by omega) ?_
        rw [hs.range_eq]
        omega
      · intro p hp
        cases hp
        exact ⟨hsize, hgreatest, rfl⟩
    · rintro e s hs
      refine ⟨hs.range_eq, hs.invariant, hs.kept, by simp, fun _ _ => hs.cursor_eq, fun _ => ?_⟩
      obtain ⟨e', rfl⟩ := hs.error e rfl
      simp [hsome]

/-! ## All calls -/

theorem returns_new {respond : VirtAddr → β → Except E Unit × β} {range : VirtRange}
    {heap : KernelHeap} {b : β} {r : Record β}
    (h : Returns (KernelHeap.new range (recording respond)) ⟨b, []⟩ heap r) :
    heap.range = range ∧ Invariant heap r := by
  -- before its first page is backed the heap satisfies the invariant with an empty backed part
  have hinit : range.start.asUsize ≠ 0 → range.start.asUsize % frameSize = 0 →
      range.stop.asUsize % frameSize = 0 →
      Invariant (⟨range, range.stop, range.stop⟩ : KernelHeap) (⟨b, []⟩ : Record β) ∧
        ∀ a ∈ ([] : List ℕ), a ∈ (⟨b, []⟩ : Record β).succeeded := by
    intro hpos hstart hstop
    refine ⟨?_, by simp⟩
    exact
      { start_pos := Nat.pos_of_ne_zero hpos
        start_mod := hstart
        stop_mod := hstop
        mapped_mod := hstop
        start_le := range.lt.le
        mapped_le := le_rfl
        cursor_le := le_rfl
        succeeded := by simp [Record.succeeded, pagesFrom]
        requested := by simp [Record.requested] }
  obtain ⟨result, r', hrun, -, hnew⟩ := (kept_recording respond []).sat_new hinit (fun _ => True)
    trivial fun _ _ _ => trivial
  obtain ⟨rfl, rfl⟩ := Prod.mk.inj (Except.ok.inj (h.symm.trans hrun))
  obtain ⟨hrange, hinv, -⟩ := hnew.1 heap rfl
  exact ⟨hrange, hinv⟩

/-- The blocks handed out lie between the cursor and the end of the range, apart from each other. -/
structure Reserves (heap : KernelHeap) (blocks : List Block) : Prop where
  bounds : ∀ b ∈ blocks, heap.cursor.asUsize ≤ b.address ∧
    b.address + b.size ≤ heap.range.stop.asUsize
  disjoint : blocks.Pairwise fun b b' => Disjoint b.extent b'.extent

theorem disjoint_of_le {b b' : Block} (h : b.address + b.size ≤ b'.address) :
    Disjoint b.extent b'.extent := by
  rw [Block.extent, Block.extent, Set.Ico_disjoint_Ico]
  omega

/-- **Every reachable state** satisfies the invariant. -/
theorem Reachable.invariant {respond : VirtAddr → β → Except E Unit × β} {range : VirtRange}
    {heap : KernelHeap} {r : Record β} {blocks : List Block}
    (h : Reachable respond range heap r blocks) :
    heap.range = range ∧ Invariant heap r ∧ Reserves heap blocks := by
  induction h with
  | new h =>
    obtain ⟨hrange, hinv⟩ := returns_new h
    exact ⟨hrange, hinv, by simp, .nil⟩
  | @allocated heap heap' r r' blocks layout pointer _ hcall ih =>
    obtain ⟨hrange, hinv, hres⟩ := ih
    obtain ⟨result, s, hrun, hspec⟩ := sat_allocate respond hinv layout
    rw [hcall] at hrun
    cases hrun
    obtain ⟨-, ⟨⟨-, -, hfit⟩, -⟩, hcursor⟩ := hspec.ok pointer rfl
    have hle := hinv.cursor_le
    have hr := hspec.range_eq
    refine ⟨hspec.range_eq.trans hrange, hspec.invariant,
      List.forall_mem_cons.mpr ⟨⟨hcursor.le, ?_⟩, fun b hb => ?_⟩,
      List.pairwise_cons.mpr ⟨fun b hb => disjoint_of_le ?_, hres.disjoint⟩⟩
    · dsimp only at hr ⊢
      rw [hr]
      omega
    · have := hres.bounds b hb
      dsimp only at hr hcursor ⊢
      rw [hr]
      omega
    · have := (hres.bounds b hb).1
      dsimp only
      omega
  | @failed heap heap' r r' blocks layout e _ hcall ih =>
    obtain ⟨hrange, hinv, hres⟩ := ih
    obtain ⟨result, s, hrun, hspec⟩ := sat_allocate respond hinv layout
    rw [hcall] at hrun
    cases hrun
    refine ⟨hspec.range_eq.trans hrange, hspec.invariant, fun b hb => ?_, hres.disjoint⟩
    rw [hspec.error e rfl, hspec.range_eq]
    exact hres.bounds b hb

/-- **The heap is a correct downward bump allocator** whatever its backing answers. In every
reachable state the range and the backed part consist of pages, exactly the pages of the backed part
have been backed, once each, and no page outside the range has been requested. The next call returns
and, if it hands out a block, places it as high as it fits, fully backed and apart from all earlier
blocks; it reports exhaustion exactly when no block fits; and a failed call keeps the cursor and the
backed pages. -/
theorem kernel_heap_correct {respond : VirtAddr → β → Except E Unit × β} {range : VirtRange}
    {heap : KernelHeap} {r : Record β} {blocks : List Block}
    (h : Reachable respond range heap r blocks) :
    (heap.range = range ∧ range.start.asUsize % frameSize = 0 ∧ range.stop.asUsize % frameSize = 0 ∧
      heap.mappedStart.asUsize % frameSize = 0 ∧
      range.start.asUsize ≤ heap.mappedStart.asUsize ∧
      heap.mappedStart.asUsize ≤ heap.cursor.asUsize ∧
      heap.cursor.asUsize ≤ range.stop.asUsize) ∧
    (r.succeeded.Nodup ∧
      (∀ a, a ∈ r.succeeded ↔
        a % frameSize = 0 ∧ heap.mappedStart.asUsize ≤ a ∧ a < range.stop.asUsize) ∧
      ∀ a ∈ r.requested, a % frameSize = 0 ∧ range.start.asUsize ≤ a ∧
        a + frameSize ≤ range.stop.asUsize) ∧
    blocks.Pairwise (fun b b' => Disjoint b.extent b'.extent) ∧
    ∀ layout, ∃ result heap' r',
      KernelHeap.allocate (recording respond) layout (heap, r) = .ok (result, (heap', r')) ∧
      (∀ p, result = .ok p →
        IsGreatest {q | layout.align ∣ q ∧ range.start.asUsize ≤ q ∧
          q + layout.size ≤ heap.cursor.asUsize} p.address ∧
        (∀ x ∈ Set.Ico p.address (p.address + layout.size),
          x / frameSize * frameSize ∈ r'.succeeded) ∧
        ∀ b ∈ blocks, Disjoint (Set.Ico p.address (p.address + layout.size)) b.extent) ∧
      (layout.size ≠ 0 → (result = .error .exhausted ↔
        ¬ ∃ q, layout.align ∣ q ∧ range.start.asUsize ≤ q ∧
          q + layout.size ≤ heap.cursor.asUsize)) ∧
      ∀ e, result = .error e → heap'.cursor = heap.cursor ∧ ∀ a ∈ r.succeeded, a ∈ r'.succeeded := by
  obtain ⟨rfl, hinv, hres⟩ := h.invariant
  refine ⟨⟨rfl, hinv.start_mod, hinv.stop_mod, hinv.mapped_mod, hinv.start_le, hinv.mapped_le,
    hinv.cursor_le⟩, ⟨?_, fun a => ?_, hinv.requested⟩, hres.disjoint, fun layout => ?_⟩
  · rw [hinv.succeeded]
    exact nodup_pagesFrom _ _
  · rw [hinv.succeeded]
    exact mem_pagesFrom hinv.mapped_mod hinv.stop_mod
  obtain ⟨result, ⟨heap', r'⟩, hrun, hspec⟩ := sat_allocate respond hinv layout
  refine ⟨result, heap', r', hrun, fun p hp => ?_, fun hsize => ?_, fun e he =>
    ⟨hspec.error e he, hspec.kept⟩⟩
  · obtain ⟨-, hgreatest, hcursor⟩ := hspec.ok p hp
    obtain ⟨⟨-, -, hfit⟩, -⟩ := id hgreatest
    have hinv' := hspec.invariant
    have hrange := hspec.range_eq
    dsimp only at hinv' hrange hcursor
    refine ⟨hgreatest, fun x hx => ?_, fun b hb => ?_⟩
    · rw [hinv'.succeeded, mem_pagesFrom hinv'.mapped_mod hinv'.stop_mod, hrange]
      have h₁ := hinv'.mapped_le
      have h₂ := hinv'.mapped_mod
      have h₃ := hinv.cursor_le
      obtain ⟨hlo, hhi⟩ := hx
      unfold frameSize at *
      omega
    · have := (hres.bounds b hb).1
      rw [Block.extent, Set.Ico_disjoint_Ico]
      omega
  · rw [hspec.exhausted hsize, not_exists]
    rfl

/-! ## A run -/

/-- A backing that grants as many pages as its state says. -/
def sampleRespond : VirtAddr → ℕ → Except Unit Unit × ℕ
  | _, 0 => (.error (), 0)
  | _, n + 1 => (.ok (), n)

/-- Four pages. -/
def sampleRange : VirtRange :=
  ⟨⟨0x10000, by decide⟩, ⟨0x14000, by decide⟩, by decide⟩

/-- A page and a half, aligned to two pages. -/
def sampleLayout : Layout := ⟨0x1800, 0x2000, by decide, 13, by decide, by decide⟩

theorem exists_sampleRun : ∃ heap r pointer,
    Reachable sampleRespond sampleRange heap r [⟨pointer, sampleLayout.size⟩] := by
  have heval : (match KernelHeap.new sampleRange (recording sampleRespond) ⟨3, []⟩ with
      | .ok (.ok heap, r) =>
        match KernelHeap.allocate (recording sampleRespond) sampleLayout (heap, r) with
        | .ok (.ok _, _) => true
        | _ => false
      | _ => false) = true := by decide +kernel
  split at heval
  · rename_i heap r hnew
    split at heval
    · rename_i p s hcall
      exact ⟨s.1, s.2, p.address, .allocated (.new hnew) hcall⟩
    · cases heval
  · cases heval

theorem kernel_heap_correct_sample : ∃ heap r pointer,
    Reachable sampleRespond sampleRange heap r [⟨pointer, sampleLayout.size⟩] ∧
      ∀ layout, ∃ result heap' r',
        KernelHeap.allocate (recording sampleRespond) layout (heap, r) =
          .ok (result, (heap', r')) := by
  obtain ⟨heap, r, pointer, h⟩ := exists_sampleRun
  refine ⟨heap, r, pointer, h, fun layout => ?_⟩
  obtain ⟨-, -, -, hcall⟩ := kernel_heap_correct h
  obtain ⟨result, heap', r', hr, -⟩ := hcall layout
  exact ⟨result, heap', r', hr⟩

-- the second block needs two more pages and only one of them is granted
example : (match KernelHeap.new sampleRange (recording sampleRespond) ⟨3, []⟩ with
    | .ok (.ok heap, r) =>
      match KernelHeap.allocate (recording sampleRespond) sampleLayout (heap, r) with
      | .ok (.ok p, s) =>
        match KernelHeap.allocate (recording sampleRespond) sampleLayout s with
        | .ok (.error (.backing ()), s') =>
          [p.address, s'.1.cursor.asUsize, s'.1.mappedStart.asUsize]
        | _ => []
      | _ => []
    | _ => []) = [0x12000, 0x12000, 0x11000] := by decide +kernel

end Barebone.Kernel

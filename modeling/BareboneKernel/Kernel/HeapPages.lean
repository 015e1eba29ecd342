import BareboneKernel.Kernel.Backing
import BareboneKernel.Kernel.IntoKernel

/-!
# The heap and the page tables agree

The heap counts the pages that back it, the page tables map them, and the two are changed one after
the other. Pages are mapped beside the heap, and frames may run out at any time.

* `noted mapPage`: a backing that remembers its requests, and **`hides_allocate`**: nothing else about
  the heap depends on that;
* `HeapCall`: the calls after the heap has been claimed;
* `KernelPaging.sat_heapBacking`: backing a page, in all its steps;
* `HeapMapped`: the invariant of the heap, the tables and the requests;
* **`heap_pages_agree`**: what holds in every state that is reached.
-/

set_option autoImplicit false

namespace Barebone.Kernel

open Exec Word Sv39

variable {F β E : Type}

/-! ## Remembered requests -/

/-- A request to the backing of a heap, and the states around it. -/
structure Request (β E : Type) where
  page : VirtAddr
  before : β
  result : Except E Unit
  after : β

/-- The backing `mapPage`, with its requests so far, the latest first. -/
def noted (mapPage : HeapBacking β E) : HeapBacking (β × List (Request β E)) E := fun page s =>
  (mapPage page s.1).map fun x => (x.1, x.2, ⟨page, s.1, x.1, x.2⟩ :: s.2)

section Noted

variable {mapPage : HeapBacking β E}

/-- The heap and its backing, without the requests. -/
def withoutRequests (s : KernelHeap × β × List (Request β E)) : KernelHeap × β := (s.1, s.2.1)

theorem hides_noted (page : VirtAddr) : Hides Prod.fst (noted mapPage page) (mapPage page) := by
  intro s
  rw [noted]
  rcases mapPage page s.1 with b | x <;> rfl

theorem hides_backRound (start : VirtAddr) (u : Unit) :
    Hides withoutRequests (KernelHeap.backRound (noted mapPage) start u)
      (KernelHeap.backRound mapPage start u) := by
  refine hides_get fun s => ?_
  dsimp only [withoutRequests]
  by_cases hmore : s.1.mappedStart.asUsize > start.asUsize
  · rw [if_pos hmore, if_pos hmore]
    cases s.1.mappedStart.checkedSub frameSize with
    | none => exact hides_fail _
    | some page =>
      have hpage : Hides withoutRequests
          (zoom Prod.snd (fun b (s : KernelHeap × β × List (Request β E)) => (s.1, b))
            (noted mapPage page))
          (zoom Prod.snd (fun b (s : KernelHeap × β) => (s.1, b)) (mapPage page)) :=
        (hides_noted page).zoom (fun _ => rfl) fun _ _ => rfl
      refine (hpage.mapError _).bind fun _ => ?_
      refine Hides.bind ?_ fun _ => hides_pure _
      exact hides_modify fun _ => rfl
  · rw [if_neg hmore, if_neg hmore]
    exact hides_pure _

theorem hides_backTo (start : VirtAddr) :
    Hides withoutRequests (KernelHeap.backTo (noted mapPage) start)
      (KernelHeap.backTo mapPage start) :=
  hides_get fun s => Hides.iterate (hides_backRound start) (s.1.mappedStart.asUsize / frameSize + 1) ()

/-- **Requests are only remembered**: apart from that, a call does what it does with the backing
itself. -/
theorem hides_allocate (layout : Layout) :
    Hides withoutRequests (KernelHeap.allocate (noted mapPage) layout)
      (KernelHeap.allocate mapPage layout) := by
  unfold KernelHeap.allocate
  split
  · exact hides_fail _
  refine hides_get fun s => ?_
  dsimp only [withoutRequests]
  cases s.1.placement layout with
  | none => exact hides_fail _
  | some address =>
    dsimp only
    cases NonNull.new address.asUsize with
    | none => exact hides_fail _
    | some pointer =>
      refine (hides_backTo _).bind fun _ => ?_
      refine Hides.bind ?_ fun _ => hides_pure _
      exact hides_modify fun _ => rfl

theorem hides_new (range : VirtRange) :
    Hides Prod.fst (KernelHeap.new range (noted mapPage)) (KernelHeap.new range mapPage) := by
  unfold KernelHeap.new
  split
  · exact hides_fail _
  cases range.stop.checkedSub frameSize with
  | none => exact hides_fail _
  | some page => exact (Hides.withLocal (hides_backTo page) _).bind fun _ => hides_pure _

end Noted

/-! ## Calls -/

/-- Calls that share page tables and frames with the heap. -/
inductive PageCall where
  | mapPage (address : VirtAddr) (frame : AllocatedFrame) (permissions : PagePermissions)
  | mapUserPage (address : VirtAddr) (frame : AllocatedFrame) (permissions : PagePermissions)
  | takeFrame

/-- Calls after the heap has been claimed. -/
inductive HeapCall where
  | allocate (layout : Layout)
  | page (call : PageCall)

variable [FrameAllocator F]

def PageCall.run (paging : KernelPaging) : PageCall → Exec (Machine × F) Unit Unit
  | mapPage address frame permissions => ignore (paging.mapPage address frame permissions)
  | mapUserPage address frame permissions => ignore (paging.mapUserPage address frame permissions)
  | takeFrame => ignore allocateFrame

/-- A call, on a heap with the backing `backing` over states that contain the memory and the
allocator. -/
def HeapCall.runOn (paging : KernelPaging) (backing : HeapBacking β PagingError)
    (space : β → Machine × F) (put : Machine × F → β → β) :
    HeapCall → Exec (KernelHeap × β) Unit Unit
  | allocate layout => ignore (KernelHeap.allocate backing layout)
  | page call => zoom (fun s => space s.2) (fun t s => (s.1, put t s.2)) (call.run paging)

/-- A call of the kernel. -/
def HeapCall.run (paging : KernelPaging) : HeapCall → Exec (KernelHeap × Machine × F) Unit Unit :=
  runOn paging paging.heapBacking id fun t _ => t

/-- The same call, which remembers the requests to the backing. -/
def HeapCall.runNoted (paging : KernelPaging) : HeapCall →
    Exec (KernelHeap × (Machine × F) × List (Request (Machine × F) PagingError)) Unit Unit :=
  runOn paging (noted paging.heapBacking) Prod.fst fun t b => (t, b.2)

/-- The programs that may run beside the heap. -/
def sharedCalls (paging : KernelPaging) (_ : Machine × F) (c : Exec (Machine × F) Unit Unit) :
    Prop :=
  ∃ call : PageCall, c = call.run paging

/-- The programs that may run once the heap has been claimed. -/
def heapCalls (paging : KernelPaging) (_ : KernelHeap × Machine × F)
    (c : Exec (KernelHeap × Machine × F) Unit Unit) : Prop :=
  ∃ call : HeapCall, c = call.run paging

def notedCalls (paging : KernelPaging)
    (_ : KernelHeap × (Machine × F) × List (Request (Machine × F) PagingError))
    (c : Exec (KernelHeap × (Machine × F) × List (Request (Machine × F) PagingError)) Unit Unit) :
    Prop :=
  ∃ call : HeapCall, c = call.runNoted paging

theorem HeapCall.hides_run (paging : KernelPaging) (call : HeapCall) :
    Hides withoutRequests (call.runNoted paging : Exec (KernelHeap × (Machine × F) × _) Unit Unit)
      (call.run paging) := by
  cases call with
  | allocate layout => exact (hides_allocate layout).ignore
  | page call =>
    have hpage : Hides withoutRequests
        (zoom (fun s => s.2.1) (fun t s => (s.1, t, s.2.2)) (call.run paging) :
          Exec (KernelHeap × (Machine × F) × List (Request (Machine × F) PagingError)) Unit Unit)
        (zoom (fun s => s.2) (fun t s => (s.1, t)) (call.run paging)) :=
      (hides_refl (call.run paging)).zoom (fun _ => rfl) fun _ _ => rfl
    exact hpage

/-- **Every run of the kernel** is one that remembers its requests. -/
theorem exists_noted {paging : KernelPaging}
    {s : KernelHeap × (Machine × F) × List (Request (Machine × F) PagingError)}
    {t : KernelHeap × Machine × F} (h : Run (heapCalls paging) (withoutRequests s) t) :
    ∃ s', Run (notedCalls paging) s s' ∧ withoutRequests s' = t := by
  refine h.lift ?_
  rintro _ _ ⟨call, rfl⟩
  exact ⟨_, ⟨call, rfl⟩, call.hides_run paging⟩

/-! ## Pages of the heap -/

/-- A page of the heap starts at `a`. -/
def HeapPage (a : ℕ) : Prop := a % frameSize = 0 ∧ heapStart ≤ a ∧ a < heapEnd

section HeapPage

variable {a b : ℕ}

theorem heapStart_eq : heapStart = 2 ^ 64 - 2 ^ 37 := by decide

theorem heapEnd_eq : heapEnd = 2 ^ 64 - 2 ^ 37 + 2 ^ 30 := by decide

theorem HeapPage.canonical (h : HeapPage a) : Canonical a := by
  obtain ⟨-, hlow, hhigh⟩ := h
  rw [heapStart_eq] at hlow
  rw [heapEnd_eq] at hhigh
  right
  omega

theorem HeapPage.eq_of_vpn (ha : HeapPage a) (hcanonical : Canonical b) (halign : b % frameSize = 0)
    (hvpn : vpn a = vpn b) : a = b := by
  have hpage := (vpn_eq_iff ha.canonical hcanonical).mp hvpn
  have halign' := ha.1
  unfold frameSize at *
  omega

theorem exists_heapPage {va : ℕ} (hlow : heapStart ≤ va) (hhigh : va < heapEnd) :
    HeapPage (va / frameSize * frameSize) ∧ Canonical va ∧
      vpn va = vpn (va / frameSize * frameSize) := by
  have hpage : HeapPage (va / frameSize * frameSize) := by
    rw [heapStart_eq] at hlow
    rw [heapEnd_eq] at hhigh
    refine ⟨Nat.mul_mod_left _ _, ?_, ?_⟩
    · rw [heapStart_eq]
      unfold frameSize
      omega
    · rw [heapEnd_eq]
      unfold frameSize
      omega
  have hva : Canonical va := by
    rw [heapStart_eq] at hlow
    rw [heapEnd_eq] at hhigh
    right
    omega
  refine ⟨hpage, hva, (vpn_eq_iff hva hpage.canonical).mpr ?_⟩
  unfold frameSize
  omega

end HeapPage

/-! ## Calls beside the heap -/

section Shared

variable {S : Supply F} {paging : KernelPaging} {s s' : Machine × F}

/-- What a call beside the heap does: it leaves the pages of a claimed heap alone. -/
structure Beside (paging : KernelPaging) (S : Supply F) (s s' : Machine × F) : Prop where
  sound : paging.Sound S s'
  advance : Advance S paging.root.frame.number s s'
  walk : paging.heapClaimed = true → ∀ a, HeapPage a →
    walk s'.1.entries paging.root.frame.number (vpn a) =
      walk s.1.entries paging.root.frame.number (vpn a)

theorem Beside.refl (h : paging.Sound S s) : Beside paging S s s :=
  ⟨h, (Progress.refl s).advance, fun _ _ _ => rfl⟩

theorem PageMapped.beside {address : ℕ} {leaf : Leaf} {r : Except PagingError Unit}
    (h : paging.Sound S s)
    (hr : PageMapped paging.window S paging.root.frame.number address leaf s r s')
    (hout : paging.heapClaimed = true → ¬(heapStart ≤ address ∧ address < heapEnd)) :
    Beside paging S s s' := by
  refine ⟨h.progress hr.ready hr.progress, hr.progress.advance, fun hclaimed a ha => ?_⟩
  cases r with
  | error e => rw [(hr.error e rfl).1]
  | ok u =>
    obtain ⟨hcanonical, halign, -, -, hupdate⟩ := hr.ok rfl
    rw [hupdate, Function.update_of_ne]
    intro hvpn
    obtain rfl := ha.eq_of_vpn hcanonical halign hvpn
    exact hout hclaimed ha.2

theorem KernelPaging.sat_mapPage_beside (h : paging.Sound S s) (address : VirtAddr)
    (frame : AllocatedFrame) (permissions : PagePermissions) :
    Sat (paging.mapPage address frame permissions) s fun _ => Beside paging S s := by
  unfold KernelPaging.mapPage
  dsimp only
  split
  · exact sat_fail (.refl h)
  · rename_i hout
    refine (sat_installPage h address frame permissions).mono fun r s' hr => ?_
    rcases hr with ⟨-, hr⟩ | ⟨rfl, -⟩
    · exact hr.beside h fun hclaimed hin => hout ⟨hclaimed, hin⟩
    · exact .refl h

theorem KernelPaging.sat_mapUserPage_beside (h : paging.Sound S s) (address : VirtAddr)
    (frame : AllocatedFrame) (permissions : PagePermissions) :
    Sat (paging.mapUserPage address frame permissions) s fun _ => Beside paging S s := by
  refine (sat_mapUserPage h address frame permissions).mono fun r s' hr => ?_
  rcases hr with ⟨⟨-, hlow⟩, hr⟩ | ⟨rfl, -⟩
  · refine hr.beside h fun _ hin => ?_
    have hend := sv39LowHalfEnd_eq
    have hstart := heapStart_eq
    omega
  · exact .refl h

theorem sat_allocateFrame_beside (h : paging.Sound S s) :
    Sat allocateFrame s fun _ => Beside paging S s := by
  refine (sat_allocateFrame h.valid).mono fun r s' ht => ?_
  refine ⟨h.progress (h.ready.taken ht) ht.progress, ht.progress.advance, fun _ a _ => ?_⟩
  rw [ht.machine]

/-- **A call beside the heap.** -/
theorem PageCall.sat_run (h : paging.Sound S s) (call : PageCall) :
    Sat (call.run paging) s fun _ => Beside paging S s := by
  cases call with
  | mapPage address frame permissions =>
    exact (KernelPaging.sat_mapPage_beside h address frame permissions).ignore
  | mapUserPage address frame permissions =>
    exact (KernelPaging.sat_mapUserPage_beside h address frame permissions).ignore
  | takeFrame => exact (sat_allocateFrame_beside h).ignore

/-- Pages of a claimed heap are only mapped by its backing. -/
theorem KernelPaging.fails_mapPage (hclaimed : paging.heapClaimed = true) {address : VirtAddr}
    (hlow : heapStart ≤ address.asUsize) (hhigh : address.asUsize < heapEnd) (frame : AllocatedFrame)
    (permissions : PagePermissions) (s : Machine × F) :
    Fails (paging.mapPage address frame permissions) s (.reservedVirtualPage address.asUsize) s := by
  unfold KernelPaging.mapPage
  dsimp only
  rw [if_pos ⟨hclaimed, hlow, hhigh⟩]
  rfl

end Shared

/-! ## Backing a page -/

/-- The entry for the page at `a` is empty, or the table for it is missing. -/
def LeafEmpty (e : Entries) (root a : ℕ) : Prop :=
  ∀ t, tableAt e root (.level0 (vpn a).vpn2 (vpn a).vpn1) = some t → e t (vpn a).vpn0 = 0

theorem leafEmpty_of_walk {e : Entries} {root a : ℕ} (hclean : Clean e root)
    (hnone : walk e root (vpn a) = none) : LeafEmpty e root a := by
  intro t ht
  rcases hclean _ t (vpn a).vpn0 ht with h | ⟨h, -⟩ | ⟨-, h⟩
  · exact h
  · exact absurd rfl h
  · rw [walk_of_tableAt ht, lastLevel, h] at hnone
    cases hnone

section Request

variable {S : Supply F} {paging : KernelPaging} {s s' : Machine × F} {address : VirtAddr}

/-- **A successful request** in its steps: frame `n` is taken, it is filled with zeros while the entry
for the page is empty, and then the page is mapped to it. -/
structure Request.Installs (paging : KernelPaging)
    (request : Request (Machine × F) PagingError) (n : ℕ) : Prop where
  ok : request.result = .ok ()
  steps : ∃ frame taken zeroed, frame.frame.number = n ∧
    Returns allocateFrame request.before frame taken ∧
    Returns (onMachine (paging.zeroFrame frame)) taken () zeroed ∧
    (∀ k < frameSize, zeroed.1.memory (n * frameSize + k) = 0) ∧
    LeafEmpty zeroed.1.entries paging.root.frame.number request.page.asUsize ∧
    Returns (paging.installPage request.page frame .readWrite) zeroed () request.after

/-- A request is one of the backing, and if it is refused then for lack of frames, with the entry for
the page still empty. -/
structure Request.Proper (paging : KernelPaging)
    (request : Request (Machine × F) PagingError) : Prop where
  run : paging.heapBacking request.page request.before = .ok (request.result, request.after)
  refused : ∀ e, request.result = .error e → FrameShortage e ∧
    LeafEmpty request.after.1.entries paging.root.frame.number request.page.asUsize

/-- The result of a request for the page at `address`. -/
structure PageBacked (paging : KernelPaging) (S : Supply F) (address : VirtAddr) (s : Machine × F)
    (r : Except PagingError Unit) (s' : Machine × F) : Prop where
  sound : paging.Sound S s'
  advance : Advance S paging.root.frame.number s s'
  ok : r = .ok () → ∃ n, Request.Installs paging ⟨address, s, r, s'⟩ n ∧ n ∈ S.pool s.2 ∧
    n ∉ S.pool s'.2 ∧ walk s'.1.entries paging.root.frame.number =
      Function.update (walk s.1.entries paging.root.frame.number) (vpn address.asUsize)
        (some (leafFor n .readWrite .supervisor))
  error : ∀ e, r = .error e → FrameShortage e ∧
    walk s'.1.entries paging.root.frame.number = walk s.1.entries paging.root.frame.number

theorem memory_zero (m : Machine) {n k : ℕ} (hk : k < frameSize) :
    (m.zero n).memory (n * frameSize + k) = 0 := by
  have hlen : k < (List.replicate frameSize (0 : UInt8)).length := by rwa [List.length_replicate]
  show storeBytes m.memory (n * frameSize) (List.replicate frameSize 0) _ = 0
  rw [storeBytes_add hlen]
  exact List.getElem_replicate hlen

/-- **Backing a page.** A page of the claimed heap that is not mapped is mapped to a zeroed frame, or
no frame is left for it or its tables. -/
theorem KernelPaging.sat_heapBacking (h : paging.Sound S s) (hclaimed : paging.heapClaimed = true)
    (hclean : Clean s.1.entries paging.root.frame.number) (hpage : HeapPage address.asUsize)
    (hnone : walk s.1.entries paging.root.frame.number (vpn address.asUsize) = none) :
    Sat (paging.heapBacking address) s (PageBacked paging S address s) := by
  obtain ⟨halign, hlow, hhigh⟩ := hpage
  unfold heapBacking
  dsimp only
  rw [if_neg (by simp [hclaimed, hlow, hhigh]), and_pageMask, if_neg (not_not.mpr halign)]
  refine h.sat_zeroed (fun frame s₁ htake hrep ht => ?_) fun e s₁ herror hsound hmachine hpool => ?_
  · have hclean₁ := ht.advance.clean hclean
    have hnone₁ : walk s₁.1.entries paging.root.frame.number (vpn address.asUsize) = none := by
      rw [ht.walk, hnone]
    obtain ⟨r, s₂, hinstall, hr⟩ := sat_installPage ht.sound address frame .readWrite
    refine ⟨r, s₂, hinstall, ?_⟩
    have hhigh' : sv39HighHalfBase ≤ address.asUsize := by
      have hbase : sv39HighHalfBase ≤ heapStart := by decide
      exact hbase.trans hlow
    have hfixmap : address.asUsize ≠ fixmapFrameBase := by
      have hend : heapEnd ≤ fixmapFrameBase := by decide
      exact Nat.ne_of_lt (hhigh.trans_le hend)
    rcases hr with ⟨-, hr⟩ | ⟨-, ⟨hlow', -⟩ | ⟨heq, -⟩⟩
    · have hsound := ht.sound.progress hr.ready hr.progress
      refine ⟨hsound, ht.advance.trans hr.progress.advance, ?_, fun e he => ?_⟩
      · rintro rfl
        obtain ⟨-, -, -, -, hupdate⟩ := hr.ok rfl
        rw [ht.walk] at hupdate
        refine ⟨frame.frame.number, ⟨rfl, ?_⟩, ht.taken, fun hmem => ht.gone (hr.progress.pool hmem),
          hupdate⟩
        obtain ⟨frame', taken, hallocate, hzero⟩ := returns_bind.mp htake
        obtain ⟨u, zeroed, hzero, hpure⟩ := returns_bind.mp hzero
        obtain ⟨rfl, rfl⟩ := returns_pure.mp hpure
        refine ⟨frame, taken, s₁, rfl, hallocate, hzero, fun k hk => ?_,
          leafEmpty_of_walk hclean₁ hnone₁, hinstall⟩
        rw [ht.machine]
        exact memory_zero s.1 hk
      · obtain ⟨hwalk, hfailure⟩ := hr.error e he
        exact ⟨hfailure.frames hclean₁ hnone₁ (HeapPage.canonical ⟨halign, hlow, hhigh⟩) halign,
          hwalk.trans ht.walk⟩
    · omega
    · exact absurd heq hfixmap
  · have hgrown : Grown paging S ∅ s s₁ := .shortage hsound hmachine hpool
    refine ⟨hsound, hgrown.advance, by simp, fun e' he => ?_⟩
    obtain rfl := Except.error.inj he
    exact ⟨herror, by rw [hmachine]⟩

/-- **A free page is backed** when there are frames for it and for two tables. -/
theorem KernelPaging.succeeds_heapBacking (h : paging.Sound S s)
    (hclaimed : paging.heapClaimed = true) (hclean : Clean s.1.entries paging.root.frame.number)
    (hpage : HeapPage address.asUsize)
    (hnone : walk s.1.entries paging.root.frame.number (vpn address.asUsize) = none) {n : ℕ}
    (hstock : Stocked (n + 3) s.2) :
    Succeeds (paging.heapBacking address) s fun _ s' => Stocked n s'.2 := by
  have hcanonical := hpage.canonical
  obtain ⟨halign, hlow, hhigh⟩ := hpage
  have hbase : sv39HighHalfBase ≤ heapStart := by decide
  have hend : heapEnd ≤ fixmapFrameBase := by decide
  unfold heapBacking
  dsimp only
  rw [if_neg (by simp [hclaimed, hlow, hhigh]), and_pageMask, if_neg (not_not.mpr halign)]
  refine h.succeeds_zeroed hstock fun frame s₁ hrep ht hrest => ?_
  refine succeeds_installPage ht.sound (ht.advance.clean hclean) hrest (hbase.trans hlow)
    (fun heq => ?_) halign (by rw [ht.walk, hnone]) hrep .readWrite
  have hdiv := (vpn_eq_iff hcanonical (by decide)).mp heq
  have hmod : fixmapFrameBase % 4096 = 0 := by decide
  unfold frameSize at *
  omega

end Request

/-! ## The heap and its pages -/

section HeapMapped

variable {S : Supply F} {paging : KernelPaging} {heap : KernelHeap} {s s' : Machine × F}
  {requests : List (Request (Machine × F) PagingError)}

/-- **The heap agrees with the tables**: of its pages exactly those that it counts as backed are
mapped, each to a frame that a request has installed. -/
structure HeapMapped (paging : KernelPaging) (S : Supply F) (heap : KernelHeap) (s : Machine × F)
    (requests : List (Request (Machine × F) PagingError)) : Prop where
  sound : paging.Sound S s
  clean : Clean s.1.entries paging.root.frame.number
  range : heap.range = heapRange
  mapped_mod : heap.mappedStart.asUsize % frameSize = 0
  mapped_le : heap.mappedStart.asUsize ≤ heapEnd
  unmapped : ∀ a, HeapPage a → a < heap.mappedStart.asUsize →
    walk s.1.entries paging.root.frame.number (vpn a) = none
  mapped : ∀ a, HeapPage a → heap.mappedStart.asUsize ≤ a → ∃ n,
    walk s.1.entries paging.root.frame.number (vpn a) = some (leafFor n .readWrite .supervisor) ∧
      n ∉ S.pool s.2 ∧ ∃ request ∈ requests, request.page.asUsize = a ∧ request.Installs paging n
  distinct : ∀ a b leaf leaf', HeapPage a → HeapPage b →
    walk s.1.entries paging.root.frame.number (vpn a) = some leaf →
    walk s.1.entries paging.root.frame.number (vpn b) = some leaf' → leaf.frame = leaf'.frame → a = b
  proper : ∀ request ∈ requests, request.Proper paging

theorem HeapMapped.paged (h : HeapMapped paging S heap s requests) : heap.Paged := by
  refine ⟨?_, h.mapped_mod⟩
  rw [h.range]
  decide

/-- A change that leaves the pages of the heap alone; requests may have been made. -/
theorem HeapMapped.keep (h : HeapMapped paging S heap s requests) (hsound : paging.Sound S s')
    (hadvance : Advance S paging.root.frame.number s s')
    (hwalk : ∀ a, HeapPage a → walk s'.1.entries paging.root.frame.number (vpn a) =
      walk s.1.entries paging.root.frame.number (vpn a))
    (more : List (Request (Machine × F) PagingError))
    (hmore : ∀ request ∈ more, request.Proper paging) :
    HeapMapped paging S heap s' (more ++ requests) where
  sound := hsound
  clean := hadvance.clean h.clean
  range := h.range
  mapped_mod := h.mapped_mod
  mapped_le := h.mapped_le
  unmapped a ha hlt := by rw [hwalk a ha, h.unmapped a ha hlt]
  mapped a ha hle := by
    obtain ⟨n, hleaf, hn, request, hmem, hrequest⟩ := h.mapped a ha hle
    exact ⟨n, (hwalk a ha).trans hleaf, fun hin => hn (hadvance.pool hin), request,
      List.mem_append_right _ hmem, hrequest⟩
  distinct a b leaf leaf' ha hb hleaf hleaf' := by
    rw [hwalk a ha] at hleaf
    rw [hwalk b hb] at hleaf'
    exact h.distinct a b leaf leaf' ha hb hleaf hleaf'
  proper request hmem := (List.mem_append.mp hmem).elim (hmore request) (h.proper request)

/-- The page below the backed part. -/
theorem HeapMapped.page (h : HeapMapped paging S heap s requests) {page : VirtAddr}
    (hlow : heap.range.start.asUsize ≤ page.asUsize)
    (hpage : page.asUsize + frameSize = heap.mappedStart.asUsize) : HeapPage page.asUsize := by
  have h₁ := h.mapped_mod
  have h₂ := h.mapped_le
  rw [h.range] at hlow
  refine ⟨?_, hlow, ?_⟩
  · unfold frameSize at *
    omega
  · have : 0 < frameSize := by decide
    omega

/-- The leaf of a backed page has a frame outside the pool. -/
theorem HeapMapped.frame_not_mem (h : HeapMapped paging S heap s requests) {a : ℕ} {leaf : Leaf}
    (ha : HeapPage a) (hleaf : walk s.1.entries paging.root.frame.number (vpn a) = some leaf) :
    leaf.frame ∉ S.pool s.2 := by
  rcases Nat.lt_or_ge a heap.mappedStart.asUsize with hlt | hle
  · rw [h.unmapped a ha hlt] at hleaf
    cases hleaf
  · obtain ⟨n, hn, hpool, -⟩ := h.mapped a ha hle
    rw [hleaf] at hn
    cases hn
    exact hpool

/-- The page below the backed part has been backed. -/
theorem HeapMapped.back (h : HeapMapped paging S heap s requests) {page : VirtAddr}
    (hlow : heap.range.start.asUsize ≤ page.asUsize)
    (hpage : page.asUsize + frameSize = heap.mappedStart.asUsize)
    (hback : PageBacked paging S page s (.ok ()) s')
    (hrun : paging.heapBacking page s = .ok (.ok (), s')) :
    HeapMapped paging S { heap with mappedStart := page } s' (⟨page, s, .ok (), s'⟩ :: requests) := by
  have hheap := h.page hlow hpage
  obtain ⟨n, hinstalls, hin, hout, hupdate⟩ := hback.ok rfl
  -- the other pages of the heap stay as they are
  have hother : ∀ a, HeapPage a → a ≠ page.asUsize →
      walk s'.1.entries paging.root.frame.number (vpn a) =
        walk s.1.entries paging.root.frame.number (vpn a) := by
    intro a ha hne
    rw [hupdate, Function.update_of_ne]
    exact fun hvpn => hne (ha.eq_of_vpn hheap.canonical hheap.1 hvpn)
  have hself : walk s'.1.entries paging.root.frame.number (vpn page.asUsize) =
      some (leafFor n .readWrite .supervisor) := by
    rw [hupdate, Function.update_self]
  have hnew : ∀ a leaf, HeapPage a → a ≠ page.asUsize →
      walk s'.1.entries paging.root.frame.number (vpn a) = some leaf → leaf.frame ≠ n := by
    rintro a leaf ha hne hleaf rfl
    rw [hother a ha hne] at hleaf
    exact h.frame_not_mem ha hleaf hin
  have hpos : 0 < frameSize := by decide
  refine ⟨hback.sound, hback.advance.clean h.clean, h.range, hheap.1, Nat.le_of_lt hheap.2.2, ?_, ?_,
    ?_, List.forall_mem_cons.mpr ⟨⟨hrun, by simp⟩, h.proper⟩⟩
  · intro a ha hlt
    dsimp only at hlt
    rw [hother a ha (Nat.ne_of_lt hlt), h.unmapped a ha (by omega)]
  · intro a ha hle
    by_cases heq : a = page.asUsize
    · rw [heq]
      exact ⟨n, hself, hout, _, List.mem_cons_self, rfl, hinstalls⟩
    · have hle' : heap.mappedStart.asUsize ≤ a := by
        have h₁ := ha.1
        have h₂ := hheap.1
        dsimp only at hle
        unfold frameSize at *
        omega
      obtain ⟨n', hleaf, hn', request, hmem, hrequest⟩ := h.mapped a ha hle'
      exact ⟨n', (hother a ha heq).trans hleaf, fun hin => hn' (hback.advance.pool hin), request,
        List.mem_cons_of_mem _ hmem, hrequest⟩
  · intro a b leaf leaf' ha hb hleaf hleaf' heq
    by_cases ha' : a = page.asUsize
    · by_cases hb' : b = page.asUsize
      · rw [ha', hb']
      · rw [ha', hself] at hleaf
        cases hleaf
        exact absurd heq.symm (hnew b leaf' hb hb' hleaf')
    · by_cases hb' : b = page.asUsize
      · rw [hb', hself] at hleaf'
        cases hleaf'
        exact absurd heq (hnew a leaf ha ha' hleaf)
      · rw [hother a ha ha'] at hleaf
        rw [hother b hb hb'] at hleaf'
        exact h.distinct a b leaf leaf' ha hb hleaf hleaf' heq

/-- The page below the backed part is backed, or there are too few frames for it. -/
theorem HeapMapped.sat_page (h : HeapMapped paging S heap s requests)
    (hclaimed : paging.heapClaimed = true) {page : VirtAddr}
    (hlow : heap.range.start.asUsize ≤ page.asUsize)
    (hpage : page.asUsize + frameSize = heap.mappedStart.asUsize) :
    Sat (paging.heapBacking page) s (PageBacked paging S page s) := by
  have hheap := h.page hlow hpage
  have hlt : page.asUsize < heap.mappedStart.asUsize := by
    have : 0 < frameSize := by decide
    omega
  exact KernelPaging.sat_heapBacking h.sound hclaimed h.clean hheap (h.unmapped _ hheap hlt)

theorem HeapMapped.shortage (h : HeapMapped paging S heap s requests)
    (hclaimed : paging.heapClaimed = true) {page : VirtAddr}
    (hlow : heap.range.start.asUsize ≤ page.asUsize)
    (hpage : page.asUsize + frameSize = heap.mappedStart.asUsize) {e : PagingError}
    (hfails : Fails (paging.heapBacking page) s e s') : FrameShortage e := by
  obtain ⟨r, s₁, hrun, hback⟩ := h.sat_page hclaimed hlow hpage
  obtain ⟨rfl, -⟩ := Prod.mk.inj (Except.ok.inj (hfails.symm.trans hrun))
  exact (hback.error e rfl).1

/-- A request for the page below the backed part, whatever comes of it. -/
theorem HeapMapped.sat_request (h : HeapMapped paging S heap s requests)
    (hclaimed : paging.heapClaimed = true) {page : VirtAddr}
    (hlow : heap.range.start.asUsize ≤ page.asUsize)
    (hpage : page.asUsize + frameSize = heap.mappedStart.asUsize) :
    ∃ r s', paging.heapBacking page s = .ok (r, s') ∧ match r with
      | .ok _ => HeapMapped paging S { heap with mappedStart := page } s'
        (⟨page, s, r, s'⟩ :: requests)
      | .error _ => HeapMapped paging S heap s' (⟨page, s, r, s'⟩ :: requests) := by
  obtain ⟨r, s', hrun, hback⟩ := h.sat_page hclaimed hlow hpage
  refine ⟨r, s', hrun, ?_⟩
  cases r with
  | ok u => exact h.back hlow hpage hback hrun
  | error e =>
    have hheap := h.page hlow hpage
    have hlt : page.asUsize < heap.mappedStart.asUsize := by
      have : 0 < frameSize := by decide
      omega
    have hwalk := (hback.error e rfl).2
    refine h.keep hback.sound hback.advance (fun a _ => by rw [hwalk]) [⟨page, s, .error e, s'⟩] ?_
    refine List.forall_mem_singleton.mpr ⟨hrun, fun e' he => ?_⟩
    refine ⟨(hback.error e' he).1, leafEmpty_of_walk (hback.advance.clean h.clean) ?_⟩
    rw [hwalk]
    exact h.unmapped _ hheap hlt

/-- The invariant is kept by requests that are remembered. -/
theorem kept_noted (hclaimed : paging.heapClaimed = true) :
    Kept (noted paging.heapBacking) fun heap (b : (Machine × F) × List _) =>
      HeapMapped paging S heap b.1 b.2 where
  paged h := h.paged
  page {heap b page} h hlow hpage := by
    obtain ⟨r, s', hrun, hr⟩ := h.sat_request hclaimed hlow hpage
    refine ⟨r, (s', ⟨page, b.1, r, s'⟩ :: b.2), by rw [noted, hrun]; rfl, ?_⟩
    cases r with
    | ok u => exact hr
    | error e => exact hr

/-- **A call keeps the invariant.** -/
theorem HeapMapped.sat_run (h : HeapMapped paging S heap s requests)
    (hclaimed : paging.heapClaimed = true) (call : HeapCall) :
    Sat (call.runNoted paging) (heap, s, requests) fun _ t =>
      HeapMapped paging S t.1 t.2.1 t.2.2 := by
  cases call with
  | allocate layout =>
    refine Sat.ignore (((kept_noted hclaimed).sat_allocate (fun cursor h => ?_) h layout).mono
      fun _ _ ht => ht.2)
    exact { h with range := h.range }
  | page call =>
    have hzoom : Sat (zoom (fun t : KernelHeap × (Machine × F) × List _ => t.2.1)
        (fun u t => (t.1, u, t.2.2)) (call.run paging)) (heap, s, requests) fun _ t =>
          ∃ u, Beside paging S s u ∧ t = (heap, u, requests) :=
      Sat.zoom (PageCall.sat_run h.sound call)
    refine hzoom.mono ?_
    rintro r t ⟨u, hu, rfl⟩
    exact h.keep hu.sound hu.advance (fun a ha => hu.walk hclaimed a ha) [] (by simp)

/-! ## Enough frames -/

/-- A heap with frames for its pages from `bottom` on, and for `n` more. -/
def HeapStocked (paging : KernelPaging) (S : Supply F) (n bottom : ℕ) (heap : KernelHeap)
    (s : Machine × F) : Prop :=
  (∃ requests, HeapMapped paging S heap s requests) ∧
    Stocked (n + 3 * ((heap.mappedStart.asUsize - bottom) / frameSize)) s.2

theorem granted_heapBacking (hclaimed : paging.heapClaimed = true) {n bottom : ℕ}
    (hbottom : heapStart ≤ bottom) :
    Granted paging.heapBacking bottom (HeapStocked paging S n bottom) where
  paged h := by
    obtain ⟨⟨requests, hmapped⟩, -⟩ := h
    exact hmapped.paged
  page {heap s page} h hle hpage := by
    obtain ⟨⟨requests, hmapped⟩, hstock⟩ := h
    have hlow : heap.range.start.asUsize ≤ page.asUsize := by
      rw [hmapped.range]
      exact hbottom.trans hle
    have hheap := hmapped.page hlow hpage
    have hpages : (heap.mappedStart.asUsize - bottom) / frameSize =
        (page.asUsize - bottom) / frameSize + 1 := by
      unfold frameSize at *
      omega
    have hlt : page.asUsize < heap.mappedStart.asUsize := by
      unfold frameSize at hpage
      omega
    rw [hpages, Nat.mul_succ, ← Nat.add_assoc] at hstock
    refine ((KernelPaging.succeeds_heapBacking hmapped.sound hclaimed hmapped.clean hheap
      (hmapped.unmapped _ hheap hlt) hstock).and
        (hmapped.sat_request hclaimed hlow hpage)).mono fun u s' hs => ?_
    exact ⟨⟨_, hs.2⟩, hs.1⟩

/-- **A block is handed out** when there are frames for the pages that are not backed yet. -/
theorem HeapMapped.succeeds_allocate (h : HeapMapped paging S heap s requests)
    (hclaimed : paging.heapClaimed = true) {layout : Layout} {address : VirtAddr}
    (hsize : layout.size ≠ 0) (hplace : heap.placement layout = some address) {n : ℕ}
    (hstock : Stocked (n + 3 * ((heap.mappedStart.asUsize -
      (address.clear (frameSize - 1)).asUsize) / frameSize)) s.2) :
    Succeeds (KernelHeap.allocate paging.heapBacking layout) (heap, s) fun p s' =>
      p.address = address.asUsize ∧ Stocked n s'.2.2 := by
  obtain ⟨-, hle⟩ := placed_page hplace h.paged.start_mod
  obtain ⟨⟨-, hlow, -⟩, -⟩ := placement_eq_some hplace
  rw [h.range] at hle hlow
  have hpos : 0 < heapRange.start.asUsize := by decide
  have hgranted : Granted paging.heapBacking (address.clear (frameSize - 1)).asUsize
      (HeapStocked paging S n (address.clear (frameSize - 1)).asUsize) :=
    granted_heapBacking hclaimed hle
  refine (hgranted.succeeds_allocate ⟨⟨requests, h⟩, hstock⟩ hsize hplace
    (Nat.ne_of_gt (hpos.trans_le hlow)) le_rfl).mono ?_
  rintro p s' ⟨haddress, before, -, -, hrest⟩
  exact ⟨haddress, hrest.mono (Nat.le_add_right _ _)⟩

/-! ## Claiming the heap -/

theorem HeapPage.vpn2 {a : ℕ} (h : HeapPage a) : (vpn a).vpn2 = (vpn heapStart).vpn2 := by
  obtain ⟨-, hlow, hhigh⟩ := h
  rw [heapStart_eq] at hlow
  rw [heapEnd_eq] at hhigh
  have hstart : (vpn heapStart).vpn2 = 384 := by decide
  rw [hstart]
  have hindex : a / 2 ^ 30 % 512 = 384 := by omega
  exact Fin.ext hindex

/-- A heap without pages, over an empty entry of the root. -/
theorem heapMapped_start (hsound : paging.Sound S s)
    (hclean : Clean s.1.entries paging.root.frame.number)
    (hempty : s.1.entries paging.root.frame.number (vpn heapStart).vpn2 = 0) :
    HeapMapped paging S ⟨heapRange, heapRange.stop, heapRange.stop⟩ s [] := by
  have hnone : ∀ a, HeapPage a → walk s.1.entries paging.root.frame.number (vpn a) = none := by
    intro a ha
    rw [walk, ha.vpn2, hempty, kind_zero]
  refine ⟨hsound, hclean, rfl, by decide, Nat.le_refl _, fun a ha _ => hnone a ha, ?_, ?_, by simp⟩
  · intro a ha hle
    exact absurd ha.2.2 (Nat.not_lt.mpr hle)
  · intro a b leaf leaf' ha _ hleaf
    rw [hnone a ha] at hleaf
    cases hleaf

/-- **A heap that has been claimed** agrees with the tables. Its first requests are those of its
construction. -/
theorem heapMapped_of_claim {paging' : KernelPaging} (hsound : paging.Sound S s)
    (hclean : Clean s.1.entries paging.root.frame.number)
    (hclaim : Returns KernelPaging.claimHeap (paging, s) heap (paging', s')) :
    paging'.heapClaimed = true ∧ ∃ requests,
      Returns (KernelHeap.new heapRange (noted paging'.heapBacking)) (s, []) heap (s', requests) ∧
        HeapMapped paging' S heap s' requests := by
  rw [Returns, KernelPaging.claimHeap_eq hsound] at hclaim
  split at hclaim
  · cases hclaim
  split at hclaim
  · cases hclaim
  rename_i hempty
  obtain ⟨t, hnew, heq⟩ := returns_zoom.mp hclaim
  cases heq
  refine ⟨rfl, ?_⟩
  obtain ⟨⟨t, requests⟩, hnoted, rfl⟩ := (hides_new heapRange).returns (s := (s, [])) hnew
  obtain ⟨r, t', hrun, -, hmapped, -⟩ := (kept_noted rfl).sat_new (b := (s, []))
    (fun _ _ _ => heapMapped_start hsound.claim hclean (not_not.mp hempty)) (fun _ => True) trivial
    fun _ _ _ => trivial
  unfold Returns at hnoted
  rw [hnoted] at hrun
  cases hrun
  exact ⟨requests, hnoted, (hmapped heap rfl).2⟩

/-- **An unclaimed heap is claimed** when there are frames for its first page. -/
theorem KernelPaging.succeeds_claimHeap (hsound : paging.Sound S s)
    (hclean : Clean s.1.entries paging.root.frame.number) (hunclaimed : paging.heapClaimed = false)
    (hempty : s.1.entries paging.root.frame.number (vpn heapStart).vpn2 = 0) {n : ℕ}
    (hstock : Stocked (n + 3) s.2) :
    Succeeds claimHeap (paging, s) fun heap s' => heap.range = heapRange ∧
      heap.cursor = heapRange.stop ∧ Stocked n s'.2.2 := by
  let claimed : KernelPaging := { paging with heapClaimed := true }
  have hgranted : Granted claimed.heapBacking (heapEnd - frameSize) fun heap s =>
      HeapStocked claimed S n (heapEnd - frameSize) heap s ∧ heap.cursor = heapRange.stop :=
    (granted_heapBacking rfl (by decide)).cursor _
  have hone : (heapRange.stop.asUsize - (heapEnd - frameSize)) / frameSize = 1 := by decide
  have hstart : HeapStocked claimed S n (heapEnd - frameSize)
      ⟨heapRange, heapRange.stop, heapRange.stop⟩ s := by
    refine ⟨⟨[], heapMapped_start hsound.claim hclean hempty⟩, ?_⟩
    dsimp only
    rwa [hone]
  have hnew : Succeeds (KernelHeap.new heapRange claimed.heapBacking) s fun heap s' =>
      HeapStocked claimed S n (heapEnd - frameSize) heap s' ∧ heap.cursor = heapRange.stop :=
    hgranted.succeeds_new (by decide) (by decide) (by decide) ⟨hstart, rfl⟩ (by decide)
  obtain ⟨heap, s', hreturns, ⟨⟨requests, hmapped⟩, hrest⟩, hcursor⟩ := hnew
  refine ⟨heap, (claimed, s'), ?_, hmapped.range, hcursor, hrest.mono (Nat.le_add_right _ _)⟩
  rw [Returns, KernelPaging.claimHeap_eq hsound, if_neg (by simp [hunclaimed]),
    if_neg (not_not.mpr hempty)]
  exact returns_zoom.mpr ⟨s', hreturns, rfl⟩

/-- Calls beside the heap keep an address space sound and clean. -/
theorem sat_sharedCalls (hsound : paging.Sound S s)
    (hclean : Clean s.1.entries paging.root.frame.number) (hrun : Run (sharedCalls paging) s s') :
    paging.Sound S s' ∧ Clean s'.1.entries paging.root.frame.number := by
  refine hrun.induct (P := fun s' => paging.Sound S s' ∧
    Clean s'.1.entries paging.root.frame.number) ⟨hsound, hclean⟩ ?_
  rintro s₁ c ⟨h₁, h₂⟩ ⟨call, rfl⟩
  exact (PageCall.sat_run h₁ call).mono fun _ _ ht => ⟨ht.sound, ht.advance.clean h₂⟩

/-! ## Address by address -/

/-- **The heap and the page tables agree**, and the backing requests have gone as they should. -/
structure HeapPagesAgree (paging : KernelPaging) (heap : KernelHeap) (s : Machine × F)
    (requests : List (Request (Machine × F) PagingError)) : Prop where
  aligned : heap.mappedStart.asUsize % frameSize = 0
  backed : ∀ va, heapStart ≤ va → va < heapEnd →
    ((∃ x, s.1.translate va = some x) ↔ heap.mappedStart.asUsize ≤ va)
  empty : ∀ va, heapStart ≤ va → va < heap.mappedStart.asUsize →
    LeafEmpty s.1.entries paging.root.frame.number va
  leaf : ∀ va pa leaf, heapStart ≤ va → va < heapEnd → s.1.translate va = some (pa, leaf) →
    leaf.user = false ∧ leaf.read = true ∧ leaf.write = true ∧ leaf.execute = false
  zeroed : ∀ va pa leaf, heapStart ≤ va → va < heapEnd → s.1.translate va = some (pa, leaf) →
    ∃ request ∈ requests, request.page.asUsize = va / frameSize * frameSize ∧
      request.Installs paging leaf.frame
  distinct : ∀ va va' pa pa' leaf leaf', heapStart ≤ va → va < heapEnd → heapStart ≤ va' →
    va' < heapEnd → s.1.translate va = some (pa, leaf) → s.1.translate va' = some (pa', leaf') →
      leaf.frame = leaf'.frame → va / frameSize = va' / frameSize
  proper : ∀ request ∈ requests, request.Proper paging
  reserved : ∀ (address : VirtAddr) (frame : AllocatedFrame) (permissions : PagePermissions),
    heapStart ≤ address.asUsize → address.asUsize < heapEnd →
      Fails (paging.mapPage address frame permissions) s (.reservedVirtualPage address.asUsize) s

section Addresses

variable (h : HeapMapped paging S heap s requests)
include h

/-- The backed part begins with a page. -/
theorem HeapMapped.mapped_le_iff (va : ℕ) :
    heap.mappedStart.asUsize ≤ va / frameSize * frameSize ↔ heap.mappedStart.asUsize ≤ va := by
  have := h.mapped_mod
  unfold frameSize at *
  omega

/-- The leaf of an address is that of its page. -/
theorem HeapMapped.walk_page {va pa : ℕ} {leaf : Leaf} (hlow : heapStart ≤ va) (hhigh : va < heapEnd)
    (hva : s.1.translate va = some (pa, leaf)) : HeapPage (va / frameSize * frameSize) ∧
      walk s.1.entries paging.root.frame.number (vpn (va / frameSize * frameSize)) = some leaf := by
  obtain ⟨hpage, -, hvpn⟩ := exists_heapPage hlow hhigh
  rw [h.sound.translate_eq] at hva
  rw [← hvpn]
  exact ⟨hpage, (walk_of_translate hva).2⟩

theorem HeapMapped.installed {va pa : ℕ} {leaf : Leaf} (hlow : heapStart ≤ va)
    (hhigh : va < heapEnd) (hva : s.1.translate va = some (pa, leaf)) :
    heap.mappedStart.asUsize ≤ va ∧ ∃ n, leaf = leafFor n .readWrite .supervisor ∧
      ∃ request ∈ requests, request.page.asUsize = va / frameSize * frameSize ∧
        request.Installs paging n := by
  obtain ⟨hpage, hwalk⟩ := h.walk_page hlow hhigh hva
  rcases Nat.lt_or_ge (va / frameSize * frameSize) heap.mappedStart.asUsize with hlt | hle
  · rw [h.unmapped _ hpage hlt] at hwalk
    cases hwalk
  · obtain ⟨n, hn, -, hrequest⟩ := h.mapped _ hpage hle
    rw [hwalk] at hn
    exact ⟨(h.mapped_le_iff va).mp hle, n, Option.some.inj hn, hrequest⟩

theorem HeapMapped.agree (hclaimed : paging.heapClaimed = true) :
    HeapPagesAgree paging heap s requests where
  aligned := h.mapped_mod
  backed va hlow hhigh := by
    constructor
    · rintro ⟨x, hx⟩
      exact (h.installed hlow hhigh hx).1
    · intro hle
      obtain ⟨hpage, hcanonical, hvpn⟩ := exists_heapPage hlow hhigh
      obtain ⟨n, hn, -⟩ := h.mapped _ hpage ((h.mapped_le_iff va).mpr hle)
      rw [← hvpn] at hn
      exact ⟨_, (h.sound.translate_eq va).trans (translate_of_walk hcanonical hn)⟩
  empty va hlow hlt := by
    obtain ⟨hpage, -, hvpn⟩ := exists_heapPage hlow (hlt.trans_le h.mapped_le)
    refine leafEmpty_of_walk h.clean ?_
    rw [hvpn]
    refine h.unmapped _ hpage (Nat.not_le.mp fun hle => ?_)
    exact absurd ((h.mapped_le_iff va).mp hle) (Nat.not_le.mpr hlt)
  leaf va pa leaf hlow hhigh hva := by
    obtain ⟨-, n, rfl, -⟩ := h.installed hlow hhigh hva
    exact ⟨rfl, rfl, rfl, rfl⟩
  zeroed va pa leaf hlow hhigh hva := by
    obtain ⟨-, n, rfl, hrequest⟩ := h.installed hlow hhigh hva
    exact hrequest
  distinct va va' pa pa' leaf leaf' hlow hhigh hlow' hhigh' hva hva' heq := by
    obtain ⟨hpage, hwalk⟩ := h.walk_page hlow hhigh hva
    obtain ⟨hpage', hwalk'⟩ := h.walk_page hlow' hhigh' hva'
    have hsame := h.distinct _ _ _ _ hpage hpage' hwalk hwalk' heq
    exact Nat.eq_of_mul_eq_mul_right (by decide) hsame
  proper := h.proper
  reserved address frame permissions hlow hhigh :=
    KernelPaging.fails_mapPage hclaimed hlow hhigh frame permissions s

end Addresses

end HeapMapped

/-- **The heap's bookkeeping and the page tables never drift apart.** In an address space built by
`into_kernel`, with any mappings before and after, once `claim_heap` has returned a heap they agree
in every state that calls of the heap and of the mapping functions reach. The heap has been made by
requests that are remembered, and every run of these calls is one that remembers its requests. -/
theorem heap_pages_agree (S : Supply F) (bootstrap : BootstrapPaging) (kernelPhysicalStart : PhysAddr)
    (sections : KernelSections) (dtbVirtual : VirtAddr) (dtbPhysical : PhysRange) (s : Machine × F)
    (hboot : bootstrap.Identity s.1) (hvalid : S.Valid s.2)
    (hfresh : ∀ t ∈ S.pool s.2, t ∉ tables s.1.entries s.1.root) :
    Sat (bootstrap.intoKernel kernelPhysicalStart sections dtbVirtual dtbPhysical) s fun r s₁ =>
      ∀ built, r = .ok built → ∀ s₂, Run (sharedCalls built) s₁ s₂ →
      ∀ heap paging s₃, Returns KernelPaging.claimHeap (built, s₂) heap (paging, s₃) →
      ∃ claimed,
        Returns (KernelHeap.new heapRange (noted paging.heapBacking)) (s₂, []) heap (s₃, claimed) ∧
        (∀ t, Run (heapCalls paging) (heap, s₃) t →
          ∃ requests, Run (notedCalls paging) (heap, s₃, claimed) (t.1, t.2, requests)) ∧
        ∀ heap' s₄ requests, Run (notedCalls paging) (heap, s₃, claimed) (heap', s₄, requests) →
          HeapPagesAgree paging heap' s₄ requests := by
  refine (sat_intoKernel hboot hvalid hfresh).mono fun r s₁ hr built heq s₂ hshared heap paging s₃
    hclaim => ?_
  obtain ⟨dtbFrame, hbuilt⟩ := hr built heq
  obtain ⟨hsound, hclean⟩ := sat_sharedCalls hbuilt.sound hbuilt.clean hshared
  obtain ⟨hclaimed, claimed, hnew, hmapped⟩ := heapMapped_of_claim hsound hclean hclaim
  refine ⟨claimed, hnew, fun t ht => ?_, fun heap' s₄ requests hrun => ?_⟩
  · obtain ⟨⟨heap', s₄, requests⟩, hnoted, rfl⟩ :=
      exists_noted (s := (heap, s₃, claimed)) ht
    exact ⟨requests, hnoted⟩
  · have hkept : HeapMapped paging S heap' s₄ requests := by
      refine hrun.induct (P := fun t => HeapMapped paging S t.1 t.2.1 t.2.2) hmapped ?_
      rintro ⟨heap₁, s₁, requests₁⟩ c h ⟨call, rfl⟩
      exact h.sat_run hclaimed call
    exact hkept.agree hclaimed

/-- A layout that spans three pages. -/
def spanningLayout : Layout := ⟨0x2800, 32, by decide, 5, by decide, by decide⟩

/-- The small kernel claims its heap and gets a block on three pages. -/
theorem heap_pages_agree_sample :
    Succeeds (sampleBootstrap.intoKernel ⟨0x200000, by decide⟩ sampleSections sampleDtbVirtual
      sampleDtbRange) (sampleBootMachine, sampleStock) fun built s₁ =>
      Succeeds KernelPaging.claimHeap (built, s₁) fun heap s₂ => ∃ claimed,
        Succeeds (KernelHeap.allocate (noted s₂.1.heapBacking) spanningLayout) (heap, s₂.2, claimed)
          fun _ t => HeapPagesAgree s₂.1 t.1 t.2.1 t.2.2 := by
  have hagree := heap_pages_agree listSupply sampleBootstrap ⟨0x200000, by decide⟩ sampleSections
    sampleDtbVirtual sampleDtbRange (sampleBootMachine, sampleStock) identity_sample
    valid_sampleStock fun _ => fresh_sampleStock
  obtain ⟨built, s₁, hinto, ⟨hstock, dtbFrame, hbuilt⟩, hall⟩ :=
    succeeds_intoKernel_sample.and hagree
  refine ⟨built, s₁, hinto, ?_⟩
  have hempty := hbuilt.heap_empty sampleSections_inside (by decide) (by decide) (by decide)
  obtain ⟨heap, ⟨paging, s₂⟩, hclaim, hrange, hcursor, hrest⟩ := KernelPaging.succeeds_claimHeap
    hbuilt.sound hbuilt.clean hbuilt.unclaimed hempty (hstock.mono (by decide : 9 + 3 ≤ 48))
  refine ⟨heap, (paging, s₂), hclaim, ?_⟩
  obtain ⟨hclaimed, requests, -, hmapped⟩ := heapMapped_of_claim hbuilt.sound hbuilt.clean hclaim
  obtain ⟨claimed, -, -, hruns⟩ := hall built rfl s₁ .start heap paging s₂ hclaim
  have hplace : heap.placement spanningLayout = some ⟨heapEnd - 0x2800, by decide⟩ := by
    rw [KernelHeap.placement, hrange, hcursor]
    decide
  have hpages : heap.mappedStart.asUsize - ((⟨heapEnd - 0x2800, by decide⟩ : VirtAddr).clear
      (frameSize - 1)).asUsize ≤ 3 * frameSize := by
    have hle := hmapped.mapped_le
    have hbottom : ((⟨heapEnd - 0x2800, by decide⟩ : VirtAddr).clear (frameSize - 1)).asUsize =
        heapEnd - 3 * frameSize := by decide
    omega
  obtain ⟨p, t, hallocate, -⟩ := hmapped.succeeds_allocate hclaimed (by decide) hplace (n := 0)
    (hrest.mono (by unfold frameSize at *; omega))
  obtain ⟨⟨heap', s₃, requests'⟩, hnoted, -⟩ :=
    (hides_allocate spanningLayout).returns (s := (heap, s₂, claimed)) hallocate
  refine ⟨claimed, p, _, hnoted, hruns heap' s₃ requests' ?_⟩
  exact Run.start.next (r := .ok ()) ⟨.allocate spanningLayout, rfl⟩
    (congrArg (Except.map _) hnoted)

end Barebone.Kernel

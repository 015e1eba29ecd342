import BareboneKernel.Kernel.Image
import BareboneKernel.Kernel.IntoKernel

/-!
# User and kernel memory stay apart

After `into_kernel` the address space is changed by a few calls only. Frames are handed to them as
tokens, each taken from the allocator once and given away once.

* `Vm`, `Call`: the state of the machine with the tokens at hand, and the calls;
* `reservedFrames`: the frames of the sections and of the device tree;
* `Isolated`: who owns which frame, an invariant that couples page tables, allocator and tokens;
* `Isolated.grown`: a call that adds at most one page keeps it;
* **`user_kernel_isolation`**: what every reachable address space looks like.
-/

set_option autoImplicit false

namespace Barebone.Kernel

open Exec Word Sv39

variable {F : Type}

/-! ## Calls -/

/-- The state of the machine, with the frames that have been taken and not yet given away. -/
structure Vm (F : Type) where
  paging : KernelPaging
  machine : Machine
  allocator : F
  owned : List AllocatedFrame

/-- Calls that change the address space. -/
inductive Call where
  | allocate
  | mapPage (address : VirtAddr) (frame : AllocatedFrame) (permissions : PagePermissions)
  | mapUserPage (address : VirtAddr) (frame : AllocatedFrame) (permissions : PagePermissions)
  | claimHeap
  | heapBacking (address : VirtAddr)
  | zeroFrame (frame : AllocatedFrame)
  | imageMapPage (address : VirtAddr) (bytes : List UInt8) (permissions : PagePermissions)

namespace Vm

/-- The memory and the allocator. -/
def space (s : Vm F) : Machine × F := (s.machine, s.allocator)

/-- Run a program on the memory and the allocator, and drop its error. -/
def onSpace {ε α : Type} (c : Exec (Machine × F) ε α) : Exec (Vm F) Unit α :=
  mapError (fun _ => ()) (zoom space
    (fun t s => { s with machine := t.1, allocator := t.2 }) c)

/-- Run a program on the paging capability too. -/
def onPaging {ε α : Type} (c : Exec (KernelPaging × Machine × F) ε α) : Exec (Vm F) Unit α :=
  mapError (fun _ => ()) (zoom (fun s => (s.paging, s.space))
    (fun t s => ⟨t.1, t.2.1, t.2.2, s.owned⟩) c)

/-- Give a token away. -/
def consume (frame : AllocatedFrame) (s : Vm F) : Vm F := { s with owned := s.owned.erase frame }

end Vm

namespace Call

variable [FrameAllocator F]

/-- A frame is only passed on by whoever has taken it. -/
def Allowed (s : Vm F) : Call → Prop
  | mapPage _ frame _ => frame ∈ s.owned
  | mapUserPage _ frame _ => frame ∈ s.owned
  | zeroFrame frame => frame ∈ s.owned
  | _ => True

/-- A call moves the token of a page it maps, whether it succeeds or fails. -/
def run : Call → Exec (Vm F) Unit Unit
  | allocate => do
    let frame ← Vm.onSpace allocateFrame
    modify fun s => { s with owned := frame :: s.owned }
  | mapPage address frame permissions => do
    modify (Vm.consume frame)
    let s ← get
    Vm.onSpace (s.paging.mapPage address frame permissions)
  | mapUserPage address frame permissions => do
    modify (Vm.consume frame)
    let s ← get
    Vm.onSpace (s.paging.mapUserPage address frame permissions)
  | claimHeap => do
    let _ ← Vm.onPaging KernelPaging.claimHeap
    pure ()
  | heapBacking address => do
    let s ← get
    Vm.onSpace (s.paging.heapBacking address)
  | zeroFrame frame => do
    let s ← get
    Vm.onSpace (onMachine (s.paging.zeroFrame frame))
  | imageMapPage address bytes permissions => do
    let s ← get
    Vm.onSpace (Image.mapPage s.paging address bytes permissions)

end Call

/-- The programs that may run in a state. -/
def vmCalls [FrameAllocator F] (s : Vm F) (c : Exec (Vm F) Unit Unit) : Prop :=
  ∃ call : Call, call.Allowed s ∧ c = call.run

/-! ## Frames that are never handed out -/

/-- The frames of the sections. -/
def sectionFrames (kernelPhysicalStart : PhysAddr) (sections : KernelSections) : Set ℕ :=
  {n | ∃ range permissions frame, (some range, permissions) ∈ sections.permissions ∧
    sections.physicalStart kernelPhysicalStart range = some frame ∧
    frame.number ≤ n ∧ n < frame.number + rangePages range}

/-- The frames of the device tree. -/
def dtbFrames (dtbPhysical : PhysRange) : Set ℕ :=
  {n | dtbPhysical.start.asUsize / frameSize ≤ n ∧ n * frameSize < dtbPhysical.stop.asUsize}

def reservedFrames (kernelPhysicalStart : PhysAddr) (sections : KernelSections)
    (dtbPhysical : PhysRange) : Set ℕ :=
  sectionFrames kernelPhysicalStart sections ∪ dtbFrames dtbPhysical

/-! ## Pages and frames -/

/-- **Pages on frames of their own**: no page lies on a frame of the pool or of a token, and only that
of the fixmap on the frame of a table; pages share reserved frames at most, and none of them is for
user mode. -/
structure PagesApart (τ : Vpn → Option Leaf) (pool tables tokens reserved : Set ℕ) : Prop where
  placed : ∀ v leaf, τ v = some leaf →
    ∃ address, Canonical address ∧ address % frameSize = 0 ∧ v = vpn address ∧ Placed address leaf
  pool : ∀ v leaf, τ v = some leaf → leaf.frame ∉ pool
  tokens : ∀ v leaf, τ v = some leaf → leaf.frame ∉ tokens
  tables : ∀ v leaf, τ v = some leaf → leaf.frame ∈ tables → v = vpn fixmapTableBase
  user : ∀ v leaf, τ v = some leaf → leaf.user = true → leaf.frame ∉ reserved
  shared : ∀ v v' leaf leaf', τ v = some leaf → τ v' = some leaf' → leaf.frame = leaf'.frame →
    v = v' ∨ leaf.frame ∈ reserved
  exclusive : ∀ v v' leaf leaf', τ v = some leaf → τ v' = some leaf' → leaf.frame = leaf'.frame →
    ¬(leaf.write = true ∧ leaf'.execute = true)

section PagesApart

variable {τ τ' : Vpn → Option Leaf} {pool pool' tables tables' tokens tokens' reserved : Set ℕ}
  {address : ℕ} {leaf : Leaf}

/-- Frames may move from the pool to the tables. -/
theorem PagesApart.mono (h : PagesApart τ pool tables tokens reserved) (hpool : pool' ⊆ pool)
    (htables : tables' ⊆ tables ∪ pool) (htokens : tokens' ⊆ tokens) :
    PagesApart τ pool' tables' tokens' reserved where
  placed := h.placed
  pool v leaf hv hin := h.pool v leaf hv (hpool hin)
  tokens v leaf hv hin := h.tokens v leaf hv (htokens hin)
  tables v leaf hv hin := by
    rcases htables hin with hold | hnew
    · exact h.tables v leaf hv hold
    · exact absurd hnew (h.pool v leaf hv)
  user := h.user
  shared := h.shared
  exclusive := h.exclusive

/-- A page of the grown translation is an old one or the one that has been added. -/
theorem Adds.cases {leaf' : Leaf} {v : Vpn} (h : Adds τ τ' address leaf) (hv : τ' v = some leaf') :
    v = vpn address ∧ leaf' = leaf ∨ τ v = some leaf' := by
  rw [h.update] at hv
  by_cases heq : v = vpn address
  · subst heq
    rw [Function.update_self] at hv
    exact .inl ⟨rfl, (Option.some.inj hv).symm⟩
  · rw [Function.update_of_ne heq] at hv
    exact .inr hv

/-- A page on a frame of its own may be added. -/
theorem PagesApart.add (h : PagesApart τ pool tables tokens reserved) (hadds : Adds τ τ' address leaf)
    (hpool : leaf.frame ∉ pool) (htables : leaf.frame ∉ tables) (htokens : leaf.frame ∉ tokens)
    (hreserved : leaf.frame ∉ reserved) (hnew : ∀ v leaf', τ v = some leaf' → leaf'.frame ≠ leaf.frame) :
    PagesApart τ' pool tables tokens reserved where
  placed v leaf' hv := by
    rcases hadds.cases hv with ⟨rfl, rfl⟩ | hold
    · exact ⟨address, hadds.canonical, hadds.aligned, rfl, hadds.placed⟩
    · exact h.placed v leaf' hold
  pool v leaf' hv := by
    rcases hadds.cases hv with ⟨-, rfl⟩ | hold
    · exact hpool
    · exact h.pool v leaf' hold
  tokens v leaf' hv := by
    rcases hadds.cases hv with ⟨-, rfl⟩ | hold
    · exact htokens
    · exact h.tokens v leaf' hold
  tables v leaf' hv hin := by
    rcases hadds.cases hv with ⟨-, rfl⟩ | hold
    · exact absurd hin htables
    · exact h.tables v leaf' hold hin
  user v leaf' hv huser := by
    rcases hadds.cases hv with ⟨-, rfl⟩ | hold
    · exact hreserved
    · exact h.user v leaf' hold huser
  shared v v' l l' hv hv' heq := by
    rcases hadds.cases hv with ⟨rfl, rfl⟩ | hold
    · rcases hadds.cases hv' with ⟨rfl, rfl⟩ | hold'
      · exact .inl rfl
      · exact absurd heq.symm (hnew v' l' hold')
    · rcases hadds.cases hv' with ⟨rfl, rfl⟩ | hold'
      · exact absurd heq (hnew v l hold)
      · exact h.shared v v' l l' hold hold' heq
  exclusive v v' l l' hv hv' heq := by
    rcases hadds.cases hv with ⟨rfl, rfl⟩ | hold
    · rcases hadds.cases hv' with ⟨rfl, rfl⟩ | hold'
      · exact hadds.exclusive
      · exact absurd heq.symm (hnew v' l' hold')
    · rcases hadds.cases hv' with ⟨rfl, rfl⟩ | hold'
      · exact absurd heq (hnew v l hold)
      · exact h.exclusive v v' l l' hold hold' heq

end PagesApart

/-! ## The invariant -/

/-- The frames whose tokens are at hand. -/
def tokenFrames (owned : List AllocatedFrame) : Set ℕ :=
  {n | ∃ frame ∈ owned, frame.frame.Representable ∧ frame.frame.number = n}

variable [FrameAllocator F]

/-- Tokens are for frames of their own, which the allocator does not hand out again. -/
structure Tokens (S : Supply F) (reserved : Set ℕ) (f : F) (owned : List AllocatedFrame) : Prop where
  apart : owned.Pairwise fun frame frame' =>
    frame.frame.Representable → frame.frame.number ≠ frame'.frame.number
  pool : ∀ n ∈ tokenFrames owned, n ∉ S.pool f
  reserved : ∀ n ∈ tokenFrames owned, n ∉ reserved

omit [FrameAllocator F] in
theorem not_mem_tokenFrames_nil (n : ℕ) : n ∉ tokenFrames [] := by
  rintro ⟨frame, hmem, -⟩
  cases hmem

/-- At the start no token is held. -/
theorem Tokens.nil (S : Supply F) (reserved : Set ℕ) (f : F) : Tokens S reserved f [] :=
  ⟨.nil, fun n hn => absurd hn (not_mem_tokenFrames_nil n),
    fun n hn => absurd hn (not_mem_tokenFrames_nil n)⟩

/-- **Who owns which frame**: the pool, the tables, the holders of tokens, the reserved frames and the
pages are apart. -/
structure Isolated (paging : KernelPaging) (S : Supply F) (reserved : Set ℕ) (s : Machine × F)
    (owned : List AllocatedFrame) : Prop where
  sound : paging.Sound S s
  reserved_pool : ∀ n ∈ reserved, n ∉ S.pool s.2
  reserved_tables : ∀ n ∈ reserved, n ∉ tables s.1.entries paging.root.frame.number
  tokens : Tokens S reserved s.2 owned
  tokens_tables : ∀ n ∈ tokenFrames owned, n ∉ tables s.1.entries paging.root.frame.number
  pages : PagesApart (walk s.1.entries paging.root.frame.number) (S.pool s.2)
    (tables s.1.entries paging.root.frame.number) (tokenFrames owned) reserved

section Isolated

variable {paging : KernelPaging} {S : Supply F} {reserved usable : Set ℕ} {s s' : Machine × F}
  {owned owned' : List AllocatedFrame} {frame : AllocatedFrame}

theorem tokenFrames_mono (hsub : owned'.Sublist owned) : tokenFrames owned' ⊆ tokenFrames owned :=
  fun _ ⟨frame, hmem, h⟩ => ⟨frame, hsub.mem hmem, h⟩

theorem Tokens.mono {f f' : F} (h : Tokens S reserved f owned) (hpool : S.pool f' ⊆ S.pool f)
    (hsub : owned'.Sublist owned) : Tokens S reserved f' owned' where
  apart := h.apart.sublist hsub
  pool n hn hin := h.pool n (tokenFrames_mono hsub hn) (hpool hin)
  reserved n hn := h.reserved n (tokenFrames_mono hsub hn)

/-- A token that has been given away is not at hand a second time. -/
theorem Tokens.erase {f : F} (h : Tokens S reserved f owned) (hmem : frame ∈ owned)
    (hrep : frame.frame.Representable) :
    frame.frame.number ∉ tokenFrames (owned.erase frame) := by
  have hsymm : ∀ f g : AllocatedFrame, (f.frame.Representable → f.frame.number ≠ g.frame.number) →
      g.frame.Representable → g.frame.number ≠ f.frame.number := by
    intro f g hfg hg heq
    exact hfg (by unfold PhysFrame.Representable at *; omega) heq.symm
  have hperm := List.perm_cons_erase hmem
  have hpair := (hperm.pairwise_iff (fun {f g} => hsymm f g)).mp h.apart
  rintro ⟨frame', hmem', -, heq⟩
  exact (List.pairwise_cons.mp hpair).1 frame' hmem' hrep heq.symm

/-- Frames may move from the pool to the tables. -/
theorem Isolated.advance (h : Isolated paging S reserved s owned) (hsound : paging.Sound S s')
    (ha : Advance S paging.root.frame.number s s') (hsub : owned'.Sublist owned)
    (hpages : PagesApart (walk s'.1.entries paging.root.frame.number) (S.pool s'.2)
      (tables s'.1.entries paging.root.frame.number) (tokenFrames owned') reserved) :
    Isolated paging S reserved s' owned' where
  sound := hsound
  reserved_pool n hn hin := h.reserved_pool n hn (ha.pool hin)
  reserved_tables n hn hin := by
    rcases ha.tables n hin with hold | ⟨hpool, -⟩
    · exact h.reserved_tables n hn hold
    · exact h.reserved_pool n hn hpool
  tokens := h.tokens.mono ha.pool hsub
  tokens_tables n hn hin := by
    rcases ha.tables n hin with hold | ⟨hpool, -⟩
    · exact h.tokens_tables n (tokenFrames_mono hsub hn) hold
    · exact h.tokens.pool n (tokenFrames_mono hsub hn) hpool
  pages := hpages

/-- **A call keeps the invariant** when it adds at most one page, on a frame that nobody else owns. -/
theorem Isolated.grown (h : Isolated paging S reserved s owned)
    (hg : Grown paging S usable s s') (hsub : owned'.Sublist owned)
    (husable : ∀ n ∈ usable, n < 2 ^ 44 → n ∉ reserved ∧ n ∉ tokenFrames owned' ∧
      ∀ v leaf, walk s.1.entries paging.root.frame.number v = some leaf → leaf.frame ≠ n) :
    Isolated paging S reserved s' owned' := by
  have hpages := h.pages.mono hg.advance.pool
    (fun t ht => (hg.advance.tables t ht).imp_right And.left) (tokenFrames_mono hsub)
  refine h.advance hg.sound hg.advance hsub ?_
  rcases hg.walk with hwalk | ⟨address, leaf, hmem, hlt, hpool, htables, hadds⟩
  · rw [hwalk]
    exact hpages
  · obtain ⟨hreserved, htokens, hnew⟩ := husable _ hmem hlt
    exact hpages.add hadds hpool htables htokens hreserved hnew

/-- A page may be added on a frame of the pool. -/
theorem Isolated.grown_pool (h : Isolated paging S reserved s owned)
    (hg : Grown paging S (S.pool s.2) s s') : Isolated paging S reserved s' owned := by
  refine h.grown hg (List.Sublist.refl owned) fun n hn _ => ⟨?_, ?_, ?_⟩
  · exact fun hin => h.reserved_pool n hin hn
  · exact fun hin => h.tokens.pool n hin hn
  · rintro v leaf hv rfl
    exact h.pages.pool v leaf hv hn

/-- A page may be added on the frame of a token, which is given away. -/
theorem Isolated.grown_token (h : Isolated paging S reserved s owned) (hmem : frame ∈ owned)
    (hg : Grown paging S {frame.frame.number} s s') :
    Isolated paging S reserved s' (owned.erase frame) := by
  refine h.grown hg List.erase_sublist fun n hn hlt => ?_
  obtain rfl := Set.mem_singleton_iff.mp hn
  have htoken : frame.frame.number ∈ tokenFrames owned := ⟨frame, hmem, hlt, rfl⟩
  refine ⟨h.tokens.reserved _ htoken, h.tokens.erase hmem hlt, ?_⟩
  intro v leaf hv heq
  exact h.pages.tokens v leaf hv (heq ▸ htoken)

/-- A token is outside the pool and the tables. -/
theorem Isolated.token (h : Isolated paging S reserved s owned) (hmem : frame ∈ owned)
    (hrep : frame.frame.Representable) : frame.frame.number ∉ S.pool s.2 ∧
      frame.frame.number ∉ tables s.1.entries paging.root.frame.number := by
  have htoken : frame.frame.number ∈ tokenFrames owned := ⟨frame, hmem, hrep, rfl⟩
  exact ⟨h.tokens.pool _ htoken, h.tokens_tables _ htoken⟩

/-- The frame of a token may be written. -/
theorem Isolated.store (h : Isolated paging S reserved s owned) {n : ℕ} {bytes : List UInt8}
    (hn : n ∉ tables s.1.entries paging.root.frame.number) (hlen : bytes.length ≤ frameSize) :
    Isolated paging S reserved (s.1.store (n * frameSize) bytes, s.2) owned where
  sound := h.sound.store hn hlen
  reserved_pool := h.reserved_pool
  reserved_tables := by
    rw [tables_store hn hlen]
    exact h.reserved_tables
  tokens := h.tokens
  tokens_tables := by
    rw [tables_store hn hlen]
    exact h.tokens_tables
  pages := by
    rw [tables_store hn hlen, walk_store hn hlen]
    exact h.pages

/-- A frame of the pool may be taken. -/
theorem Isolated.take (h : Isolated paging S reserved s owned)
    (h' : Isolated paging S reserved s' owned) (hmachine : s'.1 = s.1)
    (hframe : frame.frame.Representable →
      frame.frame.number ∈ S.pool s.2 ∧ frame.frame.number ∉ S.pool s'.2) :
    Isolated paging S reserved s' (frame :: owned) := by
  have hcases : ∀ n ∈ tokenFrames (frame :: owned), n ∈ tokenFrames owned ∨
      n ∈ S.pool s.2 ∧ n ∉ S.pool s'.2 := by
    rintro n ⟨frame', hmem, hrep, rfl⟩
    rcases List.mem_cons.mp hmem with rfl | hmem
    · exact .inr (hframe hrep)
    · exact .inl ⟨frame', hmem, hrep, rfl⟩
  refine ⟨h'.sound, h'.reserved_pool, h'.reserved_tables, ⟨?_, ?_, ?_⟩, ?_,
    { h'.pages with tokens := ?_ }⟩
  · refine List.pairwise_cons.mpr ⟨fun frame' hmem hrep heq => ?_, h.tokens.apart⟩
    have hrep' : frame'.frame.Representable := by
      unfold PhysFrame.Representable at *
      omega
    exact h.tokens.pool _ ⟨frame', hmem, hrep', heq.symm⟩ (hframe hrep).1
  · intro n hn
    rcases hcases n hn with hold | ⟨-, hout⟩
    · exact h'.tokens.pool n hold
    · exact hout
  · intro n hn
    rcases hcases n hn with hold | ⟨hin, -⟩
    · exact h.tokens.reserved n hold
    · exact fun hreserved => h.reserved_pool n hreserved hin
  · intro n hn
    rcases hcases n hn with hold | ⟨hin, -⟩
    · exact h'.tokens_tables n hold
    · rw [hmachine]
      exact h.sound.fresh n hin
  · intro v leaf hv hn
    rcases hcases _ hn with hold | ⟨hin, -⟩
    · exact h'.pages.tokens v leaf hv hold
    · rw [hmachine] at hv
      exact h.pages.pool v leaf hv hin

/-- The invariant does not depend on the claim of the heap. -/
theorem Isolated.claim (h : Isolated paging S reserved s owned) :
    Isolated { paging with heapClaimed := true } S reserved s owned where
  sound := h.sound.claim
  reserved_pool := h.reserved_pool
  reserved_tables := h.reserved_tables
  tokens := h.tokens
  tokens_tables := h.tokens_tables
  pages := h.pages

end Isolated

/-! ## Every call keeps it -/

/-- The invariant of the whole state. -/
def Vm.Isolated (S : Supply F) (reserved : Set ℕ) (s : Vm F) : Prop :=
  Kernel.Isolated s.paging S reserved s.space s.owned

section Calls

variable {S : Supply F} {reserved : Set ℕ} {s : Vm F}

omit [FrameAllocator F] in
theorem Vm.sat_onSpace {ε α : Type} {c : Exec (Machine × F) ε α} {P : Machine × F → Prop}
    {Q : Except Unit α → Vm F → Prop} (h : Sat c s.space fun _ t => P t)
    (hPQ : ∀ r t, P t → Q r { s with machine := t.1, allocator := t.2 }) : Sat (Vm.onSpace c) s Q := by
  refine (Sat.mapError (Sat.zoom h)).mono ?_
  rintro r s' ⟨r', ⟨t, ht, rfl⟩, -⟩
  exact hPQ r t ht

omit [FrameAllocator F] in
/-- A program on the memory, as part of a call. -/
theorem onSpace_eq {ε α : Type} {c : Exec (Machine × F) ε α} {v : Vm F} {r : Except ε α}
    {t : Machine × F} (h : c v.space = .ok (r, t)) : Vm.onSpace c v =
      .ok (r.mapError fun _ => (), { v with machine := t.1, allocator := t.2 }) := by
  rw [Vm.onSpace, mapError, zoom, h]
  rfl

omit [FrameAllocator F] in
theorem Vm.sat_onPaging {ε α : Type} {c : Exec (KernelPaging × Machine × F) ε α}
    {P : KernelPaging × Machine × F → Prop} {Q : Except Unit α → Vm F → Prop}
    (h : Sat c (s.paging, s.space) fun _ t => P t)
    (hPQ : ∀ r t, P t → Q r ⟨t.1, t.2.1, t.2.2, s.owned⟩) : Sat (Vm.onPaging c) s Q := by
  obtain ⟨r, t, hrun, ht⟩ := h
  exact ⟨_, _, by rw [Vm.onPaging, mapError, zoom, hrun]; rfl, hPQ _ t ht⟩

theorem Vm.Isolated.sat_allocate (h : s.Isolated S reserved) :
    Sat Call.allocate.run s fun _ s' => s'.Isolated S reserved := by
  obtain ⟨r, t, hrun, ht⟩ := sat_allocateFrame h.sound.valid
  have hsound : s.paging.Sound S t := by
    refine ⟨ht.machine ▸ h.sound.fixmap, ht.valid, ht.machine ▸ h.sound.wellFormed, ?_⟩
    intro n hn
    rw [ht.machine]
    exact h.sound.fresh n (ht.pool hn)
  have hisolated : Kernel.Isolated s.paging S reserved t s.owned :=
    h.grown_pool (.shortage hsound ht.machine ht.pool)
  cases r with
  | error e =>
    have hfails : Fails (Vm.onSpace allocateFrame) s ()
        { s with machine := t.1, allocator := t.2 } :=
      fails_mapError.mpr ⟨e, Fails.zoom hrun, rfl⟩
    exact hfails.bind.sat hisolated
  | ok frame =>
    have hreturns : Returns (Vm.onSpace allocateFrame) s frame
        { s with machine := t.1, allocator := t.2 } :=
      returns_mapError.mpr (returns_zoom.mpr ⟨t, hrun, rfl⟩)
    exact hreturns.sat_bind (sat_modify (f := fun _ => pure ()) (sat_pure
      (h.take hisolated ht.machine fun hrep => ht.frame frame rfl hrep)))

theorem Vm.Isolated.sat_claimHeap (h : s.Isolated S reserved) :
    Sat KernelPaging.claimHeap (s.paging, s.space) fun _ s' =>
      Kernel.Isolated s'.1 S reserved s'.2 s.owned := by
  have hkept : Kept (KernelPaging.heapBacking { s.paging with heapClaimed := true })
      fun heap t => heap.Paged ∧
        Kernel.Isolated { s.paging with heapClaimed := true } S reserved t s.owned := by
    refine ⟨fun hI => hI.1, fun {heap t page} hI _ hpage => ?_⟩
    refine (KernelPaging.sat_heapBacking_grown hI.2.sound page).mono fun r t' ht => ?_
    have hisolated := hI.2.grown_pool ht
    cases r with
    | ok u => exact ⟨hI.1.back hpage, hisolated⟩
    | error e => exact ⟨hI.1, hisolated⟩
  refine (KernelPaging.sat_claimHeap h.sound hkept (fun _ => ⟨⟨?_, ?_⟩, h.claim⟩) h.claim
    fun heap t hI => hI.2).mono fun r s' hr => ?_
  · decide
  · decide
  · obtain ⟨rfl | ⟨heq, hisolated⟩, -⟩ := hr
    · exact h
    · rw [heq]
      exact hisolated

/-- **A call keeps the invariant**, whether it succeeds or fails. -/
theorem Vm.Isolated.sat_run (h : s.Isolated S reserved) {call : Call} (hallowed : call.Allowed s) :
    Sat call.run s fun _ s' => s'.Isolated S reserved := by
  cases call with
  | allocate => exact h.sat_allocate
  | mapPage address frame permissions =>
    refine sat_modify (sat_get ?_)
    refine Vm.sat_onSpace (P := fun t => Kernel.Isolated s.paging S reserved t
      (s.owned.erase frame)) ?_ fun r t ht => ht
    show Sat (s.paging.mapPage address frame permissions) s.space _
    unfold KernelPaging.mapPage
    dsimp only
    split
    · exact sat_fail (h.grown_token hallowed (.refl h.sound))
    · exact (KernelPaging.sat_installPage_grown h.sound address frame permissions
        fun hrep => h.token hallowed hrep).mono fun r t ht => h.grown_token hallowed ht
  | mapUserPage address frame permissions =>
    refine sat_modify (sat_get ?_)
    refine Vm.sat_onSpace (P := fun t => Kernel.Isolated s.paging S reserved t
      (s.owned.erase frame)) ?_ fun r t ht => ht
    exact (KernelPaging.sat_mapUserPage_grown h.sound address frame permissions
      fun hrep => h.token hallowed hrep).mono fun r t ht => h.grown_token hallowed ht
  | claimHeap =>
    have hclaim : Sat (Vm.onPaging KernelPaging.claimHeap) s fun _ s' => s'.Isolated S reserved :=
      Vm.sat_onPaging h.sat_claimHeap fun r t ht => ht
    exact hclaim.bind (fun _ s' hs' => sat_pure hs') fun _ s' hs' => hs'
  | heapBacking address =>
    refine sat_get (Vm.sat_onSpace (P := fun t => Kernel.Isolated s.paging S reserved t s.owned) ?_
      fun r t ht => ht)
    exact (KernelPaging.sat_heapBacking_grown h.sound address).mono fun r t ht => h.grown_pool ht
  | zeroFrame frame =>
    refine sat_get (Vm.sat_onSpace (P := fun t => Kernel.Isolated s.paging S reserved t s.owned) ?_
      fun r t ht => ht)
    by_cases hrep : frame.frame.Representable
    · obtain ⟨-, hn⟩ := h.token hallowed hrep
      have hroot := h.sound.fixmap.root
      obtain ⟨hzero, -⟩ := returns_zeroFrame (KernelPaging.serves h.sound.fixmap.slot)
        h.sound.fixmap.isOpen hrep (by rwa [hroot])
      refine (returns_onMachine hzero).sat (h.store hn ?_)
      rw [List.length_replicate]
    · have hfails : Fails (s.paging.zeroFrame frame) s.machine
          (.physicalAddressNotRepresentable frame.frame.start) s.machine :=
        (KernelPaging.serves h.sound.fixmap.slot).refuse h.sound.fixmap.isOpen hrep
      have hzoom : Fails (onMachine (s.paging.zeroFrame frame)) s.space
          (.physicalAddressNotRepresentable frame.frame.start) s.space := Fails.zoom hfails
      exact hzoom.sat h
  | imageMapPage address bytes permissions =>
    refine sat_get (Vm.sat_onSpace (P := fun t => Kernel.Isolated s.paging S reserved t s.owned) ?_
      fun r t ht => ht)
    exact (h.sound.sat_imageMapPage_grown address bytes permissions).mono fun r t ht =>
      h.grown_pool ht

end Calls

/-! ## The address space of `into_kernel` -/

/-- The ranges that the kernel is given lie in the upper half. -/
structure UpperHalf (sections : KernelSections) (dtbVirtual : VirtAddr) : Prop where
  sections : ∀ range permissions, (some range, permissions) ∈ sections.permissions →
    sv39HighHalfBase ≤ range.start.asUsize
  dtb : sv39HighHalfBase ≤ dtbVirtual.asUsize

/-- The frame of a page of the kernel, which says what the page is for. -/
inductive KernelPage (kernelPhysicalStart : PhysAddr) (sections : KernelSections)
    (dtbPhysical : PhysRange) (fixmapTable : PhysFrame) (address : ℕ) (leaf : Leaf) : Prop
  | ofSection (mem : leaf.frame ∈ sectionFrames kernelPhysicalStart sections)
      (le : sections.virtualStart.asUsize ≤ address)
      (linear : leaf.frame * frameSize =
        kernelPhysicalStart.asUsize + (address - sections.virtualStart.asUsize))
  | ofDtb (mem : leaf.frame ∈ dtbFrames dtbPhysical) (write : leaf.write = false)
      (execute : leaf.execute = false)
  | ofFixmap (frame : leaf.frame = fixmapTable.number) (eq : address = fixmapTableBase)

section Built

variable {S : Supply F} {kernelPhysicalStart : PhysAddr} {sections : KernelSections}
  {dtbVirtual : VirtAddr} {dtbPhysical : PhysRange} {s s' : Machine × F} {dtbFrame : PhysFrame}
  {paging : KernelPaging} {v : Vpn} {leaf : Leaf}

/-- The frames of the pages of the device tree. -/
theorem Built.mem_dtbFrames (h : Built S kernelPhysicalStart sections dtbVirtual dtbPhysical s
    dtbFrame paging s') {i : ℕ} (hi : i < rangePages paging.dtbMapping) :
    dtbFrame.number + i ∈ dtbFrames dtbPhysical := by
  obtain ⟨hoffset, hstart, hstop, hframe⟩ := dtbPageMapping_eq_ok h.dtb
  have hlt := dtbPhysical.lt
  have hmask : pageMask = 4095 := rfl
  rw [hmask] at hstop
  unfold rangePages at hi
  unfold dtbFrames frameSize at *
  rw [Set.mem_ofPred_eq]
  omega

/-- **What the pages are for.** -/
theorem Built.page (h : Built S kernelPhysicalStart sections dtbVirtual dtbPhysical s dtbFrame
    paging s') (hhigh : UpperHalf sections dtbVirtual)
    (hv : Sv39.walk s'.1.entries paging.root.frame.number v = some leaf) :
    leaf.user = false ∧ ¬(leaf.write = true ∧ leaf.execute = true) ∧
      ∃ address, Canonical address ∧ address % frameSize = 0 ∧ v = vpn address ∧
        sv39HighHalfBase ≤ address ∧
        KernelPage kernelPhysicalStart sections dtbPhysical paging.fixmapTable address leaf := by
  obtain ⟨g, hg, i, hi, rfl, rfl⟩ := (h.walk v leaf).mp hv
  obtain ⟨hcanonical, halign⟩ := h.regular hg i hi
  refine ⟨rfl, leafFor_exclusive _ _ _, _, hcanonical, halign, rfl, ?_⟩
  rcases mem_kernelSegments.mp hg with ⟨range, permissions, frame, hmem, hframe, rfl⟩ | rfl | rfl
  · obtain ⟨hle, hstart⟩ := physicalStart_eq_some hframe
    have hbase := hhigh.sections range permissions hmem
    refine ⟨hbase.trans (Nat.le_add_right _ _), .ofSection
      ⟨range, permissions, frame, hmem, hframe, Nat.le_add_right _ _, ?_⟩
      (hle.trans (Nat.le_add_right _ _)) ?_⟩
    · exact Nat.add_lt_add_left hi _
    · show (frame.number + i) * frameSize =
        kernelPhysicalStart.asUsize + (range.start.asUsize + i * frameSize - _)
      rw [Nat.add_mul]
      omega
  · obtain ⟨-, hstart, -, -⟩ := dtbPageMapping_eq_ok h.dtb
    refine ⟨?_, .ofDtb (h.mem_dtbFrames hi) rfl rfl⟩
    have hbase := hhigh.dtb
    have hvalue := sv39HighHalfBase_eq
    show _ ≤ paging.dtbMapping.start.asUsize + i * frameSize
    rw [hstart]
    unfold frameSize
    omega
  · obtain rfl : i = 0 := Nat.lt_one_iff.mp hi
    rw [pageAt_fixmapSegment]
    exact ⟨by decide, .ofFixmap rfl rfl⟩

/-- The lower half is empty. -/
theorem Built.low (h : Built S kernelPhysicalStart sections dtbVirtual dtbPhysical s dtbFrame
    paging s') (hhigh : UpperHalf sections dtbVirtual) {va : ℕ} (hva : va < sv39LowHalfEnd) :
    s'.1.translate va = none := by
  have hends : sv39LowHalfEnd ≤ sv39HighHalfBase := by decide
  cases htranslate : s'.1.translate va with
  | none => rfl
  | some pair =>
    rw [h.translate_eq] at htranslate
    obtain ⟨hcanonical, hwalk⟩ := walk_of_translate htranslate
    obtain ⟨-, -, address, hcanonical', halign, hvpn, hbase, -⟩ := h.page hhigh hwalk
    have hpage := (vpn_eq_iff hcanonical hcanonical').mp hvpn
    unfold frameSize at *
    omega

section Reserved

variable (h : Built S kernelPhysicalStart sections dtbVirtual dtbPhysical s dtbFrame paging s')
  (hhigh : UpperHalf sections dtbVirtual)
include h

theorem Built.fixmapTable_mem :
    paging.fixmapTable.number ∈ Sv39.tables s'.1.entries paging.root.frame.number := by
  have htable := h.sound.fixmap.table
  rw [h.sound.fixmap.root] at htable
  exact mem_tables htable

include hhigh

/-- Pages lie on reserved frames, that of the fixmap apart. -/
theorem Built.frame_cases (hv : Sv39.walk s'.1.entries paging.root.frame.number v = some leaf) :
    leaf.frame ∈ reservedFrames kernelPhysicalStart sections dtbPhysical ∨
      leaf.frame = paging.fixmapTable.number ∧ v = vpn fixmapTableBase := by
  obtain ⟨-, -, address, -, -, rfl, -, hpage⟩ := h.page hhigh hv
  cases hpage with
  | ofSection hmem => exact .inl (.inl hmem)
  | ofDtb hmem => exact .inl (.inr hmem)
  | ofFixmap hframe heq => exact .inr ⟨hframe, by rw [heq]⟩

variable (hreserved : ∀ n ∈ reservedFrames kernelPhysicalStart sections dtbPhysical, n ∉ S.pool s.2)
include hreserved

/-- No frame is both written and executed: the frames of the sections are as far apart as their pages,
and pages of the device tree are only read. -/
theorem Built.exclusive {v' : Vpn} {leaf' : Leaf}
    (hv : Sv39.walk s'.1.entries paging.root.frame.number v = some leaf)
    (hv' : Sv39.walk s'.1.entries paging.root.frame.number v' = some leaf')
    (heq : leaf.frame = leaf'.frame) : ¬(leaf.write = true ∧ leaf'.execute = true) := by
  obtain ⟨-, hexclusive, address, -, -, rfl, -, hpage⟩ := h.page hhigh hv
  obtain ⟨-, -, address', -, -, rfl, -, hpage'⟩ := h.page hhigh hv'
  have hsame : address = address' → ¬(leaf.write = true ∧ leaf'.execute = true) := by
    rintro rfl
    obtain rfl := Option.some.inj (hv.symm.trans hv')
    exact hexclusive
  have hfixmap : paging.fixmapTable.number ∉ sectionFrames kernelPhysicalStart sections :=
    fun hmem => hreserved _ (.inl hmem) (h.tables _ h.fixmapTable_mem).1
  cases hpage with
  | ofSection hmem hle hlinear =>
    cases hpage' with
    | ofSection hmem' hle' hlinear' =>
      rw [heq] at hlinear
      exact hsame (by omega)
    | ofDtb _ _ hexecute => simp [hexecute]
    | ofFixmap hframe => exact absurd (hframe ▸ heq ▸ hmem) hfixmap
  | ofDtb _ hwrite => simp [hwrite]
  | ofFixmap hframe hstart =>
    cases hpage' with
    | ofSection hmem' => exact absurd (hframe ▸ heq.symm ▸ hmem') hfixmap
    | ofDtb _ _ hexecute => simp [hexecute]
    | ofFixmap _ hstart' => exact hsame (hstart.trans hstart'.symm)

variable {owned : List AllocatedFrame}
  (howned : Tokens S (reservedFrames kernelPhysicalStart sections dtbPhysical) s.2 owned)
include howned

theorem Built.pagesApart : PagesApart (Sv39.walk s'.1.entries paging.root.frame.number) (S.pool s'.2)
    (Sv39.tables s'.1.entries paging.root.frame.number) (tokenFrames owned)
    (reservedFrames kernelPhysicalStart sections dtbPhysical) where
  placed v leaf hv := by
    obtain ⟨huser, -, address, hcanonical, halign, hvpn, hbase, -⟩ := h.page hhigh hv
    refine ⟨address, hcanonical, halign, hvpn, ?_⟩
    rw [Placed, if_neg (by simp [huser])]
    exact hbase
  pool v leaf hv hin := by
    rcases h.frame_cases hhigh hv with hmem | ⟨hframe, -⟩
    · exact hreserved _ hmem (h.pool hin)
    · rw [hframe] at hin
      exact (h.tables _ h.fixmapTable_mem).2 hin
  tokens v leaf hv hin := by
    rcases h.frame_cases hhigh hv with hmem | ⟨hframe, -⟩
    · exact howned.reserved _ hin hmem
    · rw [hframe] at hin
      exact howned.pool _ hin (h.tables _ h.fixmapTable_mem).1
  tables v leaf hv hin := by
    rcases h.frame_cases hhigh hv with hmem | ⟨-, hvpn⟩
    · exact absurd (h.tables _ hin).1 (hreserved _ hmem)
    · exact hvpn
  user v leaf hv huser := by
    rw [(h.page hhigh hv).1] at huser
    cases huser
  shared v v' leaf leaf' hv hv' heq := by
    rcases h.frame_cases hhigh hv with hmem | ⟨hframe, rfl⟩
    · exact .inr hmem
    rcases h.frame_cases hhigh hv' with hmem' | ⟨-, rfl⟩
    · exact .inr (heq ▸ hmem')
    · exact .inl rfl
  exclusive v v' leaf leaf' := h.exclusive hhigh hreserved

/-- **The invariant holds when the kernel's address space has been built.** -/
theorem Built.isolated : Isolated paging S
    (reservedFrames kernelPhysicalStart sections dtbPhysical) s' owned where
  sound := h.sound
  reserved_pool n hn hin := hreserved n hn (h.pool hin)
  reserved_tables n hn hin := hreserved n hn (h.tables n hin).1
  tokens := howned.mono h.pool (List.Sublist.refl owned)
  tokens_tables n hn hin := howned.pool n hn (h.tables n hin).1
  pages := h.pagesApart hhigh hreserved howned

end Reserved

end Built

/-! ## Address by address -/

/-- **User and kernel memory are apart** in the address space of a machine: which page may be
where, and which frames pages may share. -/
structure Isolation (kernelPhysicalStart : PhysAddr) (sections : KernelSections)
    (dtbPhysical : PhysRange) (paging : KernelPaging) (m : Machine) : Prop where
  user_range : ∀ va pa leaf, m.translate va = some (pa, leaf) → leaf.user = true →
    pageSize ≤ va ∧ va < 2 ^ 38
  kernel_range : ∀ va pa leaf, m.translate va = some (pa, leaf) → leaf.user = false →
    sv39HighHalfBase ≤ va
  user_page : ∀ va va' pa pa' leaf leaf', m.translate va = some (pa, leaf) → leaf.user = true →
    m.translate va' = some (pa', leaf') → leaf'.frame = leaf.frame →
      va' / frameSize = va / frameSize
  user_table : ∀ va pa leaf, m.translate va = some (pa, leaf) → leaf.user = true →
    leaf.frame ∉ tables m.entries m.root
  user_section : ∀ va pa leaf, m.translate va = some (pa, leaf) → leaf.user = true →
    leaf.frame ∉ sectionFrames kernelPhysicalStart sections
  user_dtb : ∀ va pa leaf, m.translate va = some (pa, leaf) → leaf.user = true →
    leaf.frame ∉ dtbFrames dtbPhysical
  user_heap : ∀ va va' pa pa' leaf leaf', m.translate va = some (pa, leaf) → leaf.user = true →
    heapStart ≤ va' → va' < heapEnd → m.translate va' = some (pa', leaf') →
      leaf'.frame ≠ leaf.frame
  table_page : ∀ va pa leaf, m.translate va = some (pa, leaf) →
    leaf.frame ∈ tables m.entries m.root →
      va / frameSize = fixmapTableBase / frameSize ∧ leaf.user = false
  exclusive : ∀ va va' pa pa' leaf leaf', m.translate va = some (pa, leaf) →
    m.translate va' = some (pa', leaf') → leaf.frame = leaf'.frame →
      ¬(leaf.write = true ∧ leaf'.execute = true)
  control : ∃ pa, m.translate fixmapTableBase =
    some (pa, leafFor paging.fixmapTable.number .readWrite .supervisor)
  window : tableAt m.entries m.root (.level0 (vpn fixmapFrameBase).vpn2 (vpn fixmapFrameBase).vpn1) =
    some paging.fixmapTable.number ∧
      m.entries paging.fixmapTable.number (vpn fixmapFrameBase).vpn0 = 0

section Addresses

variable {kernelPhysicalStart : PhysAddr} {sections : KernelSections} {dtbPhysical : PhysRange}
  {paging : KernelPaging} {S : Supply F} {s : Machine × F} {owned : List AllocatedFrame}
  {reserved : Set ℕ} {va pa va' pa' : ℕ} {leaf leaf' : Leaf}

section Isolated

variable (h : Isolated paging S reserved s owned)
include h

theorem Isolated.walk_eq (hva : s.1.translate va = some (pa, leaf)) :
    Canonical va ∧ walk s.1.entries paging.root.frame.number (vpn va) = some leaf := by
  rw [h.sound.translate_eq] at hva
  exact walk_of_translate hva

/-- The address of a page. -/
theorem Isolated.placed (hva : s.1.translate va = some (pa, leaf)) :
    ∃ address, va / frameSize = address / frameSize ∧ address % frameSize = 0 ∧
      Placed address leaf := by
  obtain ⟨hcanonical, hwalk⟩ := h.walk_eq hva
  obtain ⟨address, hcanonical', halign, hvpn, hplaced⟩ := h.pages.placed _ _ hwalk
  exact ⟨address, (vpn_eq_iff hcanonical hcanonical').mp hvpn, halign, hplaced⟩

theorem Isolated.user_range (hva : s.1.translate va = some (pa, leaf)) (huser : leaf.user = true) :
    pageSize ≤ va ∧ va < 2 ^ 38 := by
  obtain ⟨address, hdiv, halign, hplaced⟩ := h.placed hva
  rw [Placed, if_pos huser] at hplaced
  have hend := sv39LowHalfEnd_eq
  have hpage : pageSize = 4096 := by decide
  unfold frameSize at *
  omega

theorem Isolated.kernel_range (hva : s.1.translate va = some (pa, leaf))
    (huser : leaf.user = false) : sv39HighHalfBase ≤ va := by
  obtain ⟨address, hdiv, halign, hplaced⟩ := h.placed hva
  rw [Placed, if_neg (by simp [huser])] at hplaced
  unfold frameSize at *
  omega

/-- A frame of user mode is mapped once. -/
theorem Isolated.user_page (hva : s.1.translate va = some (pa, leaf)) (huser : leaf.user = true)
    (hva' : s.1.translate va' = some (pa', leaf')) (heq : leaf'.frame = leaf.frame) :
    va' / frameSize = va / frameSize := by
  obtain ⟨hcanonical, hwalk⟩ := h.walk_eq hva
  obtain ⟨hcanonical', hwalk'⟩ := h.walk_eq hva'
  rcases h.pages.shared _ _ _ _ hwalk hwalk' heq.symm with hvpn | hmem
  · exact ((vpn_eq_iff hcanonical hcanonical').mp hvpn).symm
  · exact absurd hmem (h.pages.user _ _ hwalk huser)

theorem Isolated.table_page (hva : s.1.translate va = some (pa, leaf))
    (hmem : leaf.frame ∈ tables s.1.entries paging.root.frame.number) :
    va / frameSize = fixmapTableBase / frameSize ∧ leaf.user = false := by
  obtain ⟨hcanonical, hwalk⟩ := h.walk_eq hva
  have hvpn := h.pages.tables _ _ hwalk hmem
  have hcontrol := h.sound.fixmap.control
  rw [h.sound.fixmap.root, ← hvpn, hwalk] at hcontrol
  refine ⟨(vpn_eq_iff hcanonical (by decide)).mp hvpn, ?_⟩
  rw [Option.some.inj hcontrol, readWriteLeaf]

theorem Isolated.user_table (hva : s.1.translate va = some (pa, leaf)) (huser : leaf.user = true) :
    leaf.frame ∉ tables s.1.entries paging.root.frame.number := by
  intro hmem
  rw [(h.table_page hva hmem).2] at huser
  cases huser

theorem Isolated.user_heap (hva : s.1.translate va = some (pa, leaf)) (huser : leaf.user = true)
    (hlow : heapStart ≤ va') (hva' : s.1.translate va' = some (pa', leaf')) :
    leaf'.frame ≠ leaf.frame := by
  intro heq
  have hpage := h.user_page hva huser hva' heq
  obtain ⟨-, hlt⟩ := h.user_range hva huser
  have hstart : heapStart = 2 ^ 64 - 2 ^ 37 := by decide
  unfold frameSize at hpage
  omega

end Isolated

/-- The invariant, as the address space shows it. -/
theorem Isolated.isolation
    (h : Isolated paging S (reservedFrames kernelPhysicalStart sections dtbPhysical) s owned) :
    Isolation kernelPhysicalStart sections dtbPhysical paging s.1 where
  user_range va pa leaf := h.user_range
  kernel_range va pa leaf := h.kernel_range
  user_page va va' pa pa' leaf leaf' := h.user_page
  user_table va pa leaf hva huser := by
    rw [h.sound.fixmap.root]
    exact h.user_table hva huser
  user_section va pa leaf hva huser hmem := by
    exact h.pages.user _ _ (h.walk_eq hva).2 huser (.inl hmem)
  user_dtb va pa leaf hva huser hmem := by
    exact h.pages.user _ _ (h.walk_eq hva).2 huser (.inr hmem)
  user_heap va va' pa pa' leaf leaf' hva huser hlow _ := h.user_heap hva huser hlow
  table_page va pa leaf hva hmem := by
    rw [h.sound.fixmap.root] at hmem
    exact h.table_page hva hmem
  exclusive va va' pa pa' leaf leaf' hva hva' :=
    h.pages.exclusive _ _ _ _ (h.walk_eq hva).2 (h.walk_eq hva').2
  control := by
    have hcontrol := h.sound.fixmap.control
    rw [h.sound.fixmap.root] at hcontrol
    refine ⟨_, (h.sound.translate_eq _).trans (translate_of_walk (by decide) hcontrol)⟩
  window := by
    rw [KernelPaging.vpn_fixmapFrameBase]
    exact ⟨h.sound.fixmap.table, h.sound.fixmap.empty⟩

end Addresses

/-- **User/kernel isolation** holds in every state reached from a kernel whose address space
`into_kernel` has built, by any sequence of calls that pass frames on once. -/
theorem user_kernel_isolation (S : Supply F) (bootstrap : BootstrapPaging)
    (kernelPhysicalStart : PhysAddr) (sections : KernelSections) (dtbVirtual : VirtAddr)
    (dtbPhysical : PhysRange) (s : Machine × F) (owned : List AllocatedFrame)
    (hboot : bootstrap.Identity s.1) (hvalid : S.Valid s.2)
    (hfresh : ∀ t ∈ S.pool s.2, t ∉ tables s.1.entries s.1.root)
    (hhigh : UpperHalf sections dtbVirtual)
    (hreserved : ∀ n ∈ reservedFrames kernelPhysicalStart sections dtbPhysical, n ∉ S.pool s.2)
    (howned : Tokens S (reservedFrames kernelPhysicalStart sections dtbPhysical) s.2 owned) :
    Sat (bootstrap.intoKernel kernelPhysicalStart sections dtbVirtual dtbPhysical) s fun r s' =>
      ∀ paging, r = .ok paging → ∀ vm, Run vmCalls ⟨paging, s'.1, s'.2, owned⟩ vm →
        Isolation kernelPhysicalStart sections dtbPhysical vm.paging vm.machine := by
  refine (sat_intoKernel hboot hvalid hfresh).mono fun r s' hr paging heq vm hrun => ?_
  obtain ⟨dtbFrame, hbuilt⟩ := hr paging heq
  have hisolated : vm.Isolated S (reservedFrames kernelPhysicalStart sections dtbPhysical) := by
    refine hrun.induct (hbuilt.isolated hhigh hreserved howned) ?_
    rintro s₁ c h ⟨call, hallowed, rfl⟩
    exact h.sat_run hallowed
  exact hisolated.isolation

section Sample

theorem sampleReserved_le {n : ℕ}
    (hn : n ∈ reservedFrames ⟨0x200000, by decide⟩ sampleSections sampleDtbRange) : 512 ≤ n := by
  rcases hn with ⟨range, permissions, frame, -, hframe, hle, -⟩ | ⟨hle, -⟩
  · obtain ⟨-, hstart⟩ := physicalStart_eq_some hframe
    unfold frameSize at hstart
    dsimp only at hstart
    omega
  · have hstart : sampleDtbRange.start.asUsize / frameSize = 4096 := by decide
    omega

theorem sampleUpperHalf : UpperHalf sampleSections sampleDtbVirtual := by
  refine ⟨fun range permissions hmem => ?_, by decide⟩
  have hbase : range.start.asUsize ∈ coverage range := by
    refine ⟨Nat.le_refl _, Nat.lt_add_of_pos_right ?_⟩
    exact Nat.mul_pos (rangePages_pos range) (by decide)
  have hlow : sv39HighHalfBase ≤ kernelHighBase := by decide
  exact hlow.trans (sampleSections_inside range permissions hmem _ hbase).1

theorem reserved_sampleStock {n : ℕ}
    (hn : n ∈ reservedFrames ⟨0x200000, by decide⟩ sampleSections sampleDtbRange) :
    n ∉ listSupply.pool sampleStock := by
  intro hin
  have := sampleReserved_le hn
  have := mem_pool_sampleStock hin
  omega

/-- A kernel that starts with the token of frame 9 enters its address space. -/
theorem user_kernel_isolation_sample : Succeeds (sampleBootstrap.intoKernel ⟨0x200000, by decide⟩
    sampleSections sampleDtbVirtual sampleDtbRange) (sampleBootMachine, sampleStock) fun paging s' =>
      ∀ vm, Run vmCalls ⟨paging, s'.1, s'.2, [⟨sampleFrame 9⟩]⟩ vm →
        Isolation ⟨0x200000, by decide⟩ sampleSections sampleDtbRange vm.paging vm.machine := by
  have htoken : ∀ n ∈ tokenFrames [⟨sampleFrame 9⟩], n = 9 := by
    rintro n ⟨frame, hmem, -, rfl⟩
    rw [List.mem_singleton.mp hmem]
    decide
  refine (succeeds_intoKernel_sample.and (user_kernel_isolation listSupply _ _ _ _ _ _ _
    identity_sample valid_sampleStock (fun _ => fresh_sampleStock) sampleUpperHalf
    (fun _ => reserved_sampleStock) ⟨List.pairwise_singleton _ _, fun n hn hin => ?_,
      fun n hn hin => ?_⟩)).mono fun paging s' h => h.2 paging rfl
  · have := htoken n hn
    have := mem_pool_sampleStock hin
    omega
  · have := htoken n hn
    have := sampleReserved_le hin
    omega

end Sample

end Barebone.Kernel

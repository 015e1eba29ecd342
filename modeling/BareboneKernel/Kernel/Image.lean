import BareboneKernel.Kernel.Backing

/-!
# Loading the user image

An embedded image is a header and a payload. `Image::parse` checks the header; `Image::load` copies
the payload page by page into fresh frames and maps them for user mode; `load_init` adds a stack of
zeroed pages. Every page is written through the frame window before user mode can see it.

* `Image.parse`, `Image.load`, `Image.mapPage`, `loadStack`, `loadInit`: the code;
* `Page.Held`: a page is mapped and its frame holds its bytes;
* `sat_mapPages`: a list of pages, mapped one after the other;
* **`load_init_exact`**: user memory is the image and the stack, and nothing else.
-/

set_option autoImplicit false

namespace Barebone.Kernel

open Exec Word Endian Sv39

variable {F : Type}

/-! ## The code -/

/-- Exclusive upper boundary of the user stack. -/
def userStackTop : ℕ := 0x40000000

theorem userStackTop_eq : userStackTop = 0x40000000 := rfl

/-- Byte capacity of the user stack. -/
def stackSize : ℕ := 16 * 1024

/-- Inclusive lower boundary of the user stack. -/
def userStackBottom : ℕ := userStackTop - stackSize

theorem userStackBottom_eq : userStackBottom = 0x3fffc000 := by decide

/-- Exclusive image bound, preserving an unmapped page below the user stack. -/
def imageLimit : ℕ := userStackBottom - frameSize

/-- Failures while loading the embedded process. -/
inductive LoadError where
  | missingImage
  | invalidImage
  | paging (error : PagingError)
  deriving DecidableEq

/-- Byte length of the image header. -/
def headerSize : ℕ := 32

/-- `BBUSER01` -/
def imageMagic : List UInt8 := [0x42, 0x42, 0x55, 0x53, 0x45, 0x52, 0x30, 0x31]

/-- An image with its linked addresses. -/
structure Image where
  base : VirtAddr
  entry : VirtAddr
  bytes : List UInt8
  deriving DecidableEq

namespace Image

/-- The field of eight bytes at an offset of the header. -/
def field (header : List UInt8) (offset : ℕ) : ℕ := fromLE ((header.drop offset).take 8)

theorem field_le (header : List UInt8) (offset : ℕ) : field header offset ≤ wordMax := by
  have hlt := fromBE_lt ((header.drop offset).take 8).reverse
  have hlen : ((header.drop offset).take 8).reverse.length ≤ 8 := by simp
  have hpow : (256 : ℕ) ^ ((header.drop offset).take 8).reverse.length ≤ 256 ^ 8 :=
    Nat.pow_le_pow_right (by decide) hlen
  have hmax : wordMax + 1 = 256 ^ 8 := by decide
  unfold field fromLE
  omega

def parse (bytes : List UInt8) (limit : ℕ) : Except LoadError Image :=
  if bytes.isEmpty then .error .missingImage
  else if bytes.length < headerSize then .error .invalidImage
  else
    let header := bytes.take headerSize
    if header.take 8 ≠ imageMagic then .error .invalidImage
    else
      let base := field header 8
      let entry := field header 16
      let size := field header 24
      let payload := bytes.drop headerSize
      match checkedAdd base size with
      | none => .error .invalidImage
      | some stop =>
        match checkedAdd stop (frameSize - 1) with
        | none => .error .invalidImage
        | some padded =>
          let mappedEnd := padded &&& complement (frameSize - 1)
          if size = 0 ∨ size ≠ payload.length ∨ base < frameSize ∨ base % frameSize ≠ 0 ∨
              ¬(base ≤ entry ∧ entry < stop) ∨ entry % 2 ≠ 0 ∨ mappedEnd > limit then
            .error .invalidImage
          else .ok ⟨⟨base, field_le header 8⟩, ⟨entry, field_le header 16⟩, payload⟩

variable [FrameAllocator F]

/-- Initializes and maps a fresh user page. -/
def mapPage (paging : KernelPaging) (address : VirtAddr) (bytes : List UInt8)
    (permissions : PagePermissions) : Exec (Machine × F) LoadError Unit :=
  if bytes.length > frameSize then fail .invalidImage
  else mapError .paging do
    let frame ← allocateFrame
    onMachine (paging.zeroFrame frame)
    (if bytes ≠ [] then
      onMachine (paging.withFrame frame.frame fun destination =>
        writeBytes destination.asUsize bytes)
    else pure () : Exec (Machine × F) PagingError Unit)
    paging.mapUserPage address frame permissions

/-- The address of the page behind. -/
def nextPage (address : VirtAddr) : Exec (Machine × F) LoadError VirtAddr :=
  (address.checkedAdd frameSize).elim
    (fail (.paging (.virtualAddressNotUser address.asUsize))) pure

/-- The loop of `load`: pieces of the payload from an address on. -/
def loadFrom (paging : KernelPaging) : VirtAddr → List (List UInt8) → Exec (Machine × F) LoadError Unit
  | _, [] => pure ()
  | address, bytes :: rest => do
    mapPage paging address bytes .readExecute
    let next ← nextPage address
    loadFrom paging next rest

def load (image : Image) (paging : KernelPaging) : Exec (Machine × F) LoadError Unit :=
  loadFrom paging image.base (chunks frameSize image.bytes)

end Image

/-- The pages of the stack, from its bottom up. -/
def stackPage (i : Fin (stackSize / frameSize)) : VirtAddr :=
  ⟨userStackBottom + i * frameSize, by
    have hmax := wordMax_eq
    have hbottom := userStackBottom_eq
    have hpages : stackSize / frameSize = 4 := by decide
    have := i.isLt
    unfold frameSize at *
    omega⟩

section LoadInit

variable [FrameAllocator F]

def loadStack (paging : KernelPaging) : Exec (Machine × F) LoadError Unit :=
  (List.finRange (stackSize / frameSize)).forM fun i =>
    Image.mapPage paging (stackPage i) [] .readWrite

/-- The part of `load_init` that fills the address space. -/
def loadInit (image : Image) (paging : KernelPaging) : Exec (Machine × F) LoadError Unit := do
  image.load paging
  loadStack paging

end LoadInit

/-! ## Pages -/

/-- A user page to be: its contents, zero behind `bytes`, and its permissions. -/
structure Page where
  address : VirtAddr
  bytes : List UInt8
  permissions : PagePermissions

namespace Page

/-- The page can be a user page. -/
structure Loadable (page : Page) : Prop where
  aligned : page.address.asUsize % frameSize = 0
  notNull : pageSize ≤ page.address.asUsize
  low : page.address.asUsize < sv39LowHalfEnd
  fits : page.bytes.length ≤ frameSize

theorem Loadable.canonical {page : Page} (h : page.Loadable) : Canonical page.address.asUsize := by
  have hlow := sv39LowHalfEnd_eq
  have := h.low
  rw [Canonical]
  omega

variable [FrameAllocator F]

/-- The page is mapped for user mode, to a frame of its own with its contents. -/
def Held (page : Page) (S : Supply F) (root : ℕ) (s : Machine × F) : Prop :=
  ∃ n, n ∉ S.pool s.2 ∧ n ∉ tables s.1.entries root ∧
    walk s.1.entries root (vpn page.address.asUsize) = some (leafFor n page.permissions .user) ∧
    ∀ k < frameSize, s.1.memory (n * frameSize + k) = page.bytes.getD k 0

theorem Held.advance {page : Page} {S : Supply F} {root : ℕ} {s s' : Machine × F}
    (h : page.Held S root s) (ha : Advance S root s s') : page.Held S root s' := by
  obtain ⟨n, hpool, htables, hwalk, hbytes⟩ := h
  obtain ⟨hpool', htables', hsame⟩ := ha.sameFrame hpool htables
  refine ⟨n, hpool', htables', ha.keeps.walk hwalk, fun k hk => ?_⟩
  rw [hsame _ (by unfold frameSize at *; omega), hbytes k hk]

end Page

section MapPages

variable [FrameAllocator F] {paging : KernelPaging} {S : Supply F} {s s' : Machine × F}

/-- What becomes of a list of pages. -/
structure PagesMapped (paging : KernelPaging) (S : Supply F) (pages : List Page)
    (s : Machine × F) (r : Except LoadError Unit) (s' : Machine × F) : Prop where
  sound : paging.Sound S s'
  advance : Advance S paging.root.frame.number s s'
  ok : r = .ok () → (∀ page ∈ pages, page.Held S paging.root.frame.number s') ∧
    ∀ v, (∀ page ∈ pages, v ≠ vpn page.address.asUsize) →
      walk s'.1.entries paging.root.frame.number v = walk s.1.entries paging.root.frame.number v
  error : ∀ e, r = .error e → ∃ e', e = .paging e' ∧ FrameShortage e'

/-- The frame after it has been zeroed and filled. -/
theorem memory_filled {m : Machine} {n k : ℕ} {bytes : List UInt8} (hk : k < frameSize) :
    ((m.zero n).store (n * frameSize) bytes).memory (n * frameSize + k) = bytes.getD k 0 := by
  have hzero : (m.zero n).memory (n * frameSize + k) = 0 := by
    have hlt : k < (List.replicate frameSize (0 : UInt8)).length := by rwa [List.length_replicate]
    exact (storeBytes_add hlt).trans (by simp)
  by_cases h : k < bytes.length
  · rw [List.getD_eq_getElem _ _ h]
    exact storeBytes_add h
  · rw [List.getD_eq_default _ _ (by omega), ← hzero]
    exact storeBytes_of_le (by omega)

/-- A frame that has been taken is filled. -/
theorem Took.fill {n : ℕ} {bytes : List UInt8} (h : Took paging S s n s')
    (hlen : bytes.length ≤ frameSize) :
    paging.Sound S (s'.1.store (n * frameSize) bytes, s'.2) ∧
      Advance S paging.root.frame.number s (s'.1.store (n * frameSize) bytes, s'.2) ∧
      Sv39.walk (s'.1.store (n * frameSize) bytes).entries paging.root.frame.number =
        Sv39.walk s.1.entries paging.root.frame.number ∧
      n ∉ Sv39.tables (s'.1.store (n * frameSize) bytes).entries paging.root.frame.number := by
  refine ⟨h.sound.store h.free hlen, h.advance.store h.taken h.gone h.free hlen, ?_, ?_⟩
  · rw [walk_store h.free hlen, h.walk]
  · rw [tables_store h.free hlen]
    exact h.free

/-- The bytes of a page are written through the frame window. -/
theorem Took.returns_fill {frame : AllocatedFrame} {bytes : List UInt8}
    (h : Took paging S s frame.frame.number s') (hrep : frame.frame.Representable)
    (hlen : bytes.length ≤ frameSize) :
    Returns (if bytes ≠ [] then
        onMachine (paging.withFrame frame.frame fun destination =>
          writeBytes destination.asUsize bytes)
      else pure () : Exec (Machine × F) PagingError Unit) s' ()
      (s'.1.store (frame.frame.number * frameSize) bytes, s'.2) := by
  by_cases hempty : bytes = []
  · rw [if_neg (not_not.mpr hempty), hempty, Machine.store_nil]
    exact returns_pure.mpr ⟨rfl, rfl⟩
  · rw [if_pos hempty]
    have hserves := KernelPaging.serves h.sound.fixmap.slot
    have hn : frame.frame.number ∉ Sv39.tables s'.1.entries s'.1.root := by
      rw [h.sound.fixmap.root]
      exact h.free
    exact returns_onMachine (hserves.returns_fill h.sound.fixmap.isOpen hrep hn hlen).1

/-- Mapping a user page adds at most one page, on a frame of its own. -/
theorem KernelPaging.Sound.sat_imageMapPage_grown (h : paging.Sound S s) (address : VirtAddr)
    (bytes : List UInt8) (permissions : PagePermissions) :
    Sat (Image.mapPage paging address bytes permissions) s fun _ s' =>
      Grown paging S (S.pool s.2) s s' := by
  unfold Image.mapPage
  split
  · exact sat_fail (.refl h)
  rename_i hlen
  refine (Sat.mapError (P := fun _ s' => Grown paging S (S.pool s.2) s s') ?_).mono
    fun r s' ⟨_, hr, _⟩ => hr
  refine h.sat_zeroed (fun frame s₁ _ hrep ht => ?_)
    fun e s₁ _ hsound hmachine hpool => .shortage hsound hmachine hpool
  obtain ⟨hsound, hadvance, hwalk, hfree⟩ := ht.fill (Nat.not_lt.mp hlen)
  refine (ht.returns_fill hrep (Nat.not_lt.mp hlen)).sat_bind ?_
  refine (KernelPaging.sat_mapUserPage_grown hsound address frame permissions
    fun _ => ⟨ht.gone, hfree⟩).mono fun r s₃ hr => ?_
  exact (hr.after hadvance hwalk).mono (Set.singleton_subset_iff.mpr ht.taken)

/-- **Mapping a user page.** -/
theorem sat_imageMapPage (h : paging.Sound S s)
    (hclean : Clean s.1.entries paging.root.frame.number) {page : Page} (hpage : page.Loadable)
    (hnone : walk s.1.entries paging.root.frame.number (vpn page.address.asUsize) = none) :
    Sat (Image.mapPage paging page.address page.bytes page.permissions) s
      (PagesMapped paging S [page] s) := by
  have hroot := h.fixmap.root
  unfold Image.mapPage
  rw [if_neg (Nat.not_lt.mpr hpage.fits)]
  refine (Sat.mapError (P := fun r s' => PagesMapped paging S [page] s (r.mapError .paging) s')
    ?_).mono fun r s' ⟨r', hr', heq⟩ => heq ▸ hr'
  refine h.sat_zeroed (fun frame s₁ _ hrep ht => ?_)
    fun e s₁ herror hsound hmachine hpool => ?_
  · obtain ⟨hsound₂, hadvance₂, hwalk₂, hfree₂⟩ := ht.fill hpage.fits
    refine (ht.returns_fill hrep hpage.fits).sat_bind
      ((KernelPaging.sat_mapUserPage hsound₂ _ _ _).mono fun r s₃ hr => ?_)
    rcases hr with ⟨-, hr⟩ | ⟨-, hnot, -⟩
    · have hadvance₃ := hadvance₂.trans hr.progress.advance
      refine ⟨hsound₂.progress hr.ready hr.progress, hadvance₃, fun hok => ?_, fun e he => ?_⟩
      · cases r with
        | error e => cases hok
        | ok u =>
          obtain ⟨-, -, -, -, hupdate⟩ := hr.ok rfl
          rw [hwalk₂] at hupdate
          obtain ⟨hpool, htables, hsame⟩ := hr.progress.advance.sameFrame ht.gone hfree₂
          refine ⟨fun page' hmem => ?_, fun v hv => ?_⟩
          · rw [List.mem_singleton.mp hmem]
            refine ⟨frame.frame.number, hpool, htables, ?_, fun k hk => ?_⟩
            · rw [hupdate, Function.update_self]
            · rw [hsame _ (by unfold frameSize at *; omega)]
              dsimp only
              rw [ht.machine]
              exact memory_filled hk
          · rw [hupdate, Function.update_of_ne (hv page (List.mem_singleton_self page))]
      · cases r with
        | ok u => cases he
        | error e' =>
          obtain ⟨-, hfailure⟩ := hr.error e' rfl
          refine ⟨e', (Except.error.inj he).symm, hfailure.frames (hadvance₂.clean hclean) ?_
            hpage.canonical hpage.aligned⟩
          rw [hwalk₂]
          exact hnone
    · exact absurd ⟨hpage.notNull, hpage.low⟩ hnot
  · have hs₁ : Advance S paging.root.frame.number s s₁ :=
      Taken.progress (r := .error .outOfPhysicalFrames)
        ⟨hmachine, hsound.valid, hpool, by simp, by simp⟩ |>.advance
    refine ⟨hsound, hs₁, fun hok => (by cases hok), fun e' he => ⟨e, ?_, herror⟩⟩
    exact (Except.error.inj he).symm

/-- **Mapping pages one after the other.** -/
theorem sat_mapPages {pages : List Page} : ∀ {s : Machine × F}, paging.Sound S s →
    Clean s.1.entries paging.root.frame.number → (∀ page ∈ pages, page.Loadable) →
    (pages.Pairwise fun p q => vpn p.address.asUsize ≠ vpn q.address.asUsize) →
    (∀ page ∈ pages,
      walk s.1.entries paging.root.frame.number (vpn page.address.asUsize) = none) →
    Sat (pages.forM fun page => Image.mapPage paging page.address page.bytes page.permissions) s
      (PagesMapped paging S pages s) := by
  induction pages with
  | nil =>
    intro s h _ _ _ _
    exact sat_pure ⟨h, (Progress.refl s).advance, fun _ => ⟨by simp, fun _ _ => rfl⟩, by simp⟩
  | cons page pages ih =>
    intro s h hclean hload hdistinct hnone
    obtain ⟨hnew, hdistinct'⟩ := List.pairwise_cons.mp hdistinct
    have hp := hload page List.mem_cons_self
    refine (sat_imageMapPage h hclean hp (hnone page List.mem_cons_self)).bind
      (fun _ s₁ h₁ => ?_) fun e s₁ h₁ => ⟨h₁.sound, h₁.advance, by simp, h₁.error⟩
    obtain ⟨hheld, hsame⟩ := h₁.ok rfl
    have hnone₁ : ∀ page' ∈ pages, walk s₁.1.entries paging.root.frame.number
        (vpn page'.address.asUsize) = none := by
      intro page' hmem
      rw [hsame _ fun q hq => by rw [List.mem_singleton.mp hq]; exact (hnew page' hmem).symm]
      exact hnone page' (List.mem_cons_of_mem _ hmem)
    refine (ih h₁.sound (h₁.advance.clean hclean)
      (fun q hq => hload q (List.mem_cons_of_mem _ hq)) hdistinct' hnone₁).mono fun r s₂ h₂ => ?_
    refine ⟨h₂.sound, h₁.advance.trans h₂.advance, fun hok => ?_, h₂.error⟩
    obtain ⟨hheld₂, hsame₂⟩ := h₂.ok hok
    refine ⟨fun q hq => ?_, fun v hv => ?_⟩
    · rcases List.mem_cons.mp hq with rfl | hq
      · exact (hheld q (List.mem_singleton_self q)).advance h₂.advance
      · exact hheld₂ q hq
    · rw [hsame₂ v fun q hq => hv q (List.mem_cons_of_mem _ hq), hsame v fun q hq => ?_]
      rw [List.mem_singleton.mp hq]
      exact hv page List.mem_cons_self

/-! ## Enough frames -/

/-- A free page takes a frame and two tables at most. -/
theorem succeeds_imageMapPage {n : ℕ} (h : paging.Sound S s)
    (hclean : Clean s.1.entries paging.root.frame.number) {page : Page} (hpage : page.Loadable)
    (hnone : walk s.1.entries paging.root.frame.number (vpn page.address.asUsize) = none)
    (hstock : Stocked (n + 3) s.2) :
    Succeeds (Image.mapPage paging page.address page.bytes page.permissions) s fun _ s' =>
      Stocked n s'.2 := by
  unfold Image.mapPage
  rw [if_neg (Nat.not_lt.mpr hpage.fits)]
  refine (h.succeeds_zeroed hstock fun frame s₁ hrep ht hrest => ?_).mapError
  obtain ⟨hsound, hadvance, hwalk, -⟩ := ht.fill hpage.fits
  refine (ht.returns_fill hrep hpage.fits).succeeds_bind ?_
  refine KernelPaging.succeeds_mapUserPage hsound (hadvance.clean hclean) hrest hpage.notNull
    hpage.low hpage.aligned ?_ hrep page.permissions
  rw [hwalk]
  exact hnone

/-- **Free pages are mapped**, with three frames at hand for each. -/
theorem succeeds_mapPages {n : ℕ} {pages : List Page} : ∀ {s : Machine × F}, paging.Sound S s →
    Clean s.1.entries paging.root.frame.number → (∀ page ∈ pages, page.Loadable) →
    (pages.Pairwise fun p q => vpn p.address.asUsize ≠ vpn q.address.asUsize) →
    (∀ page ∈ pages,
      walk s.1.entries paging.root.frame.number (vpn page.address.asUsize) = none) →
    Stocked (n + 3 * pages.length) s.2 →
    Succeeds (pages.forM fun page => Image.mapPage paging page.address page.bytes page.permissions) s
      fun _ s' => Stocked n s'.2 := by
  induction pages with
  | nil => exact fun _ _ _ _ _ hstock => succeeds_pure hstock
  | cons page pages ih =>
    intro s h hclean hload hdistinct hnone hstock
    obtain ⟨hnew, hdistinct'⟩ := List.pairwise_cons.mp hdistinct
    have hp := hload page List.mem_cons_self
    have hfree := hnone page List.mem_cons_self
    rw [List.length_cons, Nat.mul_succ, ← Nat.add_assoc] at hstock
    refine ((succeeds_imageMapPage h hclean hp hfree hstock).and
      (sat_imageMapPage h hclean hp hfree)).bind ?_
    rintro u s₁ ⟨hrest, h₁⟩
    obtain ⟨-, hsame⟩ := h₁.ok rfl
    refine ih h₁.sound (h₁.advance.clean hclean) (fun q hq => hload q (List.mem_cons_of_mem _ hq))
      hdistinct' (fun q hq => ?_) hrest
    rw [hsame]
    · exact hnone q (List.mem_cons_of_mem _ hq)
    · intro p hp
      rw [List.mem_singleton.mp hp]
      exact (hnew q hq).symm

end MapPages

/-! ## The pages of a process -/

/-- The pages of pieces of the payload, from an address on. -/
def payloadPages (address : VirtAddr) : List (List UInt8) → List Page
  | [] => []
  | bytes :: rest => ⟨address, bytes, .readExecute⟩ ::
    (address.checkedAdd frameSize).elim [] fun next => payloadPages next rest

theorem payloadPages_cons {address next : VirtAddr} (h : address.checkedAdd frameSize = some next)
    (bytes : List UInt8) (rest : List (List UInt8)) :
    payloadPages address (bytes :: rest) =
      ⟨address, bytes, .readExecute⟩ :: payloadPages next rest := by
  simp only [payloadPages, h, Option.elim]

/-- The pages of the stack. -/
def stackPages : List Page := (List.finRange (stackSize / frameSize)).map fun i =>
  ⟨stackPage i, [], .readWrite⟩

/-- All pages that `loadInit` maps. -/
def Image.pages (image : Image) : List Page :=
  payloadPages image.base (chunks frameSize image.bytes) ++ stackPages

theorem checkedAdd_frameSize {address : VirtAddr} {k : ℕ}
    (h : address.asUsize + (k + 1) * frameSize ≤ wordMax) :
    ∃ next, address.checkedAdd frameSize = some next ∧
      next.asUsize = address.asUsize + frameSize ∧ next.asUsize + k * frameSize ≤ wordMax := by
  rw [Nat.succ_mul] at h
  exact ⟨⟨address.asUsize + frameSize, by omega⟩, Addr.checkedAdd_eq_some.mpr rfl, rfl,
    by dsimp only; omega⟩

theorem mem_payloadPages {cs : List (List UInt8)} {address : VirtAddr} {page : Page}
    (hle : address.asUsize + cs.length * frameSize ≤ wordMax) :
    (page ∈ payloadPages address cs ↔ ∃ i, ∃ h : i < cs.length,
      page.address.asUsize = address.asUsize + i * frameSize ∧ page.bytes = cs.get ⟨i, h⟩ ∧
      page.permissions = .readExecute) := by
  induction cs generalizing address page with
  | nil => simp [payloadPages]
  | cons c cs ih =>
    rw [List.length_cons] at hle
    obtain ⟨next, hnext, heq, hle'⟩ := checkedAdd_frameSize hle
    rw [payloadPages_cons hnext, List.mem_cons, ih hle']
    constructor
    · rintro (rfl | ⟨i, hi, h₁, h₂, h₃⟩)
      · exact ⟨0, by simp, by simp, rfl, rfl⟩
      · refine ⟨i + 1, by simpa using hi, ?_, h₂, h₃⟩
        rw [h₁, heq, Nat.succ_mul]
        omega
    · rintro ⟨i, hi, h₁, h₂, h₃⟩
      cases i with
      | zero =>
        left
        cases page
        simp only [Nat.zero_mul, Nat.add_zero] at h₁
        simp_all [Addr.eq_iff]
      | succ i =>
        refine .inr ⟨i, by simpa using hi, ?_, h₂, h₃⟩
        rw [h₁, heq, Nat.succ_mul]
        omega

theorem pairwise_payloadPages {cs : List (List UInt8)} {address : VirtAddr}
    (hle : address.asUsize + cs.length * frameSize ≤ wordMax) :
    (payloadPages address cs).Pairwise fun p q => p.address.asUsize < q.address.asUsize := by
  induction cs generalizing address with
  | nil => exact .nil
  | cons c cs ih =>
    rw [List.length_cons] at hle
    obtain ⟨next, hnext, heq, hle'⟩ := checkedAdd_frameSize hle
    rw [payloadPages_cons hnext]
    refine List.pairwise_cons.mpr ⟨fun page hpage => ?_, ih hle'⟩
    obtain ⟨i, -, h, -⟩ := (mem_payloadPages hle').mp hpage
    have : 0 < frameSize := by decide
    dsimp only
    omega

theorem mem_stackPages {page : Page} : page ∈ stackPages ↔
    ∃ i : Fin (stackSize / frameSize), page = ⟨stackPage i, [], .readWrite⟩ := by
  simp [stackPages, eq_comm]

theorem pairwise_stackPages :
    stackPages.Pairwise fun p q => p.address.asUsize < q.address.asUsize := by decide

section Load

variable [FrameAllocator F]

theorem loadFrom_eq (paging : KernelPaging) {cs : List (List UInt8)} {address : VirtAddr}
    (hle : address.asUsize + cs.length * frameSize ≤ wordMax) :
    (Image.loadFrom paging address cs : Exec (Machine × F) LoadError Unit) =
      (payloadPages address cs).forM fun page =>
        Image.mapPage paging page.address page.bytes page.permissions := by
  induction cs generalizing address with
  | nil => rfl
  | cons c cs ih =>
    rw [List.length_cons] at hle
    obtain ⟨next, hnext, -, hle'⟩ := checkedAdd_frameSize hle
    have hstep : (Image.loadFrom paging address (c :: cs) : Exec (Machine × F) LoadError Unit) =
        Image.mapPage paging address c .readExecute >>= fun _ => Image.loadFrom paging next cs := by
      have hpure : (Image.nextPage address : Exec (Machine × F) LoadError VirtAddr) = pure next := by
        simp only [Image.nextPage, hnext, Option.elim]
      show (Image.mapPage paging address c .readExecute >>= fun _ =>
        Image.nextPage address >>= fun next => Image.loadFrom paging next cs) = _
      rw [hpure]
      rfl
    rw [hstep, payloadPages_cons hnext, ih hle']
    rfl

/-- `loadInit` maps the pages of the image one after the other. -/
theorem loadInit_eq (paging : KernelPaging) {image : Image}
    (h : image.base.asUsize + (chunks frameSize image.bytes).length * frameSize ≤ wordMax) :
    (loadInit image paging : Exec (Machine × F) LoadError Unit) =
      image.pages.forM fun page =>
        Image.mapPage paging page.address page.bytes page.permissions := by
  rw [Image.pages, forM_append, ← loadFrom_eq paging h]
  rfl

end Load

/-! ## Accepted images -/

namespace Image

/-- The end of the last page of the image. -/
def mappedEnd (image : Image) : ℕ :=
  image.base.asUsize + (image.bytes.length + (frameSize - 1)) / frameSize * frameSize

/-- What `parse` has checked. -/
structure Accepted (image : Image) (limit : ℕ) : Prop where
  nonempty : 0 < image.bytes.length
  notNull : frameSize ≤ image.base.asUsize
  aligned : image.base.asUsize % frameSize = 0
  entry_ge : image.base.asUsize ≤ image.entry.asUsize
  entry_lt : image.entry.asUsize < image.base.asUsize + image.bytes.length
  entry_even : image.entry.asUsize % 2 = 0
  mappedEnd_le : image.mappedEnd ≤ limit

theorem and_complement_pageMask {a : ℕ} (h : a ≤ wordMax) :
    a &&& complement (frameSize - 1) = a / frameSize * frameSize :=
  and_complement_mask (k := 12) h (by decide)

/-- The header and the payload of an image. -/
structure Parsed (bytes : List UInt8) (image : Image) : Prop where
  length : headerSize ≤ bytes.length
  magic : (bytes.take headerSize).take 8 = imageMagic
  base : image.base.asUsize = field (bytes.take headerSize) 8
  entry : image.entry.asUsize = field (bytes.take headerSize) 16
  size : image.bytes.length = field (bytes.take headerSize) 24
  payload : image.bytes = bytes.drop headerSize

theorem parsed_of_parse {bytes : List UInt8} {limit : ℕ} {image : Image}
    (h : parse bytes limit = .ok image) : image.Parsed bytes ∧ image.Accepted limit := by
  unfold parse at h
  split at h
  · cases h
  split at h
  · cases h
  rename_i hlength
  dsimp only at h
  split at h
  · cases h
  rename_i hmagic
  split at h
  · cases h
  rename_i stop hstop
  split at h
  · cases h
  rename_i padded hpadded
  obtain ⟨-, rfl⟩ := checkedAdd_eq_some.mp hstop
  obtain ⟨hle, rfl⟩ := checkedAdd_eq_some.mp hpadded
  rw [and_complement_pageMask hle] at h
  split at h
  · cases h
  · rename_i hchecks
    simp only [not_or, not_not, Nat.not_lt] at hchecks
    obtain ⟨hsize, hpayload, hbase, halign, ⟨hge, hlt⟩, heven, hend⟩ := hchecks
    obtain rfl := Except.ok.inj h
    refine ⟨⟨Nat.not_lt.mp hlength, not_not.mp hmagic, rfl, rfl, hpayload.symm, rfl⟩, ?_⟩
    rw [hpayload] at hsize hlt hend
    refine ⟨Nat.pos_of_ne_zero hsize, hbase, halign, hge, hlt, heven, ?_⟩
    unfold mappedEnd
    dsimp only
    refine le_trans (le_of_eq ?_) hend
    unfold frameSize at *
    omega

end Image

/-! ## User memory -/

/-- What user mode reads at an address. -/
def userRead (m : Machine) (va : ℕ) : Option UInt8 :=
  match m.translate va with
  | some (pa, leaf) => if leaf.read && leaf.accessed && leaf.user then some (m.memory pa) else none
  | none => none

section UserMemory

variable [FrameAllocator F] {paging : KernelPaging} {S : Supply F} {s s' : Machine × F}
  {image : Image}

/-- The addresses of a page that is held. -/
theorem Page.Held.translate {page : Page} (h : page.Held S paging.root.frame.number s)
    (hsound : paging.Sound S s) (hpage : page.Loadable) {va : ℕ}
    (hva : va / frameSize = page.address.asUsize / frameSize) :
    ∃ n, s.1.translate va = some (n * frameSize + va % frameSize, leafFor n page.permissions .user) ∧
      userRead s.1 va = some (page.bytes.getD (va % frameSize) 0) := by
  obtain ⟨n, -, -, hwalk, hbytes⟩ := h
  have hcanonical : Canonical va := by
    have := hpage.low
    have hlow := sv39LowHalfEnd_eq
    unfold frameSize at hva
    rw [Canonical]
    omega
  have hvpn : vpn va = vpn page.address.asUsize := (vpn_eq_iff hcanonical hpage.canonical).mpr hva
  have htranslate : s.1.translate va =
      some (n * frameSize + va % frameSize, leafFor n page.permissions .user) := by
    rw [hsound.translate_eq, translate_of_walk hcanonical (hvpn ▸ hwalk)]
    rfl
  refine ⟨n, htranslate, ?_⟩
  unfold userRead
  rw [htranslate]
  dsimp only
  rw [hbytes _ (Nat.mod_lt _ (by decide))]
  rfl

/-- **The memory of a process**: the image, its stack, and no other page of the lower half. -/
structure UserMemory (image : Image) (m m' : Machine) : Prop where
  payload : ∀ i (h : i < image.bytes.length),
    userRead m' (image.base.asUsize + i) = some (image.bytes.get ⟨i, h⟩)
  padding : ∀ va, image.base.asUsize + image.bytes.length ≤ va → va < image.mappedEnd →
    userRead m' va = some 0
  stack : ∀ va, userStackBottom ≤ va → va < userStackTop → userRead m' va = some 0
  imagePages : ∀ va, image.base.asUsize ≤ va → va < image.mappedEnd → ∃ pa leaf,
    m'.translate va = some (pa, leaf) ∧ leaf.user ∧ leaf.read ∧ leaf.execute ∧ ¬leaf.write
  stackPages : ∀ va, userStackBottom ≤ va → va < userStackTop → ∃ pa leaf,
    m'.translate va = some (pa, leaf) ∧ leaf.user ∧ leaf.read ∧ leaf.write ∧ ¬leaf.execute
  entry : image.base.asUsize ≤ image.entry.asUsize ∧ image.entry.asUsize < image.mappedEnd
  unmapped : ∀ va, va < sv39LowHalfEnd → ¬(image.base.asUsize ≤ va ∧ va < image.mappedEnd) →
    ¬(userStackBottom ≤ va ∧ va < userStackTop) → m'.translate va = none
  null : ∀ va, va < frameSize → m'.translate va = none
  guard : ∀ va, userStackBottom - frameSize ≤ va → va < userStackBottom → m'.translate va = none
  upper : ∀ va, sv39HighHalfBase ≤ va → m'.translate va = m.translate va

namespace Image

theorem mappedEnd_eq (image : Image) : image.mappedEnd =
    image.base.asUsize + (chunks frameSize image.bytes).length * frameSize := by
  rw [length_chunks]
  rfl

theorem Accepted.fits (h : image.Accepted imageLimit) :
    image.base.asUsize + (chunks frameSize image.bytes).length * frameSize ≤ wordMax := by
  have hlimit : imageLimit ≤ wordMax := by decide
  rw [← mappedEnd_eq]
  exact h.mappedEnd_le.trans hlimit

/-- The page of the image around an address. -/
theorem Accepted.exists_page (h : image.Accepted imageLimit) {va : ℕ}
    (hge : image.base.asUsize ≤ va) (hlt : va < image.mappedEnd) :
    ∃ page ∈ image.pages, va / frameSize = page.address.asUsize / frameSize ∧
      page.permissions = .readExecute ∧
      page.bytes.getD (va % frameSize) 0 = image.bytes.getD (va - image.base.asUsize) 0 := by
  have halign := h.aligned
  have hword := h.fits
  rw [mappedEnd_eq] at hlt
  obtain ⟨i, hi⟩ : ∃ i, i = (va - image.base.asUsize) / frameSize := ⟨_, rfl⟩
  have hcount : i < (chunks frameSize image.bytes).length := by
    rw [hi, Nat.div_lt_iff_lt_mul (by decide)]
    omega
  have hva : va = image.base.asUsize + i * frameSize + va % frameSize := by
    unfold frameSize at *
    omega
  have haddress : image.base.asUsize + i * frameSize ≤ wordMax :=
    le_trans (Nat.add_le_add_left (Nat.mul_le_mul_right _ hcount.le) _) hword
  refine ⟨⟨⟨_, haddress⟩, _, .readExecute⟩, List.mem_append_left _ ((mem_payloadPages hword).mpr
    ⟨i, hcount, rfl, rfl, rfl⟩), ?_, rfl, ?_⟩
  · unfold frameSize at *
    dsimp only
    omega
  · have hk : va % frameSize < frameSize := Nat.mod_lt _ (by decide)
    have hoffset : va - image.base.asUsize = i * frameSize + va % frameSize := by omega
    rw [getElem_chunks hcount, hoffset, List.getD_eq_getElem?_getD, List.getD_eq_getElem?_getD,
      List.getElem?_take_of_lt hk, List.getElem?_drop]

/-- The page of the stack around an address. -/
theorem exists_stackPage (image : Image) {va : ℕ} (hge : userStackBottom ≤ va) (hlt : va < userStackTop) :
    ∃ page ∈ image.pages, va / frameSize = page.address.asUsize / frameSize ∧
      page.permissions = .readWrite ∧ page.bytes = [] := by
  have hbottom := userStackBottom_eq
  have htop := userStackTop_eq
  have hpages : stackSize / frameSize = 4 := by decide
  have hi : (va - userStackBottom) / frameSize < stackSize / frameSize := by
    unfold frameSize at *
    omega
  refine ⟨⟨stackPage ⟨_, hi⟩, [], .readWrite⟩, List.mem_append_right _ (mem_stackPages.mpr ⟨_, rfl⟩),
    ?_, rfl, rfl⟩
  show va / frameSize =
    (userStackBottom + (va - userStackBottom) / frameSize * frameSize) / frameSize
  unfold frameSize
  omega

/-- The pages lie in the image or in the stack. -/
theorem Accepted.page_range (h : image.Accepted imageLimit) {page : Page} (hp : page ∈ image.pages) :
    page.Loadable ∧ (image.base.asUsize ≤ page.address.asUsize ∧
        page.address.asUsize + frameSize ≤ image.mappedEnd ∨
      userStackBottom ≤ page.address.asUsize ∧
        page.address.asUsize + frameSize ≤ userStackTop) := by
  have hlimit : imageLimit = 0x3fffb000 := by decide
  have hbottom := userStackBottom_eq
  have htop := userStackTop_eq
  have hlow := sv39LowHalfEnd_eq
  have hpage : pageSize = frameSize := rfl
  have hend := h.mappedEnd_le
  rw [mappedEnd_eq] at hend ⊢
  rcases List.mem_append.mp hp with hp | hp
  · obtain ⟨i, hi, haddress, hbytes, -⟩ := (mem_payloadPages h.fits).mp hp
    have hnull := h.notNull
    have halign := h.aligned
    have hi' : (i + 1) * frameSize ≤ (chunks frameSize image.bytes).length * frameSize :=
      Nat.mul_le_mul_right _ hi
    rw [Nat.succ_mul] at hi'
    refine ⟨⟨?_, ?_, ?_, ?_⟩, .inl ⟨?_, ?_⟩⟩
    · rw [haddress, Nat.add_mul_mod_self_right, halign]
    · omega
    · omega
    · rw [hbytes, getElem_chunks hi]
      exact List.length_take_le _ _
    · omega
    · omega
  · obtain ⟨i, rfl⟩ := mem_stackPages.mp hp
    obtain ⟨j, hj, haddress⟩ : ∃ j < 4, (stackPage i).asUsize = userStackBottom + j * frameSize :=
      ⟨i, i.isLt, rfl⟩
    have hloadable : (stackPage i).asUsize % frameSize = 0 ∧ pageSize ≤ (stackPage i).asUsize ∧
        (stackPage i).asUsize < sv39LowHalfEnd ∧ userStackBottom ≤ (stackPage i).asUsize ∧
        (stackPage i).asUsize + frameSize ≤ userStackTop := by
      unfold frameSize at *
      omega
    obtain ⟨h₁, h₂, h₃, h₄, h₅⟩ := hloadable
    exact ⟨⟨h₁, h₂, h₃, Nat.zero_le _⟩, .inr ⟨h₄, h₅⟩⟩

theorem Accepted.pairwise_pages (h : image.Accepted imageLimit) :
    image.pages.Pairwise fun p q => vpn p.address.asUsize ≠ vpn q.address.asUsize := by
  have hlimit : imageLimit < userStackBottom := by decide
  have hend := h.mappedEnd_le
  have hlt : image.pages.Pairwise fun p q => p.address.asUsize < q.address.asUsize := by
    refine List.pairwise_append.mpr ⟨pairwise_payloadPages h.fits, pairwise_stackPages, ?_⟩
    intro p hp q hq
    obtain ⟨i, hi, haddress, -⟩ := (mem_payloadPages h.fits).mp hp
    obtain ⟨j, rfl⟩ := mem_stackPages.mp hq
    have hle : i * frameSize ≤ (chunks frameSize image.bytes).length * frameSize :=
      Nat.mul_le_mul_right _ hi.le
    have hstack : userStackBottom ≤ (stackPage j).asUsize := Nat.le_add_right _ _
    rw [mappedEnd_eq] at hend
    dsimp only
    omega
  refine hlt.imp_of_mem fun {p q} hp hq hpq heq => ?_
  have hp' := (h.page_range hp).1
  have hq' := (h.page_range hq).1
  have hdiv := (vpn_eq_iff hp'.canonical hq'.canonical).mp heq
  have h₁ := hp'.aligned
  have h₂ := hq'.aligned
  unfold frameSize at h₁ h₂
  omega

end Image

/-- Outside the pages of the image and the stack nothing changes. -/
theorem PagesMapped.translate_eq (h : PagesMapped paging S image.pages s (.ok ()) s')
    (hs : paging.Sound S s) (himage : image.Accepted imageLimit) {va : ℕ}
    (hva : ¬(image.base.asUsize ≤ va ∧ va < image.mappedEnd))
    (hva' : ¬(userStackBottom ≤ va ∧ va < userStackTop)) :
    s'.1.translate va = s.1.translate va := by
  rw [h.sound.translate_eq, hs.translate_eq]
  unfold Sv39.translate
  by_cases hcanonical : Canonical va
  · rw [if_pos hcanonical, if_pos hcanonical, (h.ok rfl).2 (vpn va) fun page hpage heq => ?_]
    obtain ⟨hload, hrange⟩ := himage.page_range hpage
    have hdiv := (vpn_eq_iff hcanonical hload.canonical).mp heq
    have halign := hload.aligned
    unfold frameSize at *
    omega
  · rw [if_neg hcanonical, if_neg hcanonical]

/-- Once all pages are mapped, user memory is the image and the stack. -/
theorem PagesMapped.userMemory (h : PagesMapped paging S image.pages s (.ok ()) s')
    (hs : paging.Sound S s) (himage : image.Accepted imageLimit)
    (hlow : ∀ va, va < sv39LowHalfEnd → s.1.translate va = none) :
    UserMemory image s.1 s'.1 := by
  have hlimit : imageLimit = 0x3fffb000 := by decide
  have hbottom := userStackBottom_eq
  have htop := userStackTop_eq
  have hlowEnd := sv39LowHalfEnd_eq
  have hhigh := sv39HighHalfBase_eq
  have hend := himage.mappedEnd_le
  have hnull := himage.notNull
  have hlast : image.base.asUsize + image.bytes.length ≤ image.mappedEnd := by
    unfold Image.mappedEnd frameSize
    omega
  have hheld := (h.ok rfl).1
  have hread : ∀ va, image.base.asUsize ≤ va → va < image.mappedEnd →
      userRead s'.1 va = some (image.bytes.getD (va - image.base.asUsize) 0) := by
    intro va hge hlt
    obtain ⟨page, hpage, hdiv, -, hbytes⟩ := himage.exists_page hge hlt
    obtain ⟨n, -, hr⟩ := (hheld page hpage).translate h.sound (himage.page_range hpage).1 hdiv
    rw [hr, hbytes]
  have hunmapped : ∀ va, va < sv39LowHalfEnd →
      ¬(image.base.asUsize ≤ va ∧ va < image.mappedEnd) →
      ¬(userStackBottom ≤ va ∧ va < userStackTop) → s'.1.translate va = none := by
    intro va hva h₁ h₂
    rw [h.translate_eq hs himage h₁ h₂, hlow va hva]
  refine ⟨?_, ?_, ?_, ?_, ?_, ?_, hunmapped, ?_, ?_, ?_⟩
  · intro i hi
    rw [hread _ (by omega) (by omega), Nat.add_sub_cancel_left, List.getD_eq_getElem _ _ hi]
    rfl
  · intro va hge hlt
    rw [hread va (by omega) hlt, List.getD_eq_default _ _ (by omega)]
  · intro va hge hlt
    obtain ⟨page, hpage, hdiv, -, hbytes⟩ := image.exists_stackPage hge hlt
    obtain ⟨n, -, hr⟩ := (hheld page hpage).translate h.sound (himage.page_range hpage).1 hdiv
    rw [hr, hbytes]
    rfl
  · intro va hge hlt
    obtain ⟨page, hpage, hdiv, hperm, -⟩ := himage.exists_page hge hlt
    obtain ⟨n, htr, -⟩ := (hheld page hpage).translate h.sound (himage.page_range hpage).1 hdiv
    rw [hperm] at htr
    exact ⟨_, _, htr, rfl, rfl, rfl, by simp [leafFor]⟩
  · intro va hge hlt
    obtain ⟨page, hpage, hdiv, hperm, -⟩ := image.exists_stackPage hge hlt
    obtain ⟨n, htr, -⟩ := (hheld page hpage).translate h.sound (himage.page_range hpage).1 hdiv
    rw [hperm] at htr
    exact ⟨_, _, htr, rfl, rfl, rfl, by simp [leafFor]⟩
  · exact ⟨himage.entry_ge, himage.entry_lt.trans_le hlast⟩
  · intro va hva
    exact hunmapped va (by unfold frameSize at hva; omega) (by omega) (by unfold frameSize at hva; omega)
  · intro va hge hlt
    refine hunmapped va (by omega) (fun hin => ?_) (by omega)
    unfold frameSize at hge
    omega
  · intro va hge
    refine h.translate_eq hs himage (fun hin => ?_) (fun hin => ?_) <;> omega

/-- No page is there when the lower half is empty. -/
theorem Image.Accepted.walk_pages (himage : image.Accepted imageLimit) (h : paging.Sound S s)
    (hlow : ∀ va, va < sv39LowHalfEnd → s.1.translate va = none) : ∀ page ∈ image.pages,
      walk s.1.entries paging.root.frame.number (vpn page.address.asUsize) = none := by
  intro page hpage
  have hload := (himage.page_range hpage).1
  have hva := hlow _ hload.low
  rw [h.translate_eq] at hva
  by_contra hw
  obtain ⟨leaf, hleaf⟩ := Option.ne_none_iff_exists'.mp hw
  rw [translate_of_walk hload.canonical hleaf] at hva
  cases hva

/-- **With enough frames loading succeeds.** -/
theorem succeeds_loadInit {n : ℕ} {bytes : List UInt8}
    (hparse : Image.parse bytes imageLimit = .ok image) (h : paging.Sound S s)
    (hclean : Clean s.1.entries paging.root.frame.number)
    (hlow : ∀ va, va < sv39LowHalfEnd → s.1.translate va = none)
    (hstock : Stocked (n + 3 * image.pages.length) s.2) :
    Succeeds (loadInit image paging) s fun _ s' => Stocked n s'.2 := by
  obtain ⟨-, himage⟩ := Image.parsed_of_parse hparse
  rw [loadInit_eq paging himage.fits]
  exact succeeds_mapPages h hclean (fun page hp => (himage.page_range hp).1) himage.pairwise_pages
    (himage.walk_pages h hlow) hstock

/-- Loading ends; what it maps is the image and its stack, and it fails for lack of frames. -/
theorem sat_loadPages {bytes : List UInt8} (hparse : Image.parse bytes imageLimit = .ok image)
    (h : paging.Sound S s) (hclean : Clean s.1.entries paging.root.frame.number)
    (hlow : ∀ va, va < sv39LowHalfEnd → s.1.translate va = none) :
    Sat (loadInit image paging) s fun r s' => (r = .ok () → UserMemory image s.1 s'.1) ∧
      ∀ e, r = .error e → ∃ e', e = .paging e' ∧ FrameShortage e' := by
  obtain ⟨-, himage⟩ := Image.parsed_of_parse hparse
  rw [loadInit_eq paging himage.fits]
  refine (sat_mapPages h hclean (fun page hp => (himage.page_range hp).1) himage.pairwise_pages
    (himage.walk_pages h hlow)).mono fun r s' hr => ⟨fun hok => ?_, hr.error⟩
  subst hok
  exact hr.userMemory h himage hlow

/-- **Loading reproduces the image.** For every accepted image and every sound address space without
lower-half pages, loading ends; it fails only for lack of frames that can be represented, and when
it succeeds user memory holds the image, its zeroed stack and nothing else, and the upper half is
translated as before. -/
theorem load_init_exact (S : Supply F) {paging : KernelPaging} {s : Machine × F}
    {bytes : List UInt8} {image : Image} (hparse : Image.parse bytes imageLimit = .ok image)
    (h : paging.Sound S s) (hclean : Clean s.1.entries paging.root.frame.number)
    (hlow : ∀ va, va < sv39LowHalfEnd → s.1.translate va = none) :
    image.bytes = bytes.drop headerSize ∧
    Sat (loadInit image paging) s fun r s' =>
      (r = .ok () → UserMemory image s.1 s'.1) ∧
      ∀ e, r = .error e → e = .paging .outOfPhysicalFrames ∨
        ∃ a, e = .paging (.physicalAddressNotRepresentable a) := by
  obtain ⟨hparsed, -⟩ := Image.parsed_of_parse hparse
  refine ⟨hparsed.payload, (sat_loadPages hparse h hclean hlow).mono fun r s' hr =>
    ⟨hr.1, fun e he => ?_⟩⟩
  obtain ⟨e', rfl, rfl | ⟨a, rfl⟩⟩ := hr.2 e he
  · exact .inl rfl
  · exact .inr ⟨a, rfl⟩

end UserMemory

/-! ## A sample image -/

/-- An image of four bytes at `0x10000`. -/
def sampleImage : List UInt8 :=
  imageMagic ++ toLE 8 0x10000 ++ toLE 8 0x10002 ++ toLE 8 4 ++ [0x01, 0xa0, 0x73, 0x00]

theorem sampleBase_le : 0x10000 ≤ wordMax := by decide

def sampleParsed : Image :=
  ⟨⟨0x10000, sampleBase_le⟩, ⟨0x10002, by decide⟩, [0x01, 0xa0, 0x73, 0x00]⟩

theorem parse_sampleImage : Image.parse sampleImage imageLimit = .ok sampleParsed := by
  decide +kernel

theorem walk_sampleTables (v : Vpn) : walk sampleTables.entries 1 v = none := by
  rw [sampleTables, linkable_sample₀.walk_eq, linkable_sample₁.walk_eq]
  exact walk_of_empty (entries_emptyMachine _ 1) v

theorem clean_sampleMachine : Clean sampleMachine.entries 1 := by
  have hempty : Clean (emptyMachine (8 * 2 ^ 60 + 1)).entries 1 :=
    clean_of_empty (entries_emptyMachine _ 1)
  have hkind : kind (3 * 2 ^ 10 + frameWindowPteFlags) = .leaf := by decide
  rw [entries_sampleMachine]
  exact (linkable_sample₀.clean (linkable_sample₁.clean hempty)).setLeaf wellFormed_sampleTables
    tableAt_sampleTables hkind

theorem translate_sampleMachine {va : ℕ} (h : va < sv39LowHalfEnd) :
    sampleMachine.translate va = none := by
  have hlow := sv39LowHalfEnd_eq
  have hroot : sampleMachine.root = 1 := by decide
  have hne : vpn va ≠ ⟨509, 511, 0⟩ := by
    intro heq
    have hv : va / 2 ^ 30 % 512 = 509 := congrArg (fun v => v.vpn2.val) heq
    omega
  rw [Machine.translate, if_pos (by decide), hroot, Sv39.translate, if_pos (.inl (by omega)),
    entries_sampleMachine, walk_setLeaf (v := ⟨509, 511, 0⟩) wellFormed_sampleTables
      tableAt_sampleTables, Function.update_of_ne hne, walk_sampleTables]
  rfl

theorem sound_sampleStock : samplePaging.Sound listSupply (sampleMachine, sampleStock) := by
  refine sound_sample valid_sampleStock fun n hn hmem => ?_
  have hle := (mem_pool_sampleStock hn).1
  simp only [Set.mem_insert_iff, Set.mem_singleton_iff] at hmem
  omega

/-- The sample image is loaded into the sample address space. -/
theorem load_init_exact_sample :
    Succeeds (loadInit sampleParsed samplePaging) (sampleMachine, sampleStock) fun _ s' =>
      UserMemory sampleParsed sampleMachine s'.1 := by
  have hclean : Clean sampleMachine.entries samplePaging.root.frame.number := by
    have hnumber : samplePaging.root.frame.number = 1 := by decide
    rw [hnumber]
    exact clean_sampleMachine
  have hstock : Stocked (0 + 3 * sampleParsed.pages.length) sampleStock :=
    stocked_sampleStock.mono (by decide)
  have hloads := succeeds_loadInit parse_sampleImage sound_sampleStock hclean
    (fun _ => translate_sampleMachine) hstock
  exact (hloads.and (load_init_exact listSupply parse_sampleImage sound_sampleStock hclean
    fun _ => translate_sampleMachine).2).mono fun _ _ h => h.2.1 rfl

end Barebone.Kernel

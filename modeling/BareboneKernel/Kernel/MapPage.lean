import BareboneKernel.Kernel.Window

/-!
# Mapping one page

`mapPage` walks down to the last-level table of a page, links the tables that are missing, and
writes the entry of the page. Frames come from an allocator that never returns a frame in use.

* `Supply F`: what an allocator promises;
* `Ready w S root s`: the tables under `root` have frames of their own, apart from those that the
  allocator may still return;
* `Progress S root s s'`: how tables and memory may change;
* **`sat_nextTable`**, **`sat_mapPage`**: what the code does to the translation.
-/

set_option autoImplicit false

namespace Barebone.Kernel

open Exec Word Endian Sv39

variable {F ε : Type}

/-! ## Allocators -/

/-- **What an allocator promises**: every representable frame it returns is taken from a pool, once. -/
structure Supply (F : Type) [FrameAllocator F] where
  Valid : F → Prop
  pool : F → Set ℕ
  allocate : ∀ {f : F}, Valid f → ∃ r f', Returns FrameAllocator.allocate f r f' ∧ Valid f' ∧
    pool f' ⊆ pool f ∧ ∀ frame : AllocatedFrame, r = some frame → frame.frame.Representable →
      frame.frame.number ∈ pool f ∧ frame.frame.number ∉ pool f'

/-- A list of frames, handed out in order. -/
instance : FrameAllocator (List AllocatedFrame) where
  allocate
    | [] => .ok (.ok none, [])
    | frame :: frames => .ok (.ok (some frame), frames)

/-- A list without repetitions keeps the promise. -/
def listSupply : Supply (List AllocatedFrame) where
  Valid frames := (frames.map (·.frame.number)).Nodup
  pool frames := {n | n ∈ frames.map (·.frame.number)}
  allocate {frames} h := by
    cases frames with
    | nil => exact ⟨none, [], rfl, h, subset_rfl, by simp⟩
    | cons frame frames =>
      obtain ⟨hnew, hnodup⟩ := List.nodup_cons.mp h
      refine ⟨some frame, frames, rfl, hnodup, fun n hn => List.mem_cons_of_mem _ hn, ?_⟩
      intro frame' heq _
      obtain rfl := Option.some.inj heq
      exact ⟨List.mem_cons_self, hnew⟩

section Allocate

theorem returns_onMachine {α : Type} {c : Exec Machine ε α} {s : Machine × F} {a : α}
    {m' : Machine} (h : Returns c s.1 a m') :
    Returns (onMachine c : Exec (Machine × F) ε α) s a (m', s.2) :=
  returns_zoom.mpr ⟨m', h, rfl⟩

variable [FrameAllocator F] {S : Supply F} {s : Machine × F}

/-- What a request for a frame does. -/
structure Taken (S : Supply F) (s : Machine × F) (r : Except PagingError AllocatedFrame)
    (s' : Machine × F) : Prop where
  machine : s'.1 = s.1
  valid : S.Valid s'.2
  pool : S.pool s'.2 ⊆ S.pool s.2
  frame : ∀ frame, r = .ok frame → frame.frame.Representable →
    frame.frame.number ∈ S.pool s.2 ∧ frame.frame.number ∉ S.pool s'.2
  error : ∀ e, r = .error e → e = .outOfPhysicalFrames

theorem sat_allocateFrame (h : S.Valid s.2) : Sat allocateFrame s (Taken S s) := by
  obtain ⟨r, f', hreturns, hvalid, hpool, hframe⟩ := S.allocate h
  have hzoom : Returns (zoom Prod.snd (fun f s => (s.1, f))
      (infallible FrameAllocator.allocate) : Exec (Machine × F) PagingError _) s r (s.1, f') :=
    returns_zoom.mpr ⟨f', returns_infallible.mpr hreturns, rfl⟩
  refine hzoom.sat_bind ?_
  cases r with
  | none =>
    exact sat_fail ⟨rfl, hvalid, hpool, fun _ h => by simp at h, fun e h => by simpa using h.symm⟩
  | some frame =>
    refine sat_pure ⟨rfl, hvalid, hpool, fun frame' h => ?_, fun e h => by simp at h⟩
    obtain rfl : frame = frame' := by simpa using h
    exact hframe frame rfl

end Allocate

/-! ## Tables and their frames -/

/-- **Each table under `root` has a frame of its own**, and the allocator returns none of them and
none of the active tables. -/
structure Ready [FrameAllocator F] (w : Window) (S : Supply F) (root : ℕ) (s : Machine × F) :
    Prop where
  isOpen : w.Open s.1
  valid : S.Valid s.2
  root_lt : root < 2 ^ 44
  wellFormed : WellFormed s.1.entries root
  fresh : ∀ t ∈ S.pool s.2, t ∉ tables s.1.entries root ∧ t ∉ tables s.1.entries s.1.root
  apart : s.1.root = root ∨ Disjoint (tables s.1.entries root) (tables s.1.entries s.1.root)

/-- **What may change**: tables grow by frames of the pool, and other frames stay as they are. -/
structure Progress [FrameAllocator F] (S : Supply F) (root : ℕ) (s s' : Machine × F) : Prop where
  satp : s'.1.satp = s.1.satp
  keeps : Sv39.Extends s.1.entries s'.1.entries root
  pool : S.pool s'.2 ⊆ S.pool s.2
  tables : ∀ t ∈ tables s'.1.entries root, t ∈ tables s.1.entries root ∨
    t ∈ S.pool s.2 ∧ t ∉ S.pool s'.2
  frames : ∀ t ∉ Sv39.tables s'.1.entries root, SameFrame s.1.memory s'.1.memory t
  clean : Clean s.1.entries root → Clean s'.1.entries root

/-- What has come from a shrinking pool in two steps has come from it. -/
theorem taken_trans {T T' T'' P P' P'' : Set ℕ} (hpool : P' ⊆ P) (hpool' : P'' ⊆ P')
    (h : ∀ t ∈ T', t ∈ T ∨ t ∈ P ∧ t ∉ P') (h' : ∀ t ∈ T'', t ∈ T' ∨ t ∈ P' ∧ t ∉ P'') :
    ∀ t ∈ T'', t ∈ T ∨ t ∈ P ∧ t ∉ P'' := by
  intro t ht
  rcases h' t ht with ht' | ⟨hin, hout⟩
  · rcases h t ht' with ht | ⟨hin, hout⟩
    · exact .inl ht
    · exact .inr ⟨hin, fun hmem => hout (hpool' hmem)⟩
  · exact .inr ⟨hpool hin, hout⟩

namespace Progress

variable [FrameAllocator F] {S : Supply F} {root : ℕ} {s s' s'' : Machine × F}

theorem refl (s : Machine × F) : Progress S root s s :=
  ⟨rfl, Sv39.Extends.refl _ _, subset_rfl, fun _ => .inl, fun _ _ _ _ => rfl, id⟩

theorem trans (h : Progress S root s s') (h' : Progress S root s' s'') : Progress S root s s'' where
  satp := h'.satp.trans h.satp
  keeps := h.keeps.trans h'.keeps
  pool := h'.pool.trans h.pool
  tables := taken_trans h.pool h'.pool h.tables h'.tables
  frames t ht := (h.frames t fun hmem => ht (h'.keeps.tables_subset hmem)).trans (h'.frames t ht)
  clean hc := h'.clean (h.clean hc)

end Progress

/-! ## Linking a new table -/

/-- Frame `c`, filled with zeros, becomes the table behind entry `i` of `parent`. -/
def Machine.link (m : Machine) (parent : ℕ) (i : Fin 512) (c : ℕ) : Machine :=
  (m.zero c).setEntry parent i (c * 2 ^ 10 + 1)

/-- Frame `c` can become the table at place `q`. -/
structure Linkable (m : Machine) (root parent : ℕ) (i : Fin 512) (c : ℕ) (p q : Path) : Prop where
  wellFormed : WellFormed m.entries root
  table : tableAt m.entries root p = some parent
  below : p.child i = some q
  empty : m.entries parent i = 0
  new : c ∉ tables m.entries root
  lt : c < 2 ^ 44

namespace Linkable

variable {m : Machine} {root parent c : ℕ} {p q : Path} {i : Fin 512}

theorem entries_eq (h : Linkable m root parent i c p q) :
    (m.link parent i c).entries = setEntry (clear m.entries c) parent i (c * 2 ^ 10 + 1) := by
  have hle : c * 2 ^ 10 + 1 ≤ wordMax := by
    have hmax := wordMax_eq
    have := h.lt
    omega
  rw [Machine.link, Machine.entries_setEntry _ _ _ hle, Machine.entries_zero]

theorem entries_of_ne (h : Linkable m root parent i c p q) {t : ℕ} (ht : t ≠ c)
    (ht' : t ≠ parent) : (m.link parent i c).entries t = m.entries t := by
  rw [h.entries_eq, setEntry_of_ne ht', clear_of_ne ht]

theorem cleared (h : Linkable m root parent i c p q) :
    ∀ t ∈ tables m.entries root, clear m.entries c t = m.entries t := fun _ ht =>
  clear_of_ne fun heq => h.new (heq ▸ ht)

/-- Once the frame is cleared it can be linked. -/
theorem toLink (h : Linkable m root parent i c p q) :
    Link (clear m.entries c) root parent i c (c * 2 ^ 10 + 1) p q := by
  have hsame : tableAt (clear m.entries c) root = tableAt m.entries root := tableAt_congr h.cleared
  refine ⟨h.wellFormed.congr hsame, by rw [hsame, h.table], h.below, ?_, ?_, fun j => if_pos rfl,
    kind_pointer h.lt⟩
  · rw [h.cleared _ (mem_tables h.table), h.empty, kind_zero]
  · unfold tables
    rw [hsame]
    exact h.new

theorem tableAt_eq (h : Linkable m root parent i c p q) :
    tableAt (m.link parent i c).entries root =
      Function.update (tableAt m.entries root) q (some c) := by
  rw [h.entries_eq, h.toLink.tableAt_eq, tableAt_congr h.cleared]

theorem walk_eq (h : Linkable m root parent i c p q) :
    walk (m.link parent i c).entries root = walk m.entries root := by
  rw [h.entries_eq, h.toLink.walk_eq, walk_eq_of_tables h.cleared]

theorem wellFormed_link (h : Linkable m root parent i c p q) :
    WellFormed (m.link parent i c).entries root := by
  rw [h.entries_eq]
  exact h.toLink.wellFormed_setEntry

theorem tables_subset (h : Linkable m root parent i c p q) :
    tables (m.link parent i c).entries root ⊆ insert c (tables m.entries root) := by
  rw [h.entries_eq, show tables m.entries root = tables (clear m.entries c) root by
    unfold tables; rw [tableAt_congr h.cleared]]
  exact h.toLink.tables_subset

theorem clean (h : Linkable m root parent i c p q) (hclean : Clean m.entries root) :
    Clean (m.link parent i c).entries root := by
  rw [h.entries_eq]
  exact h.toLink.clean (hclean.congr h.cleared)

theorem keeps (h : Linkable m root parent i c p q) :
    Sv39.Extends m.entries (m.link parent i c).entries root := by
  intro t ht j hj
  have hc : t ≠ c := fun heq => h.new (heq ▸ ht)
  rw [h.entries_eq]
  by_cases heq : t = parent ∧ j = i
  · obtain ⟨rfl, rfl⟩ := heq
    exact absurd h.empty hj
  · rw [setEntry, if_neg heq, clear_of_ne hc]

theorem sameFrame {t : ℕ} (hc : t ≠ c) (hparent : t ≠ parent) :
    SameFrame m.memory (m.link parent i c).memory t := by
  have hi := i.isLt
  have hzero : SameFrame m.memory (m.zero c).memory t :=
    sameFrame_store le_rfl (by rw [List.length_replicate, Nat.succ_mul]) hc
  have hset : SameFrame (m.zero c).memory (m.link parent i c).memory t := by
    refine sameFrame_store (Nat.le_add_right _ _) ?_ hparent
    rw [length_toLE]
    unfold frameSize
    omega
  exact hzero.trans hset

theorem rootEntries (h : Linkable m root parent i c p q) {j : Fin 512}
    (hj : (m.link parent i c).entries root j ≠ m.entries root j) : p = .root ∧ j = i := by
  have hc : root ≠ c := fun heq => h.new (heq ▸ mem_tables_root _ _)
  by_cases hparent : root = parent
  · refine ⟨h.wellFormed p .root parent h.table (by rw [← hparent]; rfl), ?_⟩
    by_contra hne
    refine hj ?_
    rw [h.entries_eq, hparent, setEntry_of_ne_index hne, ← hparent, clear_of_ne hc]
  · exact absurd (by rw [h.entries_of_ne hc hparent]) hj

theorem progress [FrameAllocator F] {S : Supply F} {s : Machine × F} {f : F}
    (h : Linkable s.1 root parent i c p q) (hpool : S.pool f ⊆ S.pool s.2) (hin : c ∈ S.pool s.2)
    (hout : c ∉ S.pool f) : Progress S root s (s.1.link parent i c, f) where
  satp := rfl
  keeps := h.keeps
  pool := hpool
  tables t ht := by
    rcases h.tables_subset ht with rfl | hold
    · exact .inr ⟨hin, hout⟩
    · exact .inl hold
  frames t ht := by
    refine sameFrame (fun heq => ht ⟨q, ?_⟩) fun heq => ?_
    · rw [h.tableAt_eq, Function.update_self, heq]
    · exact ht (h.keeps.tables_subset (heq ▸ mem_tables h.table))
  clean := h.clean

end Linkable

/-! ## Following and creating tables -/

theorem pageSize_eq : pageSize = frameSize := rfl

theorem ppnAddress_eq (word : ℕ) : (ppnAddress word).asUsize = word % 2 ^ 44 * frameSize := by
  have hmask : satpPpnMask = 2 ^ 44 - 1 := by decide
  have hsize : frameSize = 2 ^ pageShift := by decide
  rw [show (ppnAddress word).asUsize = (word &&& satpPpnMask) <<< pageShift from rfl, hmask,
    Nat.and_two_pow_sub_one_eq_mod, Nat.shiftLeft_eq, hsize]

/-- An existing entry is followed when it points to a table. -/
theorem intermediateFrame_eq (index entry : ℕ) :
    (∃ frame, intermediateFrame index entry = .ok frame ∧ kind entry = .pointer frame.number) ∨
      intermediateFrame index entry = .error (.invalidIntermediateEntry index entry) ∧
        ∀ t, kind entry ≠ .pointer t := by
  have hone : pteValid = 1 := rfl
  have hmask : pteLeafMask = 0xe := rfl
  by_cases hbad : entry &&& pteValid = 0 ∨ entry &&& pteLeafMask ≠ 0
  · refine .inr ⟨if_pos hbad, fun t hk => ?_⟩
    rw [hone, hmask] at hbad
    unfold kind at hk
    rcases hbad with h | h
    · rw [if_pos h] at hk
      cases hk
    · rw [if_neg h] at hk
      split at hk
      · cases hk
      · split at hk <;> cases hk
  · obtain ⟨hvalid, hleaf⟩ := not_or.mp hbad
    have hkind : kind entry = .pointer (ppn entry) := by
      rw [hone] at hvalid
      rw [hmask] at hleaf
      rw [kind, if_neg hvalid, if_pos (not_not.mp hleaf)]
    have hlt : ppn entry < 2 ^ 44 := lt_of_kind_pointer hkind
    have haddress : (ppnAddress (entry >>> ptePpnShift)).asUsize = ppn entry * frameSize := by
      rw [ppnAddress_eq, Nat.shiftRight_eq_div_pow, ppn, show ptePpnShift = 10 from rfl]
    have hfits : (ppnAddress (entry >>> ptePpnShift)).asUsize % frameSize = 0 ∧
        (ppnAddress (entry >>> ptePpnShift)).asUsize + frameSize ≤ wordMax := by
      have hmax := wordMax_eq
      rw [haddress]
      unfold frameSize
      omega
    refine .inl ⟨⟨_, hfits.1, hfits.2⟩, ?_, ?_⟩
    · rw [intermediateFrame, if_neg hbad, PhysFrame.fromStart, dif_pos hfits]
    · rw [hkind, PhysFrame.number, haddress, Nat.mul_div_cancel _ (by decide)]

section Tables

variable [FrameAllocator F] {w : Window} {access : FrameAccess} {S : Supply F} {root : ℕ}
  {s s' : Machine × F}

theorem Ready.taken (h : Ready w S root s) {r : Except PagingError AllocatedFrame}
    (ht : Taken S s r s') : Ready w S root s' where
  isOpen := ht.machine ▸ h.isOpen
  valid := ht.valid
  root_lt := h.root_lt
  wellFormed := ht.machine ▸ h.wellFormed
  fresh t hmem := ht.machine ▸ h.fresh t (ht.pool hmem)
  apart := ht.machine ▸ h.apart

theorem Taken.progress {r : Except PagingError AllocatedFrame} (ht : Taken S s r s') :
    Progress S root s s' where
  satp := by rw [ht.machine]
  keeps := ht.machine ▸ Sv39.Extends.refl _ _
  pool := ht.pool
  tables t hmem := .inl (ht.machine ▸ hmem)
  frames t _ := ht.machine ▸ fun _ _ => rfl
  clean hclean := ht.machine ▸ hclean

/-- The new table has a frame of its own. -/
theorem Ready.link (h : Ready w S root s) {parent c : ℕ} {p q : Path} {i : Fin 512}
    (hl : Linkable s.1 root parent i c p q) (hactive : c ∉ tables s.1.entries s.1.root)
    (hpool : c ∉ S.pool s.2) (hopen : w.Open (s.1.link parent i c)) :
    Ready w S root (s.1.link parent i c, s.2) := by
  have hparent := mem_tables hl.table
  have hne : ∀ t ∈ S.pool s.2, t ≠ c := fun t ht heq => hpool (heq ▸ ht)
  have hroot : ∀ t ∈ S.pool s.2, t ∉ tables (s.1.link parent i c).entries root := by
    intro t ht hmem
    rcases hl.tables_subset hmem with heq | hold
    · exact hne t ht heq
    · exact (h.fresh t ht).1 hold
  rcases h.apart with heq | hdisjoint
  · refine ⟨hopen, h.valid, h.root_lt, hl.wellFormed_link, fun t ht => ⟨hroot t ht, ?_⟩, .inl heq⟩
    have := hroot t ht
    rw [← heq] at this
    exact this
  · have hsame : ∀ t ∈ tables s.1.entries s.1.root,
        (s.1.link parent i c).entries t = s.1.entries t := by
      intro t ht
      refine hl.entries_of_ne (fun heq => hactive (heq ▸ ht)) fun heq => ?_
      exact Set.disjoint_left.mp hdisjoint hparent (heq ▸ ht)
    have hactive' : tables (s.1.link parent i c).entries s.1.root =
        tables s.1.entries s.1.root := by
      unfold tables
      rw [tableAt_congr hsame]
    refine ⟨hopen, h.valid, h.root_lt, hl.wellFormed_link, fun t ht => ⟨hroot t ht, ?_⟩, .inr ?_⟩
    · exact fun hmem => (h.fresh t ht).2 (hactive' ▸ hmem)
    · refine Set.disjoint_left.mpr fun t ht hmem => ?_
      have hmem' : t ∈ tables s.1.entries s.1.root := hactive' ▸ hmem
      rcases hl.tables_subset ht with heq | hold
      · exact hactive (heq ▸ hmem')
      · exact Set.disjoint_left.mp hdisjoint hold hmem'

/-- Zeroing a frame that is no table. -/
theorem returns_zeroFrame (hs : w.Serves access) {m : Machine} (h : w.Open m)
    {frame : AllocatedFrame} (hrep : frame.frame.Representable)
    (ht : frame.frame.number ∉ tables m.entries m.root) :
    Returns (access.zeroFrame frame) m () (m.zero frame.frame.number) ∧
      w.Open (m.zero frame.frame.number) :=
  hs.returns_fill h hrep ht (by rw [List.length_replicate, pageSize_eq])

/-- What becomes of a request for an empty table. -/
structure TableAllocated (w : Window) (S : Supply F) (s : Machine × F)
    (r : Except PagingError AllocatedFrame) (s' : Machine × F) : Prop where
  valid : S.Valid s'.2
  pool : S.pool s'.2 ⊆ S.pool s.2
  ok : ∀ frame, r = .ok frame → frame.frame.Representable ∧ frame.frame.number ∈ S.pool s.2 ∧
    frame.frame.number ∉ S.pool s'.2 ∧ s'.1 = s.1.zero frame.frame.number ∧ w.Open s'.1
  error : ∀ e, r = .error e → s'.1 = s.1 ∧
    (e = .outOfPhysicalFrames ∨ ∃ a, e = .physicalAddressNotRepresentable a)

theorem sat_allocatePageTable (hs : w.Serves access) (hopen : w.Open s.1) (hvalid : S.Valid s.2)
    (hfresh : ∀ t ∈ S.pool s.2, t ∉ tables s.1.entries s.1.root) :
    Sat access.allocatePageTable s (TableAllocated w S s) := by
  refine (sat_allocateFrame hvalid).bind (fun frame s₁ ht => ?_) fun e s₁ ht => ?_
  · have hopen₁ : w.Open s₁.1 := ht.machine ▸ hopen
    by_cases hrep : frame.frame.Representable
    · obtain ⟨hin, hout⟩ := ht.frame frame rfl hrep
      have hfree : frame.frame.number ∉ tables s₁.1.entries s₁.1.root := ht.machine ▸ hfresh _ hin
      obtain ⟨hzero, hopen₂⟩ := returns_zeroFrame hs hopen₁ hrep hfree
      refine (returns_onMachine hzero).sat_bind (sat_pure ⟨ht.valid, ht.pool, ?_, by simp⟩)
      intro frame' heq
      obtain rfl : frame = frame' := by simpa using heq
      exact ⟨hrep, hin, hout, by rw [ht.machine], hopen₂⟩
    · have hfails : Fails (onMachine (access.zeroFrame frame) : Exec (Machine × F) _ _) s₁
          (.physicalAddressNotRepresentable frame.frame.start) s₁ :=
        (hs.refuse hopen₁ hrep).zoom
      refine hfails.bind.sat ⟨ht.valid, ht.pool, by simp, ?_⟩
      intro e heq
      obtain rfl := Except.error.inj heq
      exact ⟨ht.machine, .inr ⟨_, rfl⟩⟩
  · refine ⟨ht.valid, ht.pool, by simp, fun e' heq => ⟨ht.machine, .inl ?_⟩⟩
    obtain rfl := Except.error.inj heq
    exact ht.error e rfl

/-- Why a table cannot be reached. -/
def TableFailure (e : Entries) (root : ℕ) : PagingError → Prop
  | .physicalAddressNotRepresentable _ => True
  | .outOfPhysicalFrames => True
  | .invalidIntermediateEntry _ _ => ¬Clean e root
  | _ => False

/-- What `nextTable` does at entry `i` of the table at place `p`, with place `q` behind it. -/
structure NextTable (w : Window) (S : Supply F) (root : ℕ) (p q : Path) (i : Fin 512)
    (s : Machine × F) (r : Except PagingError PhysFrame) (s' : Machine × F) : Prop where
  ready : Ready w S root s'
  progress : Progress S root s s'
  walk : walk s'.1.entries root = walk s.1.entries root
  rootEntries : ∀ j, s'.1.entries root j ≠ s.1.entries root j → p = .root ∧ j = i
  ok : ∀ frame, r = .ok frame → tableAt s'.1.entries root q = some frame.number
  error : ∀ e, r = .error e → TableFailure s.1.entries root e

/-- **The next table** is followed or created; no translation changes. -/
theorem sat_nextTable (hs : w.Serves access) (h : Ready w S root s) {parent : PhysFrame}
    {p q : Path} {i : Fin 512} (hp : tableAt s.1.entries root p = some parent.number)
    (hq : p.child i = some q) (hne : (parent.number, i) ≠ w.slot) :
    Sat (access.nextTable parent i) s (NextTable w S root p q i s) := by
  have hrep : parent.Representable := lt_of_mem_tables h.root_lt (mem_tables hp)
  refine (returns_onMachine (hs.returns_read h.isOpen hrep hne)).sat_bind ?_
  by_cases hentry : s.1.entries parent.number i = 0
  · -- an empty entry: a new table is linked, in three steps that may fail before the last
    rw [if_neg (not_not.mpr hentry)]
    refine (sat_allocatePageTable hs h.isOpen h.valid fun t ht => (h.fresh t ht).2).bind
      (fun frame s₁ ht => ?_) fun e s₁ ht => ?_
    · obtain ⟨hcrep, hin, hout, hmachine, hopen₁⟩ := ht.ok frame rfl
      have hl : Linkable s.1 root parent.number i frame.frame.number p q :=
        ⟨h.wellFormed, hp, hq, hentry, (h.fresh _ hin).1, hcrep⟩
      have hempty₁ : s₁.1.entries parent.number i = 0 := by
        rw [hmachine, Machine.entries_zero, hl.cleared _ (mem_tables hp), hentry]
      obtain ⟨hwrite, hopen₂⟩ := hs.returns_write hopen₁ hrep hne hempty₁
        (encode_le_wordMax hcrep (show pteValid < 2 ^ 10 by decide))
      have hpte := pageTableEntry_eq_ok hcrep (show pteValid < 2 ^ 10 by decide)
      have hready₁ : Ready w S root (s.1, s₁.2) :=
        ⟨h.isOpen, ht.valid, h.root_lt, h.wellFormed, fun t hmem => h.fresh t (ht.pool hmem),
          h.apart⟩
      have hlink : s₁.1.setEntry parent.number i (frame.frame.number * 2 ^ 10 + pteValid) =
          s.1.link parent.number i frame.frame.number := by
        rw [hmachine]
        rfl
      rw [hlink] at hwrite hopen₂
      have hready := hready₁.link hl (h.fresh _ hin).2 hout hopen₂
      refine (returns_ofExcept.mpr ⟨hpte, rfl⟩).sat_bind ((returns_onMachine hwrite).sat_bind
        (sat_pure ⟨hready, hl.progress ht.pool hin hout, hl.walk_eq, fun j => hl.rootEntries,
          fun frame' heq => ?_, by simp⟩))
      obtain rfl : frame.frame = frame' := by simpa using heq
      rw [hl.tableAt_eq, Function.update_self]
    · obtain ⟨hmachine, herror⟩ := ht.error e rfl
      have htaken : Taken S s (.error .outOfPhysicalFrames) s₁ :=
        ⟨hmachine, ht.valid, ht.pool, by simp, by simp⟩
      refine ⟨h.taken htaken, htaken.progress, by rw [hmachine], by simp [hmachine], by simp, ?_⟩
      intro e' heq
      obtain rfl : e = e' := by simpa using heq
      rcases herror with rfl | ⟨a, rfl⟩ <;> trivial
  · -- an entry in use is followed, and refused when it is no pointer
    rw [if_pos hentry]
    refine sat_ofExcept ⟨h, Progress.refl s, rfl, by simp, fun frame heq => ?_, fun e heq => ?_⟩
    · rcases intermediateFrame_eq i (s.1.entries parent.number i) with ⟨frame', hok, hk⟩ | ⟨herr, -⟩
      · obtain rfl : frame' = frame := Except.ok.inj (hok.symm.trans heq)
        rw [tableAt_child hp hq, child_eq_some, hk]
      · cases herr.symm.trans heq
    · rcases intermediateFrame_eq i (s.1.entries parent.number i) with ⟨frame', hok, -⟩ | ⟨herr, hk⟩
      · cases hok.symm.trans heq
      · obtain rfl := Except.error.inj (herr.symm.trans heq)
        intro hclean
        rcases hclean p _ i hp with h₀ | ⟨-, c, hc⟩ | ⟨hnone, -⟩
        · exact hentry h₀
        · exact hk c hc
        · simp [hq] at hnone

end Tables

/-! ## Pages -/

/-- What a page is translated to once it is mapped. -/
def leafFor (frame : ℕ) (permissions : PagePermissions) (privilege : PagePrivilege) : Leaf where
  frame := frame
  read := true
  write := permissions = .readWrite
  execute := permissions = .readExecute
  user := privilege = .user
  accessed := true
  dirty := permissions = .readWrite

theorem leafFlags_lt (permissions : PagePermissions) (privilege : PagePrivilege) :
    leafFlags permissions privilege < 2 ^ 10 := by
  cases permissions <;> cases privilege <;> decide

theorem lastLevel_leafFlags {n : ℕ} (hn : n < 2 ^ 44) (permissions : PagePermissions)
    (privilege : PagePrivilege) :
    lastLevel (n * 2 ^ 10 + leafFlags permissions privilege) =
      some (leafFor n permissions privilege) := by
  rw [lastLevel_encode hn (leafFlags_lt _ _)]
  all_goals cases permissions <;> cases privilege <;> first | rfl | decide

theorem and_pageMask (a : ℕ) : a &&& pageMask = a % frameSize :=
  Nat.and_two_pow_sub_one_eq_mod a 12

theorem shift_and_vpnMask (a k : ℕ) : (a >>> k) &&& vpnMask = a / 2 ^ k % 512 := by
  rw [Nat.shiftRight_eq_div_pow]
  exact Nat.and_two_pow_sub_one_eq_mod _ 9

theorem not_canonical_iff (address : VirtAddr) :
    (sv39LowHalfEnd ≤ address.asUsize ∧ address.asUsize < sv39HighHalfBase) ↔
      ¬Canonical address.asUsize := by
  have hlow := sv39LowHalfEnd_eq
  have hhigh := sv39HighHalfBase_eq
  have hmax := wordMax_eq
  have hword := address.isWord
  rw [hlow, hhigh, Canonical]
  omega

/-- The slot of the window is not on the way to a page. -/
structure Avoids (w : Window) (e : Entries) (root : ℕ) (v : Vpn) : Prop where
  level2 : (root, v.vpn2) ≠ w.slot
  level1 : ∀ t, tableAt e root (.level1 v.vpn2) = some t → (t, v.vpn1) ≠ w.slot
  level0 : ∀ t, tableAt e root (.level0 v.vpn2 v.vpn1) = some t → (t, v.vpn0) ≠ w.slot

/-- Why a page cannot be mapped. -/
def MapFailure (e : Entries) (root address : ℕ) : PagingError → Prop
  | .virtualAddressNotPageAligned _ => address % frameSize ≠ 0
  | .virtualAddressNotCanonical _ => ¬Canonical address
  | .pageAlreadyMapped a _ => a = address ∧ (Clean e root → walk e root (vpn address) ≠ none)
  | error => TableFailure e root error

section MapPage

variable [FrameAllocator F] {w : Window} {access : FrameAccess} {S : Supply F} {root : ℕ}
  {s s' : Machine × F}

/-- A table is where it was, or it is new. -/
theorem Progress.tableAt (h : Progress S root s s') (hwf : WellFormed s'.1.entries root) {p : Path}
    {t : ℕ} (ht : tableAt s'.1.entries root p = some t) :
    Sv39.tableAt s.1.entries root p = some t ∨ t ∈ S.pool s.2 ∧ t ∉ S.pool s'.2 := by
  rcases h.tables t (mem_tables ht) with ⟨q, hq⟩ | hnew
  · obtain rfl := hwf q p t (h.keeps.tableAt hq) ht
    exact .inl hq
  · exact .inr hnew

theorem Avoids.progress {v : Vpn} (h : Avoids w s.1.entries root v) (hr : Ready w S root s)
    (hwf : WellFormed s'.1.entries root) (hp : Progress S root s s') :
    Avoids w s'.1.entries root v := by
  have hnew : ∀ t i, t ∈ S.pool s.2 → (t, i) ≠ w.slot := by
    rintro t i ht heq
    exact (hr.fresh t ht).2 (by rw [show t = w.slot.1 by rw [← heq]]; exact hr.isOpen.slot_mem)
  refine ⟨h.level2, fun t ht => ?_, fun t ht => ?_⟩
  · rcases hp.tableAt hwf ht with hold | ⟨hin, -⟩
    · exact h.level1 t hold
    · exact hnew t _ hin
  · rcases hp.tableAt hwf ht with hold | ⟨hin, -⟩
    · exact h.level0 t hold
    · exact hnew t _ hin

theorem Ready.offSlot (h : Ready w S root s) (hne : s.1.root ≠ root) {t : ℕ} {i : Fin 512}
    (ht : t ∈ tables s.1.entries root) : (t, i) ≠ w.slot := by
  intro heq
  refine Set.disjoint_left.mp (h.apart.resolve_left hne) ht ?_
  rw [show t = w.slot.1 by rw [← heq]]
  exact h.isOpen.slot_mem

/-- A hierarchy that is not active never leads to the slot. -/
theorem Ready.avoids (h : Ready w S root s) (hne : s.1.root ≠ root) (v : Vpn) :
    Avoids w s.1.entries root v :=
  ⟨h.offSlot hne (mem_tables_root _ _), fun _ ht => h.offSlot hne (mem_tables ht),
    fun _ ht => h.offSlot hne (mem_tables ht)⟩

theorem TableFailure.of_progress {e : PagingError} (h : TableFailure s'.1.entries root e)
    (hp : Progress S root s s') : TableFailure s.1.entries root e := by
  cases e with
  | invalidIntermediateEntry index entry => exact fun hclean => h (hp.clean hclean)
  | _ =>
    simp only [TableFailure] at h ⊢

/-- What has happened on the way down to the table at place `q`, towards page `v`. -/
structure Reached (w : Window) (S : Supply F) (root : ℕ) (v : Vpn) (q : Path) (s : Machine × F)
    (r : Except PagingError PhysFrame) (s' : Machine × F) : Prop where
  ready : Ready w S root s'
  progress : Progress S root s s'
  walk : walk s'.1.entries root = walk s.1.entries root
  rootEntries : ∀ j, s'.1.entries root j ≠ s.1.entries root j → j = v.vpn2
  ok : ∀ frame, r = .ok frame → tableAt s'.1.entries root q = some frame.number
  error : ∀ e, r = .error e → TableFailure s.1.entries root e

theorem NextTable.reached {v : Vpn} {r : Except PagingError PhysFrame}
    (h : NextTable w S root .root (.level1 v.vpn2) v.vpn2 s r s') :
    Reached w S root v (.level1 v.vpn2) s r s' :=
  ⟨h.ready, h.progress, h.walk, fun j hj => (h.rootEntries j hj).2, h.ok, h.error⟩

theorem Reached.next {v : Vpn} {level1 : PhysFrame} {r : Except PagingError PhysFrame}
    {s₁ : Machine × F} (h : Reached w S root v (.level1 v.vpn2) s (.ok level1) s₁)
    (h' : NextTable w S root (.level1 v.vpn2) (.level0 v.vpn2 v.vpn1) v.vpn1 s₁ r s') :
    Reached w S root v (.level0 v.vpn2 v.vpn1) s r s' where
  ready := h'.ready
  progress := h.progress.trans h'.progress
  walk := h'.walk.trans h.walk
  rootEntries j hj := by
    by_cases hj₁ : s'.1.entries root j = s₁.1.entries root j
    · exact h.rootEntries j (by rwa [hj₁] at hj)
    · cases (h'.rootEntries j hj₁).1
  ok := h'.ok
  error e hr := (h'.error e hr).of_progress h.progress

/-- **What `mapPage` does**: the translation changes at one page or not at all. -/
structure PageMapped (w : Window) (S : Supply F) (root address : ℕ) (leaf : Leaf)
    (s : Machine × F) (r : Except PagingError Unit) (s' : Machine × F) : Prop where
  ready : Ready w S root s'
  progress : Progress S root s s'
  rootEntries : ∀ j, s'.1.entries root j ≠ s.1.entries root j → j = (vpn address).vpn2
  ok : r = .ok () → Canonical address ∧ address % frameSize = 0 ∧ leaf.frame < 2 ^ 44 ∧
    walk s.1.entries root (vpn address) = none ∧
    walk s'.1.entries root = Function.update (walk s.1.entries root) (vpn address) (some leaf)
  error : ∀ e, r = .error e → walk s'.1.entries root = walk s.1.entries root ∧
    MapFailure s.1.entries root address e

theorem MapFailure.of_progress {address : ℕ} {e : PagingError}
    (h : MapFailure s'.1.entries root address e) (hp : Progress S root s s')
    (hwalk : walk s'.1.entries root = walk s.1.entries root) :
    MapFailure s.1.entries root address e := by
  cases e with
  | pageAlreadyMapped a entry =>
    refine ⟨h.1, fun hclean => ?_⟩
    rw [← hwalk]
    exact h.2 (hp.clean hclean)
  | virtualAddressNotPageAligned a =>
    simp only [MapFailure] at h ⊢
    exact h
  | virtualAddressNotCanonical a =>
    simp only [MapFailure] at h ⊢
    exact h
  | _ =>
    simp only [MapFailure] at h ⊢
    exact h.of_progress hp

/-- Steps that change no translation may come first. -/
theorem PageMapped.after {address : ℕ} {leaf : Leaf} {s₁ : Machine × F}
    {r : Except PagingError Unit} (h : PageMapped w S root address leaf s₁ r s')
    (hp : Progress S root s s₁) (hwalk : walk s₁.1.entries root = walk s.1.entries root)
    (hroot : ∀ j, s₁.1.entries root j ≠ s.1.entries root j → j = (vpn address).vpn2) :
    PageMapped w S root address leaf s r s' where
  ready := h.ready
  progress := hp.trans h.progress
  rootEntries j hj := by
    by_cases hj₁ : s₁.1.entries root j = s.1.entries root j
    · exact h.rootEntries j (by rwa [hj₁])
    · exact hroot j hj₁
  ok hr := by
    obtain ⟨hcanonical, halign, hframe, hnone, hupdate⟩ := h.ok hr
    rw [hwalk] at hnone hupdate
    exact ⟨hcanonical, halign, hframe, hnone, hupdate⟩
  error e hr := by
    obtain ⟨hsame, hfailure⟩ := h.error e hr
    exact ⟨hsame.trans hwalk, hfailure.of_progress hp hwalk⟩

theorem pageMapped_of_failure (h : Ready w S root s) {address : ℕ} {leaf : Leaf} {e : PagingError}
    (hfailure : MapFailure s.1.entries root address e) :
    PageMapped w S root address leaf s (.error e) s := by
  refine ⟨h, Progress.refl s, by simp, by simp, fun e' heq => ⟨rfl, ?_⟩⟩
  obtain rfl := Except.error.inj heq
  exact hfailure

theorem TableFailure.mapFailure {e : Entries} {address : ℕ} {error : PagingError}
    (h : TableFailure e root error) : MapFailure e root address error := by
  cases error with
  | virtualAddressNotPageAligned a => exact h.elim
  | virtualAddressNotCanonical a => exact h.elim
  | pageAlreadyMapped a entry => exact h.elim
  | _ => exact h

theorem Reached.failed {address : ℕ} {leaf : Leaf} {q : Path} {e : PagingError}
    (h : Reached w S root (vpn address) q s (.error e) s') :
    PageMapped w S root address leaf s (.error e) s' := by
  refine ⟨h.ready, h.progress, h.rootEntries, by simp, fun e' heq => ⟨h.walk, ?_⟩⟩
  obtain rfl := Except.error.inj heq
  exact (h.error e rfl).mapFailure

/-- Writing the entry of a page into its last-level table. -/
theorem Ready.setLeaf (h : Ready w S root s) {v : Vpn} {t entry : ℕ} {leaf : Leaf}
    (ht : tableAt s.1.entries root (.level0 v.vpn2 v.vpn1) = some t)
    (hempty : s.1.entries t v.vpn0 = 0) (hle : entry ≤ wordMax) (hleaf : lastLevel entry = some leaf)
    (hopen : w.Open (s.1.setEntry t v.vpn0 entry)) :
    Ready w S root (s.1.setEntry t v.vpn0 entry, s.2) ∧
      Progress S root s (s.1.setEntry t v.vpn0 entry, s.2) ∧
      walk (s.1.setEntry t v.vpn0 entry).entries root =
        Function.update (walk s.1.entries root) v (some leaf) := by
  have hentries := Machine.entries_setEntry s.1 t v.vpn0 hle
  have htables : tableAt (s.1.setEntry t v.vpn0 entry).entries root = tableAt s.1.entries root := by
    rw [hentries, tableAt_setLeaf h.wellFormed ht]
  have htables' : tables (s.1.setEntry t v.vpn0 entry).entries root = tables s.1.entries root := by
    unfold tables
    rw [htables]
  have hkind : kind entry = .leaf := by
    unfold lastLevel at hleaf
    split at hleaf
    · assumption
    · cases hleaf
  have hactive : tables (s.1.setEntry t v.vpn0 entry).entries s.1.root =
      tables s.1.entries s.1.root := by
    rcases h.apart with heq | hdisjoint
    · rw [heq, htables']
    · have hsame : ∀ t' ∈ tables s.1.entries s.1.root,
          (s.1.setEntry t v.vpn0 entry).entries t' = s.1.entries t' := by
        intro t' ht'
        rw [hentries, setEntry_of_ne]
        exact fun heq => Set.disjoint_left.mp hdisjoint (mem_tables ht) (heq ▸ ht')
      unfold tables
      rw [tableAt_congr hsame]
  refine ⟨⟨hopen, h.valid, h.root_lt, h.wellFormed.congr htables, fun t' ht' => ?_, ?_⟩,
    ⟨rfl, ?_, subset_rfl, fun t' ht' => .inl ?_, fun t' ht' => ?_, fun hclean => ?_⟩, ?_⟩
  · obtain ⟨hroot, hroot'⟩ := h.fresh t' ht'
    rw [← htables'] at hroot
    rw [← hactive] at hroot'
    exact ⟨hroot, hroot'⟩
  · rcases h.apart with heq | hdisjoint
    · exact .inl heq
    · right
      rw [← htables', ← hactive] at hdisjoint
      exact hdisjoint
  · rw [hentries]
    exact extends_setEntry hempty
  · rwa [htables'] at ht'
  · have hne : t' ≠ t := by
      rintro rfl
      rw [htables'] at ht'
      exact ht' (mem_tables ht)
    refine sameFrame_store (Nat.le_add_right _ _) ?_ hne
    have := v.vpn0.isLt
    rw [length_toLE]
    unfold frameSize
    omega
  · rw [hentries]
    exact hclean.setLeaf h.wellFormed ht hkind
  · rw [hentries, walk_setLeaf h.wellFormed ht, hleaf]

theorem vpn_indices (address : ℕ) :
    (address >>> gigapageShift) &&& vpnMask = (vpn address).vpn2 ∧
      (address >>> megapageShift) &&& vpnMask = (vpn address).vpn1 ∧
      (address >>> pageShift) &&& vpnMask = (vpn address).vpn0 :=
  ⟨shift_and_vpnMask _ _, shift_and_vpnMask _ _, shift_and_vpnMask _ _⟩

/-- The last step: the entry of the page, unless it is in use. -/
theorem sat_writeLeaf (hs : w.Serves access) (h : Ready w S root s) {address entry : ℕ}
    {level0 : PhysFrame} {leaf : Leaf} (hcanonical : Canonical address)
    (halign : address % frameSize = 0)
    (hlevel0 : tableAt s.1.entries root (.level0 (vpn address).vpn2 (vpn address).vpn1) =
      some level0.number)
    (hne : (level0.number, (vpn address).vpn0) ≠ w.slot) (hle : entry ≤ wordMax)
    (hleaf : lastLevel entry = some leaf) (hframe : leaf.frame < 2 ^ 44) :
    Sat (do
      let existing ← onMachine (access.readPageTableEntry level0 (vpn address).vpn0)
      if existing ≠ 0 then fail (.pageAlreadyMapped address existing)
      else onMachine (access.writePageTableEntry level0 (vpn address).vpn0 entry)) s
      (PageMapped w S root address leaf s) := by
  have hrep : level0.Representable := lt_of_mem_tables h.root_lt (mem_tables hlevel0)
  refine (returns_onMachine (hs.returns_read h.isOpen hrep hne)).sat_bind ?_
  by_cases hempty : s.1.entries level0.number (vpn address).vpn0 = 0
  · rw [if_neg (not_not.mpr hempty)]
    obtain ⟨hwrite, hopen⟩ := hs.returns_write h.isOpen hrep hne hempty hle
    obtain ⟨hready, hprogress, hwalk⟩ := h.setLeaf hlevel0 hempty hle hleaf hopen
    have hnone : walk s.1.entries root (vpn address) = none := by
      rw [walk_of_tableAt hlevel0, hempty]
      rfl
    refine (returns_onMachine hwrite).sat ⟨hready, hprogress, fun j hj => ?_,
      fun _ => ⟨hcanonical, halign, hframe, hnone, hwalk⟩, by simp⟩
    -- a last-level table is not the root
    refine absurd ?_ hj
    rw [Machine.entries_setEntry _ _ _ hle, setEntry_of_ne]
    exact ne_of_path h.wellFormed hlevel0 (q := .root) rfl (by simp)
  · rw [if_pos hempty]
    refine sat_fail (pageMapped_of_failure h ⟨rfl, fun hclean hnone => ?_⟩)
    rw [walk_of_tableAt hlevel0] at hnone
    rcases hclean _ _ (vpn address).vpn0 hlevel0 with h₀ | ⟨hchild, -⟩ | ⟨-, hk⟩
    · exact hempty h₀
    · exact hchild rfl
    · simp [lastLevel, hk] at hnone

/-- **Mapping a page.** -/
theorem sat_mapPage (hs : w.Serves access) {root : PhysFrame} (h : Ready w S root.number s)
    {address : VirtAddr} (havoid : Canonical address.asUsize → address.asUsize % frameSize = 0 →
      Avoids w s.1.entries root.number (vpn address.asUsize))
    (frame : PhysFrame) (permissions : PagePermissions) (privilege : PagePrivilege) :
    Sat (mapPage root access address frame permissions privilege) s
      (PageMapped w S root.number address.asUsize
        (leafFor frame.number permissions privilege) s) := by
  obtain ⟨hi₂, hi₁, hi₀⟩ := vpn_indices address.asUsize
  unfold mapPage
  dsimp only
  rw [and_pageMask, hi₂, hi₁, hi₀]
  by_cases halign : address.asUsize % frameSize = 0
  · rw [if_neg (not_not.mpr halign)]
    by_cases hcanonical : Canonical address.asUsize
    · rw [if_neg (by rw [not_canonical_iff, not_not]; exact hcanonical)]
      by_cases hrep : frame.Representable
      · rw [pageTableEntry_eq_ok hrep (leafFlags_lt _ _)]
        have havoid := havoid hcanonical halign
        refine (returns_ofExcept.mpr ⟨rfl, rfl⟩).sat_bind ?_
        refine (sat_nextTable hs h (p := .root) rfl rfl havoid.level2).bind
          (fun level1 s₁ h₁ => ?_) fun e s₁ h₁ => h₁.reached.failed
        have havoid₁ := havoid.progress h h₁.ready.wellFormed h₁.progress
        have ht₁ := h₁.ok level1 rfl
        refine (sat_nextTable hs h₁.ready ht₁ rfl (havoid₁.level1 _ ht₁)).bind
          (fun level0 s₂ h₂ => ?_) fun e s₂ h₂ => (h₁.reached.next h₂).failed
        have havoid₂ := havoid₁.progress h₁.ready h₂.ready.wellFormed h₂.progress
        have ht₀ := h₂.ok level0 rfl
        have hreached := h₁.reached.next h₂
        refine (sat_writeLeaf hs h₂.ready hcanonical halign ht₀ (havoid₂.level0 _ ht₀)
          (encode_le_wordMax hrep (leafFlags_lt _ _))
          (lastLevel_leafFlags hrep permissions privilege) hrep).mono fun r s₃ h₃ => ?_
        exact h₃.after hreached.progress hreached.walk hreached.rootEntries
      · rw [pageTableEntry_eq_error hrep]
        exact (fails_ofExcept _ s).bind.sat (pageMapped_of_failure h trivial)
    · rw [if_pos ((not_canonical_iff address).mpr hcanonical)]
      exact sat_fail (pageMapped_of_failure h hcanonical)
  · rw [if_pos halign]
    exact sat_fail (pageMapped_of_failure h halign)

end MapPage

end Barebone.Kernel

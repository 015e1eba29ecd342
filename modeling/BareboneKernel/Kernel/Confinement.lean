import BareboneKernel.Kernel.Isolation

/-!
# What nothing changes

Calls of the memory management, code in user mode and the kernel's own code take turns. The calls
write to page tables and to frames that are handed out, code writes through pages that grant it.

* `Vm.store`, `SystemStep`: a store through the translation, and the steps of a system;
* `Quiet`: a frame that is in use, is no table, and is mapped by no writable page;
* `Vm.Change`: what calls are made of;
* `Confined`: mapped pages stay mapped, quiet frames stay quiet and as they are;
* `Vm.Isolated.sat_step`: every step is confined;
* **`code_constant`**: what is executed never changes, and neither does what is only read.
-/

set_option autoImplicit false

namespace Barebone.Kernel

open Exec Word Sv39
open Relation (ReflTransGen)

variable {F : Type}

/-! ## Steps of a system -/

/-- User code may write through the leaf. -/
def userWritable (leaf : Leaf) : Bool := leaf.write && leaf.accessed && leaf.dirty && leaf.user

/-- A store of one byte; one that is not granted ends in a page fault and changes nothing. -/
def Vm.store (granted : Leaf → Bool) (va : ℕ) (byte : UInt8) : Exec (Vm F) Unit Unit := do
  let s ← get
  match physical s.machine granted va with
  | some pa => modify fun s => { s with machine := s.machine.store pa [byte] }
  | none => fail ()

/-- Code that may store at an address: user code, or the kernel's, which keeps away from the page that
controls its window. -/
def MayStore (granted : Leaf → Bool) (va : ℕ) : Prop :=
  granted = userWritable ∨ granted = writable ∧ va / frameSize ≠ fixmapTableBase / frameSize

/-- **The steps of a system** in state `s`: a call, a store in user mode, or one of the kernel, whose
code keeps away from the page that controls its window. -/
inductive SystemStep [FrameAllocator F] (s : Vm F) : Exec (Vm F) Unit Unit → Prop
  | call (call : Call) (allowed : call.Allowed s) : SystemStep s call.run
  | userStore (va : ℕ) (byte : UInt8) : SystemStep s (Vm.store userWritable va byte)
  | kernelStore (va : ℕ) (byte : UInt8)
      (control : va / frameSize ≠ fixmapTableBase / frameSize) :
      SystemStep s (Vm.store writable va byte)

/-! ## Stores inside a frame -/

section Bytes

variable {memory : ℕ → UInt8} {address n : ℕ}

theorem storeBytes_loadBytes : storeBytes memory address (loadBytes memory address n) = memory := by
  funext x
  by_cases hlt : x < address
  · exact storeBytes_of_lt hlt
  by_cases hge : address + n ≤ x
  · refine storeBytes_of_le ?_
    rwa [length_loadBytes]
  · obtain ⟨k, rfl⟩ := Nat.exists_eq_add_of_le (Nat.le_of_not_lt hlt)
    have hk : k < (loadBytes memory address n).length := by
      rw [length_loadBytes]
      omega
    exact (storeBytes_add hk).trans (getElem_loadBytes hk)

/-- A store inside a frame writes the bytes before it as they are. -/
theorem Machine.store_offset (m : Machine) (bytes : List UInt8) :
    m.store (address + n) bytes = m.store address (loadBytes m.memory address n ++ bytes) := by
  have h := storeBytes_append m.memory address (loadBytes m.memory address n) bytes
  rw [storeBytes_loadBytes, length_loadBytes] at h
  unfold Machine.store
  rw [h]

end Bytes

variable [FrameAllocator F]

/-! ## Confined steps -/

/-- **A quiet frame**: it is not free, no table, its token is not at hand, and no page that may be
written lies on it. -/
structure Quiet (S : Supply F) (root : ℕ) (s : Machine × F) (owned : List AllocatedFrame) (n : ℕ) :
    Prop where
  pool : n ∉ S.pool s.2
  tables : n ∉ tables s.1.entries root
  tokens : n ∉ tokenFrames owned
  pages : ∀ v leaf, walk s.1.entries root v = some leaf → leaf.frame = n → leaf.write = false

/-- **What a step leaves alone.** -/
structure Confined (S : Supply F) (root : ℕ) (s s' : Machine × F)
    (owned owned' : List AllocatedFrame) : Prop where
  walk : ∀ v leaf, walk s.1.entries root v = some leaf → Sv39.walk s'.1.entries root v = some leaf
  quiet : ∀ n, Quiet S root s owned n → Quiet S root s' owned' n
  memory : ∀ n, Quiet S root s owned n → SameFrame s.1.memory s'.1.memory n

section Confined

variable {S : Supply F} {root n : ℕ} {s s' s'' : Machine × F}
  {owned owned' owned'' : List AllocatedFrame} {paging : KernelPaging} {reserved usable : Set ℕ}
  {frame : AllocatedFrame} {bytes : List UInt8}

theorem Confined.refl : Confined S root s s owned owned :=
  ⟨fun _ _ h => h, fun _ h => h, fun _ _ _ _ => rfl⟩

theorem Confined.trans (h : Confined S root s s' owned owned')
    (h' : Confined S root s' s'' owned' owned'') : Confined S root s s'' owned owned'' where
  walk v leaf hv := h'.walk v leaf (h.walk v leaf hv)
  quiet n hn := h'.quiet n (h.quiet n hn)
  memory n hn := (h.memory n hn).trans (h'.memory n (h.quiet n hn))

/-- A call that adds at most one page, on a frame that has been free or whose token is given. -/
theorem Grown.confined (hg : Grown paging S usable s s') (hsub : owned'.Sublist owned)
    (husable : ∀ n ∈ usable, n < 2 ^ 44 → n ∈ S.pool s.2 ∨ n ∈ tokenFrames owned) :
    Confined S paging.root.frame.number s s' owned owned' where
  walk v leaf hv := hg.advance.keeps.walk hv
  quiet n hn := by
    obtain ⟨hpool, htables, -⟩ := hg.advance.sameFrame hn.pool hn.tables
    refine ⟨hpool, htables, fun hin => hn.tokens (tokenFrames_mono hsub hin), ?_⟩
    intro v leaf hv hframe
    rcases hg.walk with hwalk | ⟨address, leaf', hmem, hlt, -, -, hadds⟩
    · exact hn.pages v leaf (hwalk ▸ hv) hframe
    · rcases hadds.cases hv with ⟨-, rfl⟩ | hold
      · rcases husable _ hmem hlt with hin | hin
        · exact absurd (hframe ▸ hin) hn.pool
        · exact absurd (hframe ▸ hin) hn.tokens
      · exact hn.pages v leaf hold hframe
  memory n hn := (hg.advance.sameFrame hn.pool hn.tables).2.2

/-- A store to a frame that is neither a table nor quiet. -/
theorem confined_store (hn : n ∉ tables s.1.entries root) (hloud : ¬Quiet S root s owned n)
    (hlen : bytes.length ≤ frameSize) :
    Confined S root s (s.1.store (n * frameSize) bytes, s.2) owned owned := by
  have hwalk := walk_store hn hlen
  refine ⟨fun v leaf hv => ?_, fun n' hn' => ?_, fun n' hn' => ?_⟩
  · rwa [hwalk]
  · refine ⟨hn'.pool, ?_, hn'.tokens, ?_⟩
    · rw [tables_store hn hlen]
      exact hn'.tables
    · rw [hwalk]
      exact hn'.pages
  · have hne : n' ≠ n := by
      rintro rfl
      exact hloud hn'
    refine sameFrame_store le_rfl ?_ hne
    rw [Nat.succ_mul]
    omega

/-- Where an address leads. -/
theorem Isolated.place (h : Isolated paging S reserved s owned) {va pa : ℕ} {leaf : Leaf}
    (hva : s.1.translate va = some (pa, leaf)) : pa = leaf.frame * frameSize + va % frameSize := by
  obtain ⟨hcanonical, hwalk⟩ := h.walk_eq hva
  rw [h.sound.translate_eq, translate_of_walk hcanonical hwalk] at hva
  exact (congrArg Prod.fst (Option.some.inj hva)).symm

/-- **A store through a writable page** that does not lie on a table. -/
theorem Isolated.confined_page (h : Isolated paging S reserved s owned) {va pa : ℕ} {leaf : Leaf}
    (hva : s.1.translate va = some (pa, leaf)) (hwrite : leaf.write = true)
    (hn : leaf.frame ∉ tables s.1.entries paging.root.frame.number) (byte : UInt8) :
    Isolated paging S reserved (s.1.store pa [byte], s.2) owned ∧
      Confined S paging.root.frame.number s (s.1.store pa [byte], s.2) owned owned := by
  obtain ⟨-, hwalk⟩ := h.walk_eq hva
  have hlt : va % frameSize < frameSize := Nat.mod_lt _ (by decide)
  have hlen : (loadBytes s.1.memory (leaf.frame * frameSize) (va % frameSize) ++ [byte]).length ≤
      frameSize := by
    rw [List.length_append, length_loadBytes, List.length_singleton]
    exact hlt
  rw [h.place hva, Machine.store_offset]
  refine ⟨h.store hn hlen, confined_store hn (fun hquiet => ?_) hlen⟩
  have hread := hquiet.pages _ _ hwalk rfl
  rw [hwrite] at hread
  cases hread

end Confined

/-! ## What a call does -/

/-- **A change that a call makes**: it takes frames, it adds at most one page on a frame that was free
or whose token is given, or it fills the frame of a token. -/
inductive Vm.Change (S : Supply F) (reserved : Set ℕ) (s : Vm F) : Vm F → Prop
  | take {f : F} {owned : List AllocatedFrame} (pool : S.pool f ⊆ S.pool s.allocator)
      (tokens : ∀ n ∈ tokenFrames owned, n ∈ tokenFrames s.owned ∨ n ∈ S.pool s.allocator) :
      Change S reserved s { s with allocator := f, owned := owned }
  | grow {paging : KernelPaging} {usable : Set ℕ} {t : Machine × F} {owned : List AllocatedFrame}
      (root : paging.root = s.paging.root) (grown : Grown paging S usable s.space t)
      (sub : owned.Sublist s.owned)
      (usable : ∀ n ∈ usable, n < 2 ^ 44 →
        (n ∈ S.pool s.allocator ∨ n ∈ tokenFrames s.owned) ∧ n ∉ reserved) :
      Change S reserved s ⟨paging, t.1, t.2, owned⟩
  | fill {n : ℕ} {bytes : List UInt8} (token : n ∈ tokenFrames s.owned)
      (table : n ∉ tables s.machine.entries s.paging.root.frame.number)
      (length : bytes.length ≤ frameSize) :
      Change S reserved s { s with machine := s.machine.store (n * frameSize) bytes }

/-- A call makes changes one after the other. -/
abbrev Vm.Changes (S : Supply F) (reserved : Set ℕ) : Vm F → Vm F → Prop :=
  ReflTransGen (Vm.Change S reserved)

section Changes

variable {S : Supply F} {reserved : Set ℕ} {s : Vm F} {frame : AllocatedFrame}

/-- Frames of the pool are not reserved. -/
theorem Vm.Isolated.usable_pool (h : s.Isolated S reserved) : ∀ n ∈ S.pool s.allocator, n < 2 ^ 44 →
    (n ∈ S.pool s.allocator ∨ n ∈ tokenFrames s.owned) ∧ n ∉ reserved :=
  fun n hn _ => ⟨.inl hn, fun hin => h.reserved_pool n hin hn⟩

/-- Neither is the frame of a token. -/
theorem Vm.Isolated.usable_token (h : s.Isolated S reserved) (hmem : frame ∈ s.owned) :
    ∀ n ∈ ({frame.frame.number} : Set ℕ), n < 2 ^ 44 →
      (n ∈ S.pool s.allocator ∨ n ∈ tokenFrames s.owned) ∧ n ∉ reserved := by
  rintro n rfl hrep
  have htoken : frame.frame.number ∈ tokenFrames s.owned := ⟨frame, hmem, hrep, rfl⟩
  exact ⟨.inr htoken, h.tokens.reserved _ htoken⟩

theorem Vm.Isolated.changes_allocate (h : s.Isolated S reserved) :
    Sat Call.allocate.run s fun _ s' => s.Changes S reserved s' := by
  obtain ⟨r, t, hrun, ht⟩ := sat_allocateFrame h.sound.valid
  have hmachine : t.1 = s.machine := ht.machine
  have htake : ∀ owned, (∀ n ∈ tokenFrames owned, n ∈ tokenFrames s.owned ∨
      n ∈ S.pool s.allocator) →
      s.Changes S reserved { s with machine := t.1, allocator := t.2, owned := owned } := by
    intro owned howned
    rw [hmachine]
    exact .single (.take ht.pool howned)
  cases r with
  | error e =>
    have hfails : Fails (Vm.onSpace allocateFrame) s ()
        { s with machine := t.1, allocator := t.2 } :=
      fails_mapError.mpr ⟨e, Fails.zoom hrun, rfl⟩
    exact hfails.bind.sat (htake s.owned fun n hn => .inl hn)
  | ok frame =>
    have hreturns : Returns (Vm.onSpace allocateFrame) s frame
        { s with machine := t.1, allocator := t.2 } :=
      returns_mapError.mpr (returns_zoom.mpr ⟨t, hrun, rfl⟩)
    refine hreturns.sat_bind (sat_modify (f := fun _ => pure ()) (sat_pure (htake _ ?_)))
    rintro n ⟨frame', hmem, hrep, rfl⟩
    rcases List.mem_cons.mp hmem with rfl | hmem
    · exact .inr (ht.frame _ rfl hrep).1
    · exact .inl ⟨frame', hmem, hrep, rfl⟩

theorem Vm.Isolated.changes_claimHeap (h : s.Isolated S reserved) :
    Sat KernelPaging.claimHeap (s.paging, s.space) fun _ s' =>
      s.Changes S reserved ⟨s'.1, s'.2.1, s'.2.2, s.owned⟩ := by
  let claimed : KernelPaging := { s.paging with heapClaimed := true }
  have hgrown : Grown claimed S ∅ s.space s.space := .refl h.claim.sound
  have hclaim : s.Changes S reserved ⟨claimed, s.machine, s.allocator, s.owned⟩ := by
    apply Relation.ReflTransGen.single
    exact .grow (t := s.space) rfl hgrown (List.Sublist.refl _)
      fun n hn => absurd hn (Set.notMem_empty n)
  have hkept : Kept (KernelPaging.heapBacking claimed) fun heap t => heap.Paged ∧
      Kernel.Isolated claimed S reserved t s.owned ∧
        s.Changes S reserved ⟨claimed, t.1, t.2, s.owned⟩ := by
    refine ⟨fun hI => hI.1, fun {heap t page} hI _ hpage => ?_⟩
    obtain ⟨hpaged, hisolated, hchanges⟩ := hI
    have hvm : Vm.Isolated S reserved ⟨claimed, t.1, t.2, s.owned⟩ := hisolated
    refine (KernelPaging.sat_heapBacking_grown hisolated.sound page).mono fun r t' ht => ?_
    have hisolated' := hisolated.grown_pool ht
    have hchanges' := hchanges.tail (.grow rfl ht (List.Sublist.refl s.owned) hvm.usable_pool)
    cases r with
    | ok u => exact ⟨hpaged.back hpage, hisolated', hchanges'⟩
    | error e => exact ⟨hpaged, hisolated', hchanges'⟩
  refine (KernelPaging.sat_claimHeap h.sound hkept
    (Q := fun t => s.Changes S reserved ⟨claimed, t.1, t.2, s.owned⟩)
    (fun _ => ⟨⟨?_, ?_⟩, h.claim, hclaim⟩) hclaim fun heap t hI => hI.2.2).mono fun r s' hr => ?_
  · decide
  · decide
  · obtain ⟨rfl | ⟨heq, hchanges⟩, -⟩ := hr
    · exact .refl
    · rw [heq]
      exact hchanges

/-- **What a call does**, whether it succeeds or fails. -/
theorem Vm.Isolated.sat_changes (h : s.Isolated S reserved) {call : Call}
    (hallowed : call.Allowed s) : Sat call.run s fun _ s' => s.Changes S reserved s' := by
  have hpool : ∀ {t : Machine × F}, Grown s.paging S (S.pool s.allocator) s.space t →
      s.Changes S reserved { s with machine := t.1, allocator := t.2 } := fun hg =>
    .single (.grow rfl hg (List.Sublist.refl _) h.usable_pool)
  have hgiven : ∀ {frame : AllocatedFrame} {t : Machine × F}, frame ∈ s.owned →
      Grown s.paging S {frame.frame.number} s.space t →
      s.Changes S reserved ⟨s.paging, t.1, t.2, s.owned.erase frame⟩ := fun hmem hg =>
    .single (.grow rfl hg List.erase_sublist (h.usable_token hmem))
  cases call with
  | allocate => exact h.changes_allocate
  | mapPage address frame permissions =>
    refine sat_modify (sat_get (Vm.sat_onSpace (P := fun t =>
      Grown s.paging S {frame.frame.number} s.space t) ?_ fun r t ht => hgiven hallowed ht))
    show Sat (s.paging.mapPage address frame permissions) s.space _
    unfold KernelPaging.mapPage
    dsimp only
    split
    · exact sat_fail (.refl h.sound)
    · exact KernelPaging.sat_installPage_grown h.sound address frame permissions
        fun hrep => h.token hallowed hrep
  | mapUserPage address frame permissions =>
    refine sat_modify (sat_get (Vm.sat_onSpace (P := fun t =>
      Grown s.paging S {frame.frame.number} s.space t) ?_ fun r t ht => hgiven hallowed ht))
    exact KernelPaging.sat_mapUserPage_grown h.sound address frame permissions
      fun hrep => h.token hallowed hrep
  | claimHeap =>
    have hclaim : Sat (Vm.onPaging KernelPaging.claimHeap) s fun _ s' => s.Changes S reserved s' :=
      Vm.sat_onPaging h.changes_claimHeap fun r t ht => ht
    exact hclaim.bind (fun _ s' hs' => sat_pure hs') fun _ s' hs' => hs'
  | heapBacking address =>
    exact sat_get (Vm.sat_onSpace (KernelPaging.sat_heapBacking_grown h.sound address)
      fun r t ht => hpool ht)
  | zeroFrame frame =>
    refine sat_get (Vm.sat_onSpace (P := fun t =>
      s.Changes S reserved { s with machine := t.1, allocator := t.2 }) ?_ fun r t ht => ht)
    by_cases hrep : frame.frame.Representable
    · obtain ⟨-, hn⟩ := h.token hallowed hrep
      have hroot := h.sound.fixmap.root
      obtain ⟨hzero, -⟩ := returns_zeroFrame (KernelPaging.serves h.sound.fixmap.slot)
        h.sound.fixmap.isOpen hrep (by rwa [hroot])
      exact (returns_onMachine hzero).sat (.single (.fill ⟨frame, hallowed, hrep, rfl⟩ hn
        List.length_replicate.le))
    · have hfails : Fails (s.paging.zeroFrame frame) s.machine
          (.physicalAddressNotRepresentable frame.frame.start) s.machine :=
        (KernelPaging.serves h.sound.fixmap.slot).refuse h.sound.fixmap.isOpen hrep
      have hzoom : Fails (onMachine (s.paging.zeroFrame frame)) s.space
          (.physicalAddressNotRepresentable frame.frame.start) s.space := Fails.zoom hfails
      exact hzoom.sat .refl
  | imageMapPage address bytes permissions =>
    exact sat_get (Vm.sat_onSpace (h.sound.sat_imageMapPage_grown address bytes permissions)
      fun r t ht => hpool ht)

end Changes

/-! ## Every step is confined -/

/-- The same tables are active, and the step is confined. -/
structure Vm.Confined (S : Supply F) (s s' : Vm F) : Prop where
  root : s'.paging.root = s.paging.root
  space : Kernel.Confined S s.paging.root.frame.number s.space s'.space s.owned s'.owned

section Steps

variable {S : Supply F} {reserved : Set ℕ} {s s' s'' : Vm F}

theorem Vm.Confined.refl : s.Confined S s := ⟨rfl, .refl⟩

theorem Vm.Confined.trans (h : s.Confined S s') (h' : s'.Confined S s'') : s.Confined S s'' := by
  refine ⟨h'.root.trans h.root, h.space.trans ?_⟩
  have hspace := h'.space
  rwa [h.root] at hspace

theorem Vm.Change.confined (h : s.Change S reserved s') : s.Confined S s' := by
  cases h with
  | take hpool htokens =>
    refine ⟨rfl, ⟨fun v leaf hv => hv, fun n hn => ?_, fun n _ _ _ => rfl⟩⟩
    exact ⟨fun hin => hn.pool (hpool hin), hn.tables,
      fun hin => (htokens n hin).elim hn.tokens hn.pool, hn.pages⟩
  | grow hroot hgrown hsub husable =>
    refine ⟨hroot, ?_⟩
    rw [← hroot]
    exact hgrown.confined hsub fun n hn hlt => (husable n hn hlt).1
  | fill htoken htable hlength =>
    exact ⟨rfl, confined_store htable (fun hquiet => hquiet.tokens htoken) hlength⟩

/-- **A call is confined**, whether it succeeds or fails. -/
theorem Vm.Isolated.confined_run (h : s.Isolated S reserved) {call : Call}
    (hallowed : call.Allowed s) : Sat call.run s fun _ s' => s.Confined S s' := by
  refine (h.sat_changes hallowed).mono fun r s' hr => ?_
  induction hr with
  | refl => exact .refl
  | tail _ hchange ih => exact ih.trans hchange.confined

omit [FrameAllocator F] in
theorem physical_eq_some {m : Machine} {granted : Leaf → Bool} {va pa : ℕ} :
    physical m granted va = some pa ↔ ∃ leaf, m.translate va = some (pa, leaf) ∧
      granted leaf = true := by
  unfold physical
  cases htranslate : m.translate va with
  | none => simp
  | some x =>
    obtain ⟨pa', leaf⟩ := x
    constructor
    · intro h
      by_cases hgranted : granted leaf = true
      · have hpa : some pa' = some pa := (if_pos hgranted).symm.trans h
        exact ⟨leaf, by rw [Option.some.inj hpa], hgranted⟩
      · exact absurd ((if_neg hgranted).symm.trans h) (by simp)
    · rintro ⟨leaf', heq, hgranted⟩
      obtain ⟨rfl, rfl⟩ := Prod.mk.inj (Option.some.inj heq)
      exact if_pos hgranted

/-- A page that is stored through may be written and lies on no table. -/
theorem Vm.Isolated.written (h : s.Isolated S reserved) {granted : Leaf → Bool} {va pa : ℕ}
    {leaf : Leaf} (hcode : MayStore granted va) (hva : s.machine.translate va = some (pa, leaf))
    (hgranted : granted leaf = true) : leaf.write = true ∧
      leaf.frame ∉ tables s.machine.entries s.paging.root.frame.number := by
  rcases hcode with rfl | ⟨rfl, hcontrol⟩
  · simp only [userWritable, Bool.and_eq_true] at hgranted
    exact ⟨hgranted.1.1.1, h.user_table hva hgranted.2⟩
  · simp only [writable, Bool.and_eq_true] at hgranted
    exact ⟨hgranted.1.1.1, fun hmem => hcontrol (h.table_page hva hmem).1⟩

theorem Vm.Isolated.sat_store (h : s.Isolated S reserved) {granted : Leaf → Bool} {va : ℕ}
    (hcode : MayStore granted va) (byte : UInt8) :
    Sat (Vm.store granted va byte) s fun _ s' => s'.Isolated S reserved ∧ s.Confined S s' := by
  refine sat_get ?_
  cases hphysical : physical s.machine granted va with
  | none => exact sat_fail ⟨h, .refl⟩
  | some pa =>
    obtain ⟨leaf, hva, hgranted⟩ := physical_eq_some.mp hphysical
    obtain ⟨hwrite, hn⟩ := h.written hcode hva hgranted
    obtain ⟨hisolated, hconfined⟩ := Kernel.Isolated.confined_page h hva hwrite hn byte
    exact ⟨.ok (), _, rfl, hisolated, rfl, hconfined⟩

/-- **Every step keeps the invariant and is confined.** -/
theorem Vm.Isolated.sat_step (h : s.Isolated S reserved) {c : Exec (Vm F) Unit Unit}
    (hc : SystemStep s c) : Sat c s fun _ s' => s'.Isolated S reserved ∧ s.Confined S s' := by
  cases hc with
  | call call hallowed => exact (h.sat_run hallowed).and (h.confined_run hallowed)
  | userStore va byte => exact h.sat_store (.inl rfl) byte
  | kernelStore va byte hcontrol => exact h.sat_store (.inr ⟨rfl, hcontrol⟩) byte

/-- **Every run is confined.** -/
theorem Vm.Isolated.run (h : s.Isolated S reserved) (hrun : Run SystemStep s s') :
    s'.Isolated S reserved ∧ s.Confined S s' := by
  refine hrun.induct (P := fun s' => s'.Isolated S reserved ∧ s.Confined S s') ⟨h, .refl⟩ ?_
  rintro s₁ c ⟨hisolated, hconfined⟩ hc
  refine (hisolated.sat_step hc).mono ?_
  rintro r s₂ ⟨hisolated', hconfined'⟩
  exact ⟨hisolated', hconfined.trans hconfined'⟩

/-! ## Address by address -/

theorem Vm.Confined.translate (h : s.Isolated S reserved) (h' : s'.Isolated S reserved)
    (hc : s.Confined S s') {va : ℕ} {x : ℕ × Leaf} (hx : s.machine.translate va = some x) :
    s'.machine.translate va = some x := by
  have heq : s.machine.translate va = Sv39.translate s.machine.entries
      s.paging.root.frame.number va := h.sound.translate_eq va
  have heq' : s'.machine.translate va = Sv39.translate s'.machine.entries
      s'.paging.root.frame.number va := h'.sound.translate_eq va
  rw [heq] at hx
  obtain ⟨hcanonical, hwalk⟩ := walk_of_translate hx
  have hwalk' : walk s'.machine.entries s.paging.root.frame.number (vpn va) = some x.2 :=
    hc.space.walk _ _ hwalk
  rw [← hx, heq', hc.root, translate_of_walk hcanonical hwalk', translate_of_walk hcanonical hwalk]

/-- The frame of a page that no page may write is quiet. -/
theorem Vm.Isolated.quiet (h : s.Isolated S reserved) {va pa : ℕ} {leaf : Leaf}
    (hva : s.machine.translate va = some (pa, leaf))
    (hunwritten : ∀ va' pa' leaf', s.machine.translate va' = some (pa', leaf') →
      leaf'.frame = leaf.frame → leaf'.write = false) :
    Quiet S s.paging.root.frame.number s.space s.owned leaf.frame := by
  obtain ⟨hcanonical, hwalk⟩ := h.walk_eq hva
  refine ⟨h.pages.pool _ _ hwalk, fun hmem => ?_, h.pages.tokens _ _ hwalk, ?_⟩
  · -- the page that lies on a table is written
    have hvpn := h.pages.tables _ _ hwalk hmem
    have hcontrol := h.sound.fixmap.control
    rw [h.sound.fixmap.root, ← hvpn] at hcontrol
    have hread := hunwritten va pa leaf hva rfl
    rw [Option.some.inj (hwalk.symm.trans hcontrol)] at hread
    simp [readWriteLeaf] at hread
  · intro v leaf' hv hframe
    obtain ⟨address, hcanonical', -, rfl, -⟩ := h.pages.placed v leaf' hv
    have htranslate : s.machine.translate address = _ :=
      (h.sound.translate_eq address).trans (translate_of_walk hcanonical' hv)
    exact hunwritten _ _ _ htranslate hframe

theorem Vm.Isolated.memory (h : s.Isolated S reserved) (hc : s.Confined S s') {va pa : ℕ}
    {leaf : Leaf} (hva : s.machine.translate va = some (pa, leaf))
    (hunwritten : ∀ va' pa' leaf', s.machine.translate va' = some (pa', leaf') →
      leaf'.frame = leaf.frame → leaf'.write = false) :
    s'.machine.memory pa = s.machine.memory pa := by
  refine hc.space.memory _ (h.quiet hva hunwritten) pa ?_
  have hpa := Kernel.Isolated.place h hva
  unfold frameSize at *
  omega

/-- What is executed is written through no page. -/
theorem Vm.Isolated.unwritten (h : s.Isolated S reserved) {va pa : ℕ} {leaf : Leaf}
    (hva : s.machine.translate va = some (pa, leaf)) (hexecute : leaf.execute = true)
    (va' pa' : ℕ) (leaf' : Leaf) (hva' : s.machine.translate va' = some (pa', leaf'))
    (hframe : leaf'.frame = leaf.frame) : leaf'.write = false := by
  by_contra hwrite
  exact h.pages.exclusive _ _ _ _ (h.walk_eq hva').2 (h.walk_eq hva).2 hframe
    ⟨by simpa using hwrite, hexecute⟩

end Steps

/-- **Code is constant.** Let sections and devicetree window be in the upper half, on frames that the
allocator never hands out. Calls of the memory management, stores in user mode and stores of the kernel
beside the page that controls its window may then take turns in any order: what has been mapped stays
mapped as it is, no byte that can be executed ever changes, and neither does one on a frame that no
page may write. -/
theorem code_constant (S : Supply F) (bootstrap : BootstrapPaging)
    (kernelPhysicalStart : PhysAddr) (sections : KernelSections) (dtbVirtual : VirtAddr)
    (dtbPhysical : PhysRange) (s : Machine × F) (owned : List AllocatedFrame)
    (hboot : bootstrap.Identity s.1) (hvalid : S.Valid s.2)
    (hfresh : ∀ t ∈ S.pool s.2, t ∉ tables s.1.entries s.1.root)
    (hhigh : UpperHalf sections dtbVirtual)
    (hreserved : ∀ n ∈ reservedFrames kernelPhysicalStart sections dtbPhysical, n ∉ S.pool s.2)
    (howned : Tokens S (reservedFrames kernelPhysicalStart sections dtbPhysical) s.2 owned) :
    Sat (bootstrap.intoKernel kernelPhysicalStart sections dtbVirtual dtbPhysical) s fun r s' =>
      ∀ paging, r = .ok paging → ∀ vm vm', Run SystemStep ⟨paging, s'.1, s'.2, owned⟩ vm →
        Run SystemStep vm vm' →
          Isolation kernelPhysicalStart sections dtbPhysical vm'.paging vm'.machine ∧
          ∀ va pa leaf, vm.machine.translate va = some (pa, leaf) →
            vm'.machine.translate va = some (pa, leaf) ∧
            (leaf.execute = true → vm'.machine.memory pa = vm.machine.memory pa) ∧
            ((∀ va' pa' leaf', vm.machine.translate va' = some (pa', leaf') →
              leaf'.frame = leaf.frame → leaf'.write = false) →
                vm'.machine.memory pa = vm.machine.memory pa) := by
  refine (sat_intoKernel hboot hvalid hfresh).mono fun r s' hr paging heq vm vm' hrun hrun' => ?_
  obtain ⟨dtbFrame, hbuilt⟩ := hr paging heq
  have hstart : Vm.Isolated S (reservedFrames kernelPhysicalStart sections dtbPhysical)
      ⟨paging, s'.1, s'.2, owned⟩ := hbuilt.isolated hhigh hreserved howned
  obtain ⟨hvm, -⟩ := hstart.run hrun
  obtain ⟨hvm', hconfined⟩ := hvm.run hrun'
  refine ⟨hvm'.isolation, fun va pa leaf hva => ⟨hconfined.translate hvm hvm' hva,
    fun hexecute => hvm.memory hconfined hva (hvm.unwritten hva hexecute),
    hvm.memory hconfined hva⟩⟩

/-- Whatever runs in the sample kernel, its code stays as it is. -/
theorem code_constant_sample : Succeeds (sampleBootstrap.intoKernel ⟨0x200000, by decide⟩
    sampleSections sampleDtbVirtual sampleDtbRange) (sampleBootMachine, sampleStock) fun paging s' =>
      ∀ vm, Run SystemStep ⟨paging, s'.1, s'.2, []⟩ vm → ∀ k < 0x1800,
        vm.machine.memory (0x200000 + k) = s'.1.memory (0x200000 + k) := by
  refine (succeeds_intoKernel_sample.and (code_constant listSupply sampleBootstrap
    ⟨0x200000, by decide⟩ sampleSections sampleDtbVirtual sampleDtbRange
    (sampleBootMachine, sampleStock) [] identity_sample valid_sampleStock
    (fun _ => fresh_sampleStock) sampleUpperHalf (fun _ => reserved_sampleStock) (.nil ..))).mono
    fun paging s' h vm hrun k hk => ?_
  obtain ⟨⟨-, dtbFrame, hbuilt⟩, hall⟩ := h
  have hmem : (sampleSections.text, .readExecute) ∈ sampleSections.permissions :=
    List.mem_cons_self
  have hva : kernelHighBase + k ∈ coverage ⟨⟨kernelHighBase, by decide⟩,
      ⟨kernelHighBase + 0x1800, by decide⟩, by decide⟩ :=
    ⟨Nat.le_add_right _ _, Nat.add_lt_add_left (hk.trans (by decide)) _⟩
  have htext := hbuilt.translate_section hmem hva
  have hplace : 0x200000 + (kernelHighBase + k - sampleSections.virtualStart.asUsize) =
      0x200000 + k := congrArg (0x200000 + ·) (Nat.add_sub_cancel_left kernelHighBase k)
  rw [← hbuilt.translate_eq, hplace] at htext
  exact ((hall paging rfl _ vm .start hrun).2 _ _ _ htext).2.1 rfl

end Barebone.Kernel

import BareboneKernel.Lib.Cells
import BareboneKernel.Kernel.Confinement

/-!
# Memory remembers what is stored

Pages that are mapped after `into_kernel` lie on frames of their own. Calls of the memory management
do not touch these frames again, and no other page leads to them, so that the addresses of such a page
behave like the cells of an abstract memory.

* `VmStep`: a step of the system with the store that it makes, if any;
* `Vm.Spares`: what calls leave alone, namely every frame that is mapped;
* `Vm.Holds`: a byte at an address whose frame is not reserved;
* **`memory_remembers`**: such a byte is always the last one stored at its address.
-/

set_option autoImplicit false

namespace Barebone.Kernel

open Exec Word Sv39 Cells

variable {F : Type} [FrameAllocator F]

/-! ## Steps with their stores -/

/-- A step of the system. A store that is refused makes none. -/
inductive VmStep (s : Vm F) : Option (ℕ × UInt8) → Vm F → Prop
  | call {call : Call} {r : Except Unit Unit} {s' : Vm F} (allowed : call.Allowed s)
      (run : call.run s = .ok (r, s')) : VmStep s none s'
  | stored {granted : Leaf → Bool} {va : ℕ} {byte : UInt8} {s' : Vm F}
      (code : MayStore granted va) (run : Returns (Vm.store granted va byte) s () s') :
      VmStep s (some (va, byte)) s'
  | refused {granted : Leaf → Bool} {va : ℕ} {byte : UInt8} {s' : Vm F}
      (code : MayStore granted va) (run : Fails (Vm.store granted va byte) s () s') : VmStep s none s'

theorem MayStore.systemStep {s : Vm F} {granted : Leaf → Bool} {va : ℕ} (h : MayStore granted va)
    (byte : UInt8) : SystemStep s (Vm.store granted va byte) := by
  rcases h with rfl | ⟨rfl, hcontrol⟩
  · exact .userStore va byte
  · exact .kernelStore va byte hcontrol

theorem VmStep.systemStep {s s' : Vm F} {write : Option (ℕ × UInt8)} (h : VmStep s write s') :
    ∃ c r, SystemStep s c ∧ c s = .ok (r, s') := by
  cases h with
  | call allowed run => exact ⟨_, _, .call _ allowed, run⟩
  | stored code run => exact ⟨_, _, code.systemStep _, run⟩
  | refused code run => exact ⟨_, _, code.systemStep _, run⟩

/-- A run with its stores is a run. -/
theorem run_of_logged {s s' : Vm F} {log : List (ℕ × UInt8)} (h : Logged VmStep s log s') :
    Run SystemStep s s' := by
  induction h with
  | start => exact .start
  | next _ hlast ih =>
    obtain ⟨c, r, hok, hstep⟩ := hlast.systemStep
    exact ih.next hok hstep

/-! ## What calls leave alone -/

/-- A frame that is neither free nor a table, and whose token is not at hand. -/
structure Settled (S : Supply F) (root : ℕ) (s : Machine × F) (owned : List AllocatedFrame) (n : ℕ) :
    Prop where
  pool : n ∉ S.pool s.2
  tables : n ∉ tables s.1.entries root
  tokens : n ∉ tokenFrames owned

/-- **What a call spares**: settled frames stay settled and as they are, and pages are added on
frames that are not reserved only. -/
structure Spares (S : Supply F) (reserved : Set ℕ) (root : ℕ) (s s' : Machine × F)
    (owned owned' : List AllocatedFrame) : Prop where
  settled : ∀ n, Settled S root s owned n → Settled S root s' owned' n
  memory : ∀ n, Settled S root s owned n → SameFrame s.1.memory s'.1.memory n
  pages : ∀ v leaf, walk s'.1.entries root v = some leaf →
    walk s.1.entries root v = some leaf ∨ leaf.frame ∉ reserved

section Spares

variable {S : Supply F} {reserved usable : Set ℕ} {root n : ℕ} {s s' s'' : Machine × F}
  {owned owned' owned'' : List AllocatedFrame} {paging : KernelPaging}

theorem Spares.refl : Spares S reserved root s s owned owned :=
  ⟨fun _ h => h, fun _ _ _ _ => rfl, fun _ _ h => .inl h⟩

theorem Spares.trans (h : Spares S reserved root s s' owned owned')
    (h' : Spares S reserved root s' s'' owned' owned'') :
    Spares S reserved root s s'' owned owned'' where
  settled n hn := h'.settled n (h.settled n hn)
  memory n hn := (h.memory n hn).trans (h'.memory n (h.settled n hn))
  pages v leaf hv := by
    rcases h'.pages v leaf hv with hold | hnew
    · exact h.pages v leaf hold
    · exact .inr hnew

theorem Grown.spares (hg : Grown paging S usable s s') (hsub : owned'.Sublist owned)
    (husable : ∀ n ∈ usable, n < 2 ^ 44 → n ∉ reserved) :
    Spares S reserved paging.root.frame.number s s' owned owned' where
  settled n hn := by
    obtain ⟨hpool, htables, -⟩ := hg.advance.sameFrame hn.pool hn.tables
    exact ⟨hpool, htables, fun hin => hn.tokens (tokenFrames_mono hsub hin)⟩
  memory n hn := (hg.advance.sameFrame hn.pool hn.tables).2.2
  pages v leaf hv := by
    rcases hg.walk with hwalk | ⟨address, leaf', hmem, hlt, -, -, hadds⟩
    · exact .inl (hwalk ▸ hv)
    · rcases hadds.cases hv with ⟨-, rfl⟩ | hold
      · exact .inr (husable _ hmem hlt)
      · exact .inl hold

/-- A store to a frame leaves the others alone. -/
theorem spares_store {bytes : List UInt8} (hn : n ∉ tables s.1.entries root)
    (hloud : ¬Settled S root s owned n) (hlen : bytes.length ≤ frameSize) :
    Spares S reserved root s (s.1.store (n * frameSize) bytes, s.2) owned owned := by
  refine ⟨fun n' hn' => ?_, fun n' hn' => ?_, fun v leaf hv => ?_⟩
  · refine ⟨hn'.pool, ?_, hn'.tokens⟩
    rw [tables_store hn hlen]
    exact hn'.tables
  · have hne : n' ≠ n := by
      rintro rfl
      exact hloud hn'
    refine sameFrame_store le_rfl ?_ hne
    rw [Nat.succ_mul]
    omega
  · rw [walk_store hn hlen] at hv
    exact .inl hv

end Spares

/-- The same tables are active, and the call spares what it should. -/
structure Vm.Spares (S : Supply F) (reserved : Set ℕ) (s s' : Vm F) : Prop where
  root : s'.paging.root = s.paging.root
  space : Kernel.Spares S reserved s.paging.root.frame.number s.space s'.space s.owned s'.owned

section Calls

variable {S : Supply F} {reserved : Set ℕ} {s s' s'' : Vm F}

theorem Vm.Spares.refl : s.Spares S reserved s := ⟨rfl, .refl⟩

theorem Vm.Spares.trans (h : s.Spares S reserved s') (h' : s'.Spares S reserved s'') :
    s.Spares S reserved s'' := by
  refine ⟨h'.root.trans h.root, h.space.trans ?_⟩
  have hspace := h'.space
  rwa [h.root] at hspace

theorem Vm.Change.spares (h : s.Change S reserved s') : s.Spares S reserved s' := by
  cases h with
  | take hpool htokens =>
    refine ⟨rfl, ⟨fun n hn => ?_, fun n _ _ _ => rfl, fun v leaf hv => .inl hv⟩⟩
    exact ⟨fun hin => hn.pool (hpool hin), hn.tables,
      fun hin => (htokens n hin).elim hn.tokens hn.pool⟩
  | grow hroot hgrown hsub husable =>
    refine ⟨hroot, ?_⟩
    rw [← hroot]
    exact hgrown.spares hsub fun n hn hlt => (husable n hn hlt).2
  | fill htoken htable hlength =>
    exact ⟨rfl, spares_store htable (fun hsettled => hsettled.tokens htoken) hlength⟩

/-- **A call spares** what is mapped, whether it succeeds or fails. -/
theorem Vm.Isolated.spares_run (h : s.Isolated S reserved) {call : Call}
    (hallowed : call.Allowed s) : Sat call.run s fun _ s' => s.Spares S reserved s' := by
  refine (h.sat_changes hallowed).mono fun r s' hr => ?_
  induction hr with
  | refl => exact .refl
  | tail _ hchange ih => exact ih.trans hchange.spares

end Calls

/-! ## Bytes at addresses -/

/-- The byte at an address, when the page there lies on a frame that is neither reserved nor a
table. -/
def Vm.Holds (reserved : Set ℕ) (s : Vm F) (va : ℕ) (byte : UInt8) : Prop :=
  ∃ pa leaf, s.machine.translate va = some (pa, leaf) ∧ leaf.frame ∉ reserved ∧
    leaf.frame ∉ tables s.machine.entries s.paging.root.frame.number ∧ s.machine.memory pa = byte

section Holds

variable {S : Supply F} {reserved : Set ℕ} {s s' : Vm F} {va pa : ℕ} {leaf : Leaf} {byte : UInt8}

/-- The frame of a page is settled, when it is no table. -/
theorem Vm.Isolated.settled (h : s.Isolated S reserved)
    (hva : s.machine.translate va = some (pa, leaf))
    (htable : leaf.frame ∉ tables s.machine.entries s.paging.root.frame.number) :
    Settled S s.paging.root.frame.number s.space s.owned leaf.frame := by
  obtain ⟨-, hwalk⟩ := h.walk_eq hva
  exact ⟨h.pages.pool _ _ hwalk, htable, h.pages.tokens _ _ hwalk⟩

/-- Addresses on frames that are not reserved lead to places of their own. -/
theorem Vm.Isolated.place_inj (h : s.Isolated S reserved) {va' : ℕ} {leaf' : Leaf}
    (hva : s.machine.translate va = some (pa, leaf)) (hreserved : leaf.frame ∉ reserved)
    (hva' : s.machine.translate va' = some (pa, leaf')) : va' = va := by
  have hpa := Kernel.Isolated.place h hva
  have hpa' := Kernel.Isolated.place h hva'
  obtain ⟨hcanonical, hwalk⟩ := h.walk_eq hva
  obtain ⟨hcanonical', hwalk'⟩ := h.walk_eq hva'
  have hframe : leaf.frame = leaf'.frame := by
    unfold frameSize at *
    omega
  rcases h.pages.shared _ _ _ _ hwalk hwalk' hframe with hvpn | hmem
  · have hpage := (vpn_eq_iff hcanonical hcanonical').mp hvpn
    unfold frameSize at *
    omega
  · exact absurd hmem hreserved

/-- Calls keep every byte. -/
theorem Vm.Isolated.holds_call (h : s.Isolated S reserved) (h' : s'.Isolated S reserved)
    (hconfined : s.Confined S s') (hspares : s.Spares S reserved s') (hholds : s.Holds reserved va byte) :
    s'.Holds reserved va byte := by
  obtain ⟨pa, leaf, hva, hreserved, htable, hbyte⟩ := hholds
  have hsettled := h.settled hva htable
  have hva' := hconfined.translate h h' hva
  refine ⟨pa, leaf, hva', hreserved, ?_, ?_⟩
  · rw [hspares.root]
    exact (hspares.space.settled _ hsettled).tables
  · have hpa := Kernel.Isolated.place h hva
    refine (hspares.space.memory _ hsettled pa ?_).trans hbyte
    unfold frameSize at *
    omega

omit [FrameAllocator F] in
theorem store_eq (s : Vm F) (granted : Leaf → Bool) (va : ℕ) (byte : UInt8) :
    Vm.store granted va byte s = match physical s.machine granted va with
      | some pa => .ok (.ok (), { s with machine := s.machine.store pa [byte] })
      | none => .ok (.error (), s) := by
  show (match physical s.machine granted va with
    | some pa => modify fun s => { s with machine := s.machine.store pa [byte] }
    | none => fail () : Exec (Vm F) Unit Unit) s = _
  cases physical s.machine granted va <;> rfl

omit [FrameAllocator F] in
theorem returns_store {granted : Leaf → Bool} (hrun : Returns (Vm.store granted va byte) s () s') :
    ∃ pa, physical s.machine granted va = some pa ∧
      s' = { s with machine := s.machine.store pa [byte] } := by
  rw [Returns, store_eq] at hrun
  cases hphysical : physical s.machine granted va with
  | none =>
    rw [hphysical] at hrun
    cases hrun
  | some pa =>
    rw [hphysical] at hrun
    cases hrun
    exact ⟨pa, rfl, rfl⟩

omit [FrameAllocator F] in
theorem fails_store {granted : Leaf → Bool} (hrun : Fails (Vm.store granted va byte) s () s') :
    s' = s := by
  rw [Fails, store_eq] at hrun
  cases hphysical : physical s.machine granted va with
  | none =>
    rw [hphysical] at hrun
    cases hrun
    rfl
  | some pa =>
    rw [hphysical] at hrun
    cases hrun

/-- A store that is granted changes no table. -/
theorem Vm.Isolated.stored (h : s.Isolated S reserved) {granted : Leaf → Bool}
    (hcode : MayStore granted va) (hrun : Returns (Vm.store granted va byte) s () s') :
    ∃ pa leaf, s.machine.translate va = some (pa, leaf) ∧
      s' = { s with machine := s.machine.store pa [byte] } ∧
      ∀ t ∈ tables s.machine.entries s.paging.root.frame.number,
        s'.machine.entries t = s.machine.entries t := by
  obtain ⟨pa, hphysical, rfl⟩ := returns_store hrun
  obtain ⟨leaf, hva, hgranted⟩ := physical_eq_some.mp hphysical
  obtain ⟨-, htable⟩ := h.written hcode hva hgranted
  have hlen : (loadBytes s.machine.memory (leaf.frame * frameSize) (va % frameSize) ++
      [byte]).length ≤ frameSize := by
    rw [List.length_append, length_loadBytes, List.length_singleton]
    exact Nat.mod_lt _ (by decide)
  refine ⟨pa, leaf, hva, rfl, ?_⟩
  dsimp only
  rw [Kernel.Isolated.place h hva, Machine.store_offset]
  exact entries_store_tables htable hlen

/-- **A step leaves in memory what it stores**, and every other byte as it was. -/
theorem VmStep.holds {write : Option (ℕ × UInt8)} (h : s.Isolated S reserved)
    (hstep : VmStep s write s') : s'.Isolated S reserved ∧
      ∀ va byte, s.Holds reserved va byte →
        s'.Holds reserved va (replay write.toList va byte) := by
  obtain ⟨c, r, hok, hrun⟩ := hstep.systemStep
  obtain ⟨r', s₁, hrun', h', hconfined⟩ := h.sat_step hok
  obtain ⟨rfl, rfl⟩ := Prod.mk.inj (Except.ok.inj (hrun.symm.trans hrun'))
  refine ⟨h', fun va byte hholds => ?_⟩
  cases hstep with
  | call hallowed hcall =>
    obtain ⟨r₁, s₁, hcall', hspares⟩ := h.spares_run hallowed
    obtain ⟨rfl, rfl⟩ := Prod.mk.inj (Except.ok.inj (hcall.symm.trans hcall'))
    exact h.holds_call h' hconfined hspares hholds
  | refused _ hrefused =>
    rw [fails_store hrefused]
    exact hholds
  | @stored granted va' byte' _ hcode hstored =>
    obtain ⟨pa, leaf, hva, hreserved, htable, hbyte⟩ := hholds
    obtain ⟨pa', leaf', hva', rfl, hentries⟩ := h.stored hcode hstored
    refine ⟨pa, leaf, hconfined.translate h h' hva, hreserved, ?_, ?_⟩
    · unfold tables at htable ⊢
      rwa [tableAt_congr hentries]
    · show storeBytes s.machine.memory pa' [byte'] pa = replay [(va', byte')] va byte
      rw [replay_singleton]
      by_cases heq : va' = va
      · subst heq
        obtain ⟨rfl, -⟩ := Prod.mk.inj (Option.some.inj (hva.symm.trans hva'))
        rw [if_pos rfl]
        exact storeBytes_add (k := 0) (by simp)
      · have hne : pa' ≠ pa := by
          rintro rfl
          exact heq (h.place_inj hva hreserved hva')
        rw [if_neg heq, ← hbyte]
        rcases Nat.lt_or_gt_of_ne hne with hlt | hgt
        · exact storeBytes_of_le (by rw [List.length_singleton]; omega)
        · exact storeBytes_of_lt hgt

/-! ## Pages that have been added -/

/-- The same tables are active, and pages have been added on frames that are not reserved only. -/
structure Vm.Gains (reserved : Set ℕ) (s s' : Vm F) : Prop where
  root : s'.paging.root = s.paging.root
  pages : ∀ v leaf, walk s'.machine.entries s.paging.root.frame.number v = some leaf →
    walk s.machine.entries s.paging.root.frame.number v = some leaf ∨ leaf.frame ∉ reserved

omit [FrameAllocator F] in
theorem Vm.Gains.trans {s'' : Vm F} (h : s.Gains reserved s') (h' : s'.Gains reserved s'') :
    s.Gains reserved s'' := by
  refine ⟨h'.root.trans h.root, fun v leaf hv => ?_⟩
  have hpages := h'.pages v leaf
  rw [h.root] at hpages
  rcases hpages hv with hold | hnew
  · exact h.pages v leaf hold
  · exact .inr hnew

theorem Vm.Isolated.gains_store (h : s.Isolated S reserved) {granted : Leaf → Bool}
    (hcode : MayStore granted va) (byte : UInt8) :
    Sat (Vm.store granted va byte) s fun _ s' => s.Gains reserved s' := by
  cases hphysical : physical s.machine granted va with
  | none =>
    have hrun : Fails (Vm.store granted va byte) s () s := by rw [Fails, store_eq, hphysical]
    exact hrun.sat ⟨rfl, fun _ _ hv => .inl hv⟩
  | some pa =>
    have hrun : Returns (Vm.store granted va byte) s ()
        { s with machine := s.machine.store pa [byte] } := by
      rw [Returns, store_eq, hphysical]
    obtain ⟨-, -, -, -, hentries⟩ := h.stored hcode hrun
    exact hrun.sat ⟨rfl, fun _ _ hv => .inl (walk_eq_of_tables hentries ▸ hv)⟩

theorem Vm.Isolated.gains_step (h : s.Isolated S reserved) {c : Exec (Vm F) Unit Unit}
    (hc : SystemStep s c) : Sat c s fun _ s' => s.Gains reserved s' := by
  cases hc with
  | call call hallowed =>
    exact (h.spares_run hallowed).mono fun r s' hs => ⟨hs.root, hs.space.pages⟩
  | userStore va byte => exact h.gains_store (.inl rfl) byte
  | kernelStore va byte hcontrol => exact h.gains_store (.inr ⟨rfl, hcontrol⟩) byte

theorem Vm.Isolated.gains_run (h : s.Isolated S reserved) (hrun : Run SystemStep s s') :
    s.Gains reserved s' := by
  refine (hrun.induct (P := fun s' => s'.Isolated S reserved ∧ s.Gains reserved s')
    ⟨h, rfl, fun _ _ hv => .inl hv⟩ ?_).2
  rintro s₁ c ⟨hisolated, hgains⟩ hc
  refine ((hisolated.sat_step hc).and (hisolated.gains_step hc)).mono ?_
  rintro r s₂ ⟨⟨hisolated', -⟩, hgains'⟩
  exact ⟨hisolated', hgains.trans hgains'⟩

/-- **A page that a run has added** lies on a frame that is neither reserved nor a table. -/
theorem Vm.Isolated.added (h : s.Isolated S reserved) (hrun : Run SystemStep s s')
    (hnone : s.machine.translate va = none) (hva : s'.machine.translate va = some (pa, leaf)) :
    s'.Holds reserved va (s'.machine.memory pa) := by
  obtain ⟨h', -⟩ := h.run hrun
  have hgains := h.gains_run hrun
  obtain ⟨hcanonical, hwalk⟩ := h'.walk_eq hva
  -- the page was not there at the start
  have hfresh : ∀ leaf', walk s.machine.entries s.paging.root.frame.number (vpn va) ≠ some leaf' := by
    intro leaf' hw
    have htranslate : s.machine.translate va = _ :=
      (h.sound.translate_eq va).trans (translate_of_walk hcanonical hw)
    rw [hnone] at htranslate
    cases htranslate
  refine ⟨pa, leaf, hva, ?_, fun hmem => ?_, rfl⟩
  · rcases hgains.pages _ _ (hgains.root ▸ hwalk) with hold | hnew
    · exact absurd hold (hfresh leaf)
    · exact hnew
  · have hvpn := h'.pages.tables _ _ hwalk hmem
    have hcontrol := h.sound.fixmap.control
    rw [h.sound.fixmap.root, ← hvpn] at hcontrol
    exact hfresh _ hcontrol

/-- A byte on a page that has been added is the last one stored at its address. -/
theorem Vm.Isolated.remembers {start : Vm F} (h : start.Isolated S reserved)
    (hrun : Run SystemStep start s) {log : List (ℕ × UInt8)} (hlogged : Logged VmStep s log s')
    (hnone : start.machine.translate va = none) (hva : s.machine.translate va = some (pa, leaf)) :
    s'.machine.translate va = some (pa, leaf) ∧
      s'.machine.memory pa = replay log va (s.machine.memory pa) := by
  obtain ⟨hs, -⟩ := h.run hrun
  obtain ⟨-, pa', leaf', hva', -, -, hbyte⟩ := hlogged.holds hs
    (fun hI hstep => hstep.holds hI) (h.added hrun hnone hva)
  obtain ⟨hs', hconfined⟩ := hs.run (run_of_logged hlogged)
  have hkept := hconfined.translate hs hs' hva
  obtain ⟨rfl, rfl⟩ := Prod.mk.inj (Option.some.inj (hva'.symm.trans hkept))
  exact ⟨hkept, hbyte⟩

end Holds

/-- **Memory remembers.** The kernel's address space is built, with sections and devicetree window in the
upper half and on frames that the allocator never hands out, and the system runs for a while. Whatever
has been mapped since at an address, be it a page of a user process or of the heap, holds from there on
the byte that was stored last through that address, whichever calls and stores come between; stores to
the page that controls the kernel's window are not among them. -/
theorem memory_remembers (S : Supply F) (bootstrap : BootstrapPaging)
    (kernelPhysicalStart : PhysAddr) (sections : KernelSections) (dtbVirtual : VirtAddr)
    (dtbPhysical : PhysRange) (s : Machine × F) (owned : List AllocatedFrame)
    (hboot : bootstrap.Identity s.1) (hvalid : S.Valid s.2)
    (hfresh : ∀ t ∈ S.pool s.2, t ∉ tables s.1.entries s.1.root)
    (hhigh : UpperHalf sections dtbVirtual)
    (hreserved : ∀ n ∈ reservedFrames kernelPhysicalStart sections dtbPhysical, n ∉ S.pool s.2)
    (howned : Tokens S (reservedFrames kernelPhysicalStart sections dtbPhysical) s.2 owned) :
    Sat (bootstrap.intoKernel kernelPhysicalStart sections dtbVirtual dtbPhysical) s fun r s' =>
      ∀ paging, r = .ok paging → ∀ vm, Run SystemStep ⟨paging, s'.1, s'.2, owned⟩ vm →
        ∀ va pa leaf, s'.1.translate va = none → vm.machine.translate va = some (pa, leaf) →
          ∀ log vm', Logged VmStep vm log vm' →
            vm'.machine.translate va = some (pa, leaf) ∧
              vm'.machine.memory pa = replay log va (vm.machine.memory pa) := by
  refine (sat_intoKernel hboot hvalid hfresh).mono fun r s' hr paging heq vm hrun va pa leaf hnone hva
    log vm' hlogged => ?_
  obtain ⟨dtbFrame, hbuilt⟩ := hr paging heq
  have hstart : Vm.Isolated S (reservedFrames kernelPhysicalStart sections dtbPhysical)
      ⟨paging, s'.1, s'.2, owned⟩ := hbuilt.isolated hhigh hreserved howned
  exact hstart.remembers hrun hlogged hnone hva

/-- A page of user memory. -/
def sampleUserPage : Page := ⟨⟨0x34000, by decide⟩, [1, 2, 3], .readWrite⟩

/-- The sample kernel maps a page for user mode, which remembers what is stored in it. -/
theorem memory_remembers_sample : Succeeds (sampleBootstrap.intoKernel ⟨0x200000, by decide⟩
    sampleSections sampleDtbVirtual sampleDtbRange) (sampleBootMachine, sampleStock) fun paging s' =>
      ∃ vm pa leaf, Run SystemStep ⟨paging, s'.1, s'.2, []⟩ vm ∧
        vm.machine.translate 0x34001 = some (pa, leaf) ∧ vm.machine.memory pa = 2 ∧
          ∀ log vm', Logged VmStep vm log vm' → vm'.machine.memory pa = replay log 0x34001 2 := by
  refine (succeeds_intoKernel_sample.and (memory_remembers listSupply sampleBootstrap
    ⟨0x200000, by decide⟩ sampleSections sampleDtbVirtual sampleDtbRange
    (sampleBootMachine, sampleStock) [] identity_sample valid_sampleStock
    (fun _ => fresh_sampleStock) sampleUpperHalf (fun _ => reserved_sampleStock) (.nil ..))).mono
    fun paging s' h => ?_
  obtain ⟨⟨hstock, dtbFrame, hbuilt⟩, hall⟩ := h
  have hload : sampleUserPage.Loadable := ⟨by decide, by decide, by decide, by decide⟩
  have hlow : s'.1.translate 0x34001 = none := hbuilt.low sampleUpperHalf (by decide)
  have hnone : walk s'.1.entries paging.root.frame.number
      (vpn sampleUserPage.address.asUsize) = none := by
    have hempty := hbuilt.low sampleUpperHalf (by decide : 0x34000 < sv39LowHalfEnd)
    rw [hbuilt.translate_eq, Sv39.translate, if_pos (by decide)] at hempty
    exact Option.map_eq_none_iff.mp hempty
  obtain ⟨u, t, hmap, -, hmapped⟩ := (succeeds_imageMapPage hbuilt.sound hbuilt.clean hload hnone
    (hstock.mono (by decide : 0 + 3 ≤ 48))).and (sat_imageMapPage hbuilt.sound hbuilt.clean hload
      hnone)
  have hheld := (hmapped.ok rfl).1 _ (List.mem_singleton_self _)
  have hpage : 0x34001 / frameSize = sampleUserPage.address.asUsize / frameSize := by decide
  obtain ⟨n, hva, hbyte⟩ := hheld.translate hmapped.sound hload hpage
  have hcall : Call.run (.imageMapPage sampleUserPage.address sampleUserPage.bytes
      sampleUserPage.permissions) ⟨paging, s'.1, s'.2, []⟩ = .ok (.ok (), ⟨paging, t.1, t.2, []⟩) :=
    onSpace_eq (v := ⟨paging, s'.1, s'.2, []⟩) hmap
  have hrun : Run SystemStep ⟨paging, s'.1, s'.2, []⟩ ⟨paging, t.1, t.2, []⟩ :=
    Run.start.next (.call (.imageMapPage _ _ _) trivial) hcall
  have hmemory : t.1.memory (n * frameSize + 0x34001 % frameSize) = 2 := by
    rw [userRead, hva] at hbyte
    exact Option.some.inj hbyte
  refine ⟨_, _, _, hrun, hva, hmemory, fun log vm' hlogged => ?_⟩
  rw [← hmemory]
  exact (hall paging rfl _ hrun _ _ _ hlow hva log vm' hlogged).2

end Barebone.Kernel

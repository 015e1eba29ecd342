import BareboneKernel.Lib.Exec
import BareboneKernel.Lib.Word

/-!
# Addresses, ranges and frames

Physical and virtual addresses are words, kept apart by the address space in which they are
interpreted. Ranges are nonempty and half-open; a frame starts at a multiple of its size and ends
inside the address space.

* `Addr`, `AddrRange`: an address and a range of one address space;
* `PhysFrame`: one physical frame; `AllocatedFrame`: its ownership;
* `alignUp`, `alignDown`: rounding to frame boundaries.
-/

set_option autoImplicit false

namespace Barebone.Kernel

open Exec Word

variable {σ ε : Type}

/-- The address space in which an address is interpreted. -/
inductive Space where
  | physical
  | virtual

/-- An address, a word. -/
structure Addr (space : Space) where
  asUsize : ℕ
  isWord : asUsize ≤ wordMax
  deriving DecidableEq

abbrev PhysAddr := Addr .physical

abbrev VirtAddr := Addr .virtual

variable {space : Space}

theorem Addr.eq_iff {a b : Addr space} : a = b ↔ a.asUsize = b.asUsize := by
  cases a
  cases b
  simp

def Addr.checkedAdd (address : Addr space) (bytes : ℕ) : Option (Addr space) :=
  if h : address.asUsize + bytes ≤ wordMax then some ⟨address.asUsize + bytes, h⟩ else none

theorem Addr.checkedAdd_eq_some {a b : Addr space} {bytes : ℕ} :
    a.checkedAdd bytes = some b ↔ b.asUsize = a.asUsize + bytes := by
  unfold Addr.checkedAdd
  split
  · rw [Option.some.injEq, Addr.eq_iff, eq_comm]
  · have := b.isWord
    simp only [reduceCtorEq, false_iff]
    omega

def Addr.checkedSub (address : Addr space) (bytes : ℕ) : Option (Addr space) :=
  if bytes ≤ address.asUsize then
    some ⟨address.asUsize - bytes, (Nat.sub_le _ _).trans address.isWord⟩
  else none

theorem Addr.checkedSub_eq_some {a b : Addr space} {bytes : ℕ} :
    a.checkedSub bytes = some b ↔ b.asUsize + bytes = a.asUsize := by
  unfold Addr.checkedSub
  split
  · rw [Option.some.injEq, Addr.eq_iff]
    dsimp only
    omega
  · simp only [reduceCtorEq, false_iff]
    omega

theorem Addr.exists_checkedSub {a : Addr space} {bytes : ℕ} (h : bytes ≤ a.asUsize) :
    ∃ b, a.checkedSub bytes = some b ∧ b.asUsize + bytes = a.asUsize :=
  ⟨_, if_pos h, Nat.sub_add_cancel h⟩

/-- `address & !mask` -/
def Addr.clear (address : Addr space) (mask : ℕ) : Addr space :=
  ⟨address.asUsize &&& complement mask, Nat.and_le_left.trans address.isWord⟩

/-- Read, write and execute access through a page mapping. -/
inductive PagePermissions where
  | readOnly
  | readWrite
  | readExecute
  deriving DecidableEq

/-- A nonempty half-open range `[start, stop)` of addresses. -/
structure AddrRange (space : Space) where
  start : Addr space
  stop : Addr space
  lt : start.asUsize < stop.asUsize
  deriving DecidableEq

abbrev PhysRange := AddrRange .physical

abbrev VirtRange := AddrRange .virtual

namespace AddrRange

def new (start stop : Addr space) : Option (AddrRange space) :=
  if h : start.asUsize < stop.asUsize then some ⟨start, stop, h⟩ else none

def fromStartSize (start : Addr space) (size : ℕ) : Option (AddrRange space) :=
  if size = 0 then none
  else
    match start.checkedAdd size with
    | none => none
    | some stop => new start stop

/-- Ranges that only meet at an endpoint do not overlap. -/
def overlaps (range other : AddrRange space) : Bool :=
  range.start.asUsize < other.stop.asUsize && other.start.asUsize < range.stop.asUsize

theorem overlaps_iff {range other : AddrRange space} : range.overlaps other = true ↔
    range.start.asUsize < other.stop.asUsize ∧ other.start.asUsize < range.stop.asUsize := by
  simp [overlaps]

theorem fromStartSize_eq_some {start : Addr space} {size : ℕ} {range : AddrRange space} :
    fromStartSize start size = some range ↔
      0 < size ∧ range.start = start ∧ range.stop.asUsize = start.asUsize + size := by
  unfold fromStartSize
  split
  · simp; omega
  · have hpos : 0 < size := by omega
    cases hc : start.checkedAdd size with
    | none =>
      simp only [reduceCtorEq, false_iff, not_and]
      intro _ hstart hstop
      rw [Addr.checkedAdd_eq_some.mpr hstop] at hc
      cases hc
    | some stop =>
      have hstop := Addr.checkedAdd_eq_some.mp hc
      have hlt : start.asUsize < stop.asUsize := by omega
      simp only [new, hlt, dite_true, Option.some.injEq, hpos, true_and]
      constructor
      · rintro rfl
        exact ⟨rfl, hstop⟩
      · rintro ⟨rfl, h⟩
        have : stop = range.stop := Addr.eq_iff.mpr (hstop.trans h.symm)
        cases range
        simp [this]

end AddrRange

/-- The size of a frame in bytes. -/
def frameSize : ℕ := 4096

/-- A frame-aligned physical address at which a whole frame fits. -/
structure PhysFrame where
  start : PhysAddr
  aligned : start.asUsize % frameSize = 0
  fits : start.asUsize + frameSize ≤ wordMax
  deriving DecidableEq

namespace PhysFrame

def fromStart (start : PhysAddr) : Option PhysFrame :=
  if h : start.asUsize % frameSize = 0 ∧ start.asUsize + frameSize ≤ wordMax then
    some ⟨start, h.1, h.2⟩
  else none

def startAddress (frame : PhysFrame) : PhysAddr := frame.start

def range (frame : PhysFrame) : Exec σ ε PhysRange :=
  expectSome "PhysFrame guarantees a representable non-empty physical range"
    (AddrRange.fromStartSize frame.start frameSize)

end PhysFrame

/-- An exclusively allocated frame. -/
structure AllocatedFrame where
  frame : PhysFrame
  deriving DecidableEq

def AllocatedFrame.startAddress (allocated : AllocatedFrame) : PhysAddr := allocated.frame.start

/-- Rounds up to a frame boundary, when that is still an address. -/
def alignUp (address : PhysAddr) : Option PhysAddr :=
  if address.asUsize % frameSize = 0 then some address
  else address.checkedAdd (frameSize - address.asUsize % frameSize)

/-- Rounds down to a frame boundary. -/
def alignDown (address : PhysAddr) : PhysAddr :=
  ⟨address.asUsize - address.asUsize % frameSize, (Nat.sub_le _ _).trans address.isWord⟩

/-- The result is the smallest multiple of the frame size from the address on. -/
theorem alignUp_eq_some {a b : PhysAddr} (h : alignUp a = some b) :
    b.asUsize % frameSize = 0 ∧ a.asUsize ≤ b.asUsize ∧ b.asUsize < a.asUsize + frameSize := by
  unfold alignUp at h
  split at h
  · obtain rfl := Option.some.inj h
    unfold frameSize at *
    omega
  · have := Addr.checkedAdd_eq_some.mp h
    unfold frameSize at *
    omega

/-- There is no result when no frame fits behind the address. -/
theorem lt_of_alignUp_eq_none {a : PhysAddr} (h : alignUp a = none) :
    wordMax < a.asUsize + (frameSize - a.asUsize % frameSize) := by
  unfold alignUp at h
  split at h
  · cases h
  · unfold Addr.checkedAdd at h
    split at h
    · cases h
    · omega

end Barebone.Kernel

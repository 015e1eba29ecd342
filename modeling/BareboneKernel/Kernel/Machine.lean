import BareboneKernel.Kernel.Memory
import BareboneKernel.Lib.Sv39
import Mathlib.Data.List.GetD

/-!
# The machine

Physical memory is a function from addresses to bytes. The processor reads and writes it through the
Sv39 translation that `satp` selects; an access without a translation that grants it is a fault. The
machine has no translation cache, so fences do nothing.

* `loadBytes`, `storeBytes`: a string of bytes in memory; `readWord`, `writeWord`: a word;
* `Machine.entries`: memory as page tables;
* `readVolatile`, `writeVolatile`, `writeBytes`: accesses by supervisor code;
* **`entries_writeWord`**, **`entries_zero`**: these accesses as changes of the tables.
-/

set_option autoImplicit false

namespace Barebone.Kernel

open Exec Word Endian Sv39

variable {ε : Type}

/-! ## Bytes and words -/

/-- The `n` bytes from an address on. -/
def loadBytes (memory : ℕ → UInt8) (address n : ℕ) : List UInt8 :=
  (List.range n).map fun k => memory (address + k)

/-- Memory with a string written to an address. -/
def storeBytes (memory : ℕ → UInt8) (address : ℕ) (bytes : List UInt8) : ℕ → UInt8 := fun x =>
  if address ≤ x then bytes.getD (x - address) (memory x) else memory x

def readWord (memory : ℕ → UInt8) (address : ℕ) : ℕ := fromLE (loadBytes memory address 8)

def writeWord (memory : ℕ → UInt8) (address value : ℕ) : ℕ → UInt8 :=
  storeBytes memory address (toLE 8 value)

section Bytes

variable {memory : ℕ → UInt8} {address n x : ℕ} {bytes : List UInt8}

theorem storeBytes_of_lt (h : x < address) : storeBytes memory address bytes x = memory x :=
  if_neg (by omega)

theorem storeBytes_of_le (h : address + bytes.length ≤ x) :
    storeBytes memory address bytes x = memory x := by
  rw [storeBytes, if_pos (by omega), List.getD_eq_default _ _ (by omega)]

theorem storeBytes_add {k : ℕ} (h : k < bytes.length) :
    storeBytes memory address bytes (address + k) = bytes.get ⟨k, h⟩ := by
  rw [storeBytes, if_pos (by omega), Nat.add_sub_cancel_left, List.getD_eq_getElem _ _ h]
  rfl

theorem loadBytes_storeBytes :
    loadBytes (storeBytes memory address bytes) address bytes.length = bytes := by
  refine List.ext_getElem (by simp [loadBytes]) fun k h₁ h₂ => ?_
  simp only [loadBytes, List.getElem_map, List.getElem_range]
  exact storeBytes_add h₂

theorem loadBytes_congr {memory' : ℕ → UInt8}
    (h : ∀ k < n, memory' (address + k) = memory (address + k)) :
    loadBytes memory' address n = loadBytes memory address n :=
  List.map_congr_left fun k hk => h k (List.mem_range.mp hk)

@[simp] theorem length_loadBytes : (loadBytes memory address n).length = n := by simp [loadBytes]

theorem loadBytes_add (k : ℕ) : loadBytes memory address (n + k) =
    loadBytes memory address n ++ loadBytes memory (address + n) k := by
  rw [loadBytes, List.range_add, List.map_append, List.map_map]
  congr 1
  apply List.map_congr_left
  intro i _
  rw [Function.comp_apply, Nat.add_assoc]

theorem getElem_loadBytes {k : ℕ} (h : k < (loadBytes memory address n).length) :
    (loadBytes memory address n).get ⟨k, h⟩ = memory (address + k) := by
  simp [loadBytes]

theorem toLE_readWord : toLE 8 (readWord memory address) = loadBytes memory address 8 := by
  have h := toLE_fromLE (loadBytes memory address 8)
  rwa [length_loadBytes] at h

theorem readWord_writeWord {value : ℕ} (h : value ≤ wordMax) :
    readWord (writeWord memory address value) address = value := by
  have hload : loadBytes (storeBytes memory address (toLE 8 value)) address (toLE 8 value).length =
      toLE 8 value := loadBytes_storeBytes
  rw [length_toLE] at hload
  rw [readWord, writeWord, hload]
  exact fromLE_toLE (h.trans_lt (by decide))

theorem readWord_writeWord_of_ne {a b value : ℕ} (h : a + 8 ≤ b ∨ b + 8 ≤ a) :
    readWord (writeWord memory a value) b = readWord memory b := by
  refine congrArg fromLE (loadBytes_congr fun k hk => ?_)
  rcases h with h | h
  · exact storeBytes_of_le (by rw [length_toLE]; omega)
  · exact storeBytes_of_lt (by omega)

end Bytes

/-! ## Page tables in memory -/

structure Machine where
  memory : ℕ → UInt8
  satp : ℕ

namespace Machine

/-- Memory as page tables. -/
def entries (m : Machine) : Entries := fun t i => readWord m.memory (t * frameSize + 8 * i)

/-- A change of memory. -/
def store (m : Machine) (address : ℕ) (bytes : List UInt8) : Machine :=
  { m with memory := storeBytes m.memory address bytes }

/-- A change of one entry of a table. -/
def setEntry (m : Machine) (t : ℕ) (i : Fin 512) (value : ℕ) : Machine :=
  m.store (t * frameSize + 8 * i) (toLE 8 value)

/-- A frame filled with zeros. -/
def zero (m : Machine) (t : ℕ) : Machine := m.store (t * frameSize) (List.replicate frameSize 0)

@[simp] theorem store_satp (m : Machine) (address : ℕ) (bytes : List UInt8) :
    (m.store address bytes).satp = m.satp := rfl

@[simp] theorem setEntry_satp (m : Machine) (t : ℕ) (i : Fin 512) (value : ℕ) :
    (m.setEntry t i value).satp = m.satp := rfl

@[simp] theorem zero_satp (m : Machine) (t : ℕ) : (m.zero t).satp = m.satp := rfl

theorem store_nil (m : Machine) (address : ℕ) : m.store address [] = m := by
  unfold store
  congr
  funext x
  by_cases hlt : x < address
  · exact storeBytes_of_lt hlt
  · exact storeBytes_of_le (by rw [List.length_nil]; omega)

end Machine

/-- The two memories agree on frame `t`. -/
def SameFrame (memory memory' : ℕ → UInt8) (t : ℕ) : Prop :=
  ∀ x, x / frameSize = t → memory' x = memory x

theorem SameFrame.trans {memory memory' memory'' : ℕ → UInt8} {t : ℕ}
    (h : SameFrame memory memory' t) (h' : SameFrame memory' memory'' t) :
    SameFrame memory memory'' t := fun x hx => (h' x hx).trans (h x hx)

/-- A string inside one frame changes no other frame. -/
theorem sameFrame_store {memory : ℕ → UInt8} {t t' address : ℕ} {bytes : List UInt8}
    (hstart : t * frameSize ≤ address) (hfit : address + bytes.length ≤ (t + 1) * frameSize)
    (hne : t' ≠ t) : SameFrame memory (storeBytes memory address bytes) t' := by
  intro x hx
  by_cases hlt : x < address
  · exact storeBytes_of_lt hlt
  · refine storeBytes_of_le ?_
    unfold frameSize at *
    omega

theorem SameFrame.entries {m m' : Machine} {t : ℕ} (h : SameFrame m.memory m'.memory t) :
    m'.entries t = m.entries t := by
  funext i
  refine congrArg fromLE (loadBytes_congr fun k hk => h _ ?_)
  have := i.isLt
  unfold frameSize
  omega

/-- **Writing a word** of a frame writes one entry. -/
theorem Machine.entries_setEntry (m : Machine) (t : ℕ) (i : Fin 512) {value : ℕ}
    (h : value ≤ wordMax) : (m.setEntry t i value).entries = Sv39.setEntry m.entries t i value := by
  funext t' j
  by_cases heq : t' = t ∧ j = i
  · obtain ⟨rfl, rfl⟩ := heq
    rw [Sv39.setEntry_self]
    exact readWord_writeWord h
  · rw [Sv39.setEntry, if_neg heq]
    refine readWord_writeWord_of_ne ?_
    have h₁ := i.isLt
    have h₂ := j.isLt
    have h₃ : t' = t → (j : ℕ) ≠ i := fun h hj => heq ⟨h, Fin.ext hj⟩
    unfold frameSize
    omega

/-- **Zeroing a frame** clears all its entries. -/
theorem Machine.entries_zero (m : Machine) (t : ℕ) : (m.zero t).entries = Sv39.clear m.entries t := by
  have hlen : (List.replicate frameSize (0 : UInt8)).length = frameSize := List.length_replicate
  funext t' j
  by_cases heq : t' = t
  · subst heq
    have hj := j.isLt
    have hload : loadBytes (m.zero t').memory (t' * frameSize + 8 * j) 8 = List.replicate 8 0 := by
      refine List.ext_getElem (by simp [loadBytes]) fun k h₁ h₂ => ?_
      simp only [loadBytes, List.getElem_map, List.getElem_range, List.getElem_replicate]
      have hk : k < 8 := by simpa [loadBytes] using h₁
      have hlt : 8 * (j : ℕ) + k < (List.replicate frameSize (0 : UInt8)).length := by
        rw [hlen]
        unfold frameSize
        omega
      rw [Nat.add_assoc]
      exact (storeBytes_add hlt).trans (by simp)
    rw [Sv39.clear, if_pos rfl, Machine.entries, readWord, hload]
    decide
  · have hsame : SameFrame m.memory (m.zero t).memory t' :=
      sameFrame_store le_rfl (by rw [hlen, Nat.succ_mul]) heq
    rw [Sv39.clear_of_ne heq, hsame.entries]

/-- **Restoring** an entry that was empty leaves only what was stored elsewhere. -/
theorem Machine.setEntry_restore {m : Machine} {t a value : ℕ} {i : Fin 512} {bytes : List UInt8}
    (hempty : m.entries t i = 0)
    (hapart : a + bytes.length ≤ t * frameSize + 8 * i ∨ t * frameSize + 8 * i + 8 ≤ a) :
    ((m.setEntry t i value).store a bytes).setEntry t i 0 = m.store a bytes := by
  have hload : toLE 8 0 = loadBytes m.memory (t * frameSize + 8 * i) 8 := by
    rw [← toLE_readWord]
    exact congrArg (toLE 8) hempty.symm
  have hlen : (toLE 8 0).length = 8 := length_toLE 8 0
  have hlen' : (toLE 8 value).length = 8 := length_toLE 8 value
  unfold Machine.store Machine.setEntry Machine.store
  congr 1
  funext x
  dsimp only
  by_cases hlt : x < t * frameSize + 8 * i
  · rw [storeBytes_of_lt hlt]
    unfold storeBytes
    rw [if_neg (show ¬t * frameSize + 8 * (i : ℕ) ≤ x by omega)]
  · by_cases hge : t * frameSize + 8 * i + 8 ≤ x
    · rw [storeBytes_of_le (by omega)]
      unfold storeBytes
      have hout : x - (t * frameSize + 8 * (i : ℕ)) ≥ (toLE 8 value).length := by omega
      rw [List.getD_eq_default (toLE 8 value) _ hout, ite_self]
    · obtain ⟨k, rfl⟩ : ∃ k, x = t * frameSize + 8 * i + k :=
        ⟨x - (t * frameSize + 8 * i), by omega⟩
      have hold : storeBytes m.memory a bytes (t * frameSize + 8 * i + k) =
          m.memory (t * frameSize + 8 * i + k) := by
        rcases hapart with h | h
        · exact storeBytes_of_le (by omega)
        · exact storeBytes_of_lt (by omega)
      rw [hold, storeBytes_add (by omega), List.get_of_eq hload]
      exact getElem_loadBytes _

/-! ## Accesses -/

/-- The root of the active tables. -/
def Machine.root (m : Machine) : ℕ := m.satp % 2 ^ 44

/-- The mode in `satp` selects the Sv39 translation. -/
def Machine.translate (m : Machine) (va : ℕ) : Option (ℕ × Leaf) :=
  if m.satp / 2 ^ 60 = 8 then Sv39.translate m.entries m.root va else none

/-- Supervisor code may read through the leaf. -/
def readable (leaf : Leaf) : Bool := leaf.read && leaf.accessed && !leaf.user

/-- Supervisor code may write through the leaf. -/
def writable (leaf : Leaf) : Bool := leaf.write && leaf.accessed && leaf.dirty && !leaf.user

/-- The physical address behind a virtual one, when the access is granted. -/
def physical (m : Machine) (granted : Leaf → Bool) (va : ℕ) : Option ℕ :=
  match m.translate va with
  | some (pa, leaf) => if granted leaf then some pa else none
  | none => none

/-- The page at `va` gives supervisor code all of frame `t`. -/
def Accessible (m : Machine) (va t : ℕ) : Prop :=
  va % frameSize = 0 ∧ ∀ k < frameSize,
    physical m readable (va + k) = some (t * frameSize + k) ∧
    physical m writable (va + k) = some (t * frameSize + k)

theorem accessible_of_walk {m : Machine} {va : ℕ} {leaf : Leaf} (hmode : m.satp / 2 ^ 60 = 8)
    (hcanonical : Canonical va) (halign : va % frameSize = 0)
    (hw : walk m.entries m.root (vpn va) = some leaf)
    (hread : readable leaf = true) (hwrite : writable leaf = true) :
    Accessible m va leaf.frame := by
  refine ⟨halign, fun k hk => ?_⟩
  have hk' : (va + k) % 2 ^ 12 = k := by
    unfold frameSize at *
    omega
  have htranslate : m.translate (va + k) = some (leaf.frame * frameSize + k, leaf) := by
    have hw' : walk m.entries m.root (vpn (va + k)) = some leaf := by rw [vpn_add halign hk, hw]
    rw [Machine.translate, if_pos hmode, translate_of_walk (hcanonical.add halign hk) hw', hk']
    rfl
  simp only [physical, htranslate, hread, hwrite, if_true, and_self]

/-- `ptr::read_volatile` of a word. -/
def readVolatile (pointer : ℕ) : Exec Machine ε ℕ := fun m =>
  if pointer % 8 = 0 then
    match physical m readable pointer with
    | some pa => .ok (.ok (readWord m.memory pa), m)
    | none => .error (.faulted pointer)
  else .error (.faulted pointer)

/-- `ptr::write_volatile` of a word. -/
def writeVolatile (pointer value : ℕ) : Exec Machine ε Unit := fun m =>
  if pointer % 8 = 0 then
    match physical m writable pointer with
    | some pa => .ok (.ok (), m.store pa (toLE 8 value))
    | none => .error (.faulted pointer)
  else .error (.faulted pointer)

/-- A store of one byte. -/
def writeByte (pointer : ℕ) (byte : UInt8) : Exec Machine ε Unit := fun m =>
  match physical m writable pointer with
  | some pa => .ok (.ok (), m.store pa [byte])
  | none => .error (.faulted pointer)

/-- Stores of consecutive bytes, `ptr::write_bytes` and `ptr::copy_nonoverlapping`. -/
def writeBytes : ℕ → List UInt8 → Exec Machine ε Unit
  | _, [] => pure ()
  | pointer, byte :: bytes => do
    writeByte pointer byte
    writeBytes (pointer + 1) bytes

section Page

variable {m : Machine} {va t : ℕ}

theorem Accessible.aligned (h : Accessible m va t) (i : ℕ) : (va + 8 * i) % 8 = 0 := by
  have := h.1
  unfold frameSize at this
  omega

theorem index_lt_frameSize (i : Fin 512) : 8 * (i : ℕ) < frameSize := by
  have := i.isLt
  unfold frameSize
  omega

theorem Accessible.returns_readVolatile (h : Accessible m va t) (i : Fin 512) :
    Returns (readVolatile (va + 8 * i) : Exec Machine ε ℕ) m (m.entries t i) m := by
  simp only [Returns, readVolatile, h.aligned, if_true, (h.2 _ (index_lt_frameSize i)).1]
  rfl

theorem Accessible.returns_writeVolatile (h : Accessible m va t) (i : Fin 512) (value : ℕ) :
    Returns (writeVolatile (va + 8 * i) value : Exec Machine ε Unit) m () (m.setEntry t i value) := by
  simp only [Returns, writeVolatile, h.aligned, if_true, (h.2 _ (index_lt_frameSize i)).2]
  rfl

end Page

theorem storeBytes_append (memory : ℕ → UInt8) (address : ℕ) (bytes bytes' : List UInt8) :
    storeBytes (storeBytes memory address bytes) (address + bytes.length) bytes' =
      storeBytes memory address (bytes ++ bytes') := by
  funext x
  by_cases hlt : x < address
  · rw [storeBytes_of_lt (by omega), storeBytes_of_lt hlt, storeBytes_of_lt hlt]
  · obtain ⟨k, rfl⟩ : ∃ k, x = address + k := ⟨x - address, by omega⟩
    have hsub : address + k - (address + bytes.length) = k - bytes.length := by omega
    simp only [storeBytes, Nat.le_add_right, if_true, Nat.add_sub_cancel_left, hsub]
    by_cases hk : k < bytes.length
    · rw [if_neg (by omega), List.getD_append _ _ _ _ hk]
    · have hdefault : bytes.getD k (memory (address + k)) = memory (address + k) :=
        List.getD_eq_default _ _ (by omega)
      rw [if_pos (by omega), List.getD_append_right _ _ _ _ (by omega), hdefault]

/-- **A string written through a page** whose translation does not depend on it. -/
theorem returns_writeBytes {m : Machine} {pointer pa : ℕ} {bytes : List UInt8}
    (h : ∀ written : List UInt8, written.length < bytes.length →
      physical (m.store pa written) writable (pointer + written.length) =
        some (pa + written.length)) :
    Returns (writeBytes pointer bytes : Exec Machine ε Unit) m () (m.store pa bytes) := by
  have hgo : ∀ (rest written : List UInt8), written ++ rest = bytes →
      Returns (writeBytes (pointer + written.length) rest : Exec Machine ε Unit)
        (m.store pa written) () (m.store pa bytes) := by
    intro rest
    induction rest with
    | nil =>
      rintro written rfl
      rw [List.append_nil]
      exact returns_pure.mpr ⟨rfl, rfl⟩
    | cons byte rest ih =>
      intro written heq
      have hlen : written.length < bytes.length := by
        rw [← heq, List.length_append, List.length_cons]
        omega
      have hbyte : Returns (writeByte (pointer + written.length) byte : Exec Machine ε Unit)
          (m.store pa written) () (m.store pa (written ++ [byte])) := by
        unfold Returns writeByte
        rw [h written hlen]
        simp only [Machine.store, storeBytes_append]
      refine returns_bind.mpr ⟨(), _, hbyte, ?_⟩
      have := ih (written ++ [byte]) (by rw [List.append_assoc, List.singleton_append]; exact heq)
      rwa [List.length_append, List.length_singleton, ← Nat.add_assoc] at this
  have := hgo bytes [] rfl
  rwa [m.store_nil] at this

end Barebone.Kernel

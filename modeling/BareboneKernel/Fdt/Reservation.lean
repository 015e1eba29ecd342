import BareboneKernel.Fdt.Reader
import BareboneKernel.Lib.Iter
import BareboneKernel.Lib.Word

/-!
# The memory reservation block

`Reservations::new` reads address and size pairs up to the pair `(0, 0)`, checks each range and
compares them pairwise.

* `Entries es bs`: the bytes `bs` encode the pairs `es`, none of them `(0, 0)`;
* **`MemoryReservations.yields`**: over such bytes and a terminator the iterator yields exactly
  those pairs;
* **`returns_reservationsNew`**, **`safe_reservationsNew`**: an accepted block encodes pairs whose
  ends fit `u64`, and construction never panics.
-/

set_option autoImplicit false

namespace Barebone.Devicetree

open Exec Endian Word

variable {σ ε : Type}

inductive ReservationError where
  | read (error : ReadError)
  | rangeEndOverflow (address size : ℕ)
  | overlap (firstAddress firstSize secondAddress secondSize : ℕ)
  deriving DecidableEq

/-- One entry of the block. -/
structure MemoryReservation where
  address : ℕ
  size : ℕ
  deriving DecidableEq

/-- The entries of a reservation block. -/
structure MemoryReservations where
  bytes : List UInt8

/-- `slice::split_first_chunk::<8>` -/
def splitFirstChunk (bytes : List UInt8) : Option (List UInt8 × List UInt8) :=
  if 8 ≤ bytes.length then some (bytes.take 8, bytes.drop 8) else none

def MemoryReservations.next : Exec MemoryReservations ε (Option MemoryReservation) := do
  let it ← get
  match splitFirstChunk it.bytes with
  | none => pure none
  | some (address, remaining) =>
    match splitFirstChunk remaining with
    | none => pure none
    | some (size, remaining) =>
      set ⟨remaining⟩
      if fromBE address = 0 ∧ fromBE size = 0 then do
        set ⟨[]⟩
        pure none
      else pure (some ⟨fromBE address, fromBE size⟩)

/-- A validated reservation block. -/
structure Reservations where
  bytes : List UInt8
  deriving DecidableEq

def reservationEnd (address size : ℕ) : Except ReservationError ℕ :=
  match checkedAdd address size with
  | none => .error (.rangeEndOverflow address size)
  | some stop => .ok stop

namespace Reservations

def iter (reservations : Reservations) : MemoryReservations := ⟨reservations.bytes⟩

/-- Compares one entry with those after it. -/
def compareRound (first : MemoryReservation) (firstEnd : ℕ) (second : MemoryReservation) :
    Exec σ ReservationError Unit :=
  if second.size = 0 then pure ()
  else do
    let secondEnd ← ofExcept (reservationEnd second.address second.size)
    if first.address < secondEnd ∧ second.address < firstEnd then
      fail (.overlap first.address first.size second.address second.size)
    else pure ()

def overlapRound (bound : ℕ) (remaining : MemoryReservations) :
    Exec σ ReservationError (MemoryReservations ⊕ Unit) := do
  match ← advance MemoryReservations.next remaining with
  | (none, _) => pure (.inr ())
  | (some first, remaining) =>
    if first.size = 0 then pure (.inl remaining)
    else do
      let firstEnd ← ofExcept (reservationEnd first.address first.size)
      foldIter MemoryReservations.next (fun _ second => compareRound first firstEnd second) bound
        remaining ()
      pure (.inl remaining)

def validateNoOverlaps (reservations : Reservations) : Exec σ ReservationError Unit :=
  iterate (overlapRound (reservations.bytes.length + 1)) (reservations.bytes.length + 1)
    reservations.iter

/-- One round of the search for the terminator. -/
def terminatorRound : Unit → Exec Reader ReservationError (Unit ⊕ ℕ) := fun _ => do
  let address ← mapError .read Reader.readU64
  let size ← mapError .read Reader.readU64
  if address = 0 ∧ size = 0 then do
    let r ← get
    pure (.inr r.position)
  else do
    let _ ← ofExcept (reservationEnd address size)
    pure (.inl ())

def new (bytes : List UInt8) : Exec σ ReservationError Reservations := do
  let stop ← onLocal (Reader.new bytes) (iterate terminatorRound (bytes.length + 1) ())
  require (stop ≤ bytes.length) "range end index out of range"
  let reservations : Reservations := ⟨bytes.take stop⟩
  reservations.validateNoOverlaps
  pure reservations

end Reservations

/-! ## Encoded entries -/

/-- The encoding of one entry. -/
def MemoryReservation.encode (e : MemoryReservation) : List UInt8 := toBE 8 e.address ++ toBE 8 e.size

/-- An entry that fits its fields, ends inside the address space and is not the terminator. -/
def MemoryReservation.Valid (e : MemoryReservation) : Prop :=
  e.address + e.size ≤ wordMax ∧ ¬(e.address = 0 ∧ e.size = 0)

/-- The encoding of a list of entries. -/
def encodeEntries (es : List MemoryReservation) : List UInt8 := es.flatMap MemoryReservation.encode

@[simp] theorem MemoryReservation.length_encode (e : MemoryReservation) : e.encode.length = 16 := by
  simp [MemoryReservation.encode]

theorem length_encodeEntries (es : List MemoryReservation) :
    (encodeEntries es).length = 16 * es.length := by
  induction es with
  | nil => rfl
  | cons e es ih =>
    simp only [encodeEntries, List.flatMap_cons, List.length_append,
      MemoryReservation.length_encode, List.length_cons] at ih ⊢
    omega

theorem MemoryReservation.Valid.lt {e : MemoryReservation} (h : e.Valid) :
    e.address < 256 ^ 8 ∧ e.size < 256 ^ 8 := by
  have := h.1
  simp only [wordMax] at this
  omega

theorem splitFirstChunk_append {c bs : List UInt8} (hc : c.length = 8) :
    splitFirstChunk (c ++ bs) = some (c, bs) := by
  rw [splitFirstChunk, if_pos (by rw [List.length_append]; omega), ← hc, List.take_left,
    List.drop_left]

theorem MemoryReservations.returns_next_entry {address size : ℕ} {bs : List UInt8}
    (ha : address < 256 ^ 8) (hs : size < 256 ^ 8) (h : ¬(address = 0 ∧ size = 0)) :
    Returns (MemoryReservations.next : Exec _ ε _) ⟨(toBE 8 address ++ toBE 8 size) ++ bs⟩
      (some ⟨address, size⟩) ⟨bs⟩ := by
  rw [MemoryReservations.next, returns_bind]
  refine ⟨_, _, returns_get.mpr ⟨rfl, rfl⟩, ?_⟩
  simp only [List.append_assoc, splitFirstChunk_append (length_toBE 8 _), fromBE_toBE ha,
    fromBE_toBE hs, returns_bind, if_neg h]
  exact ⟨(), ⟨bs⟩, rfl, returns_pure.mpr ⟨rfl, rfl⟩⟩

theorem MemoryReservations.returns_next_stop (bs : List UInt8) :
    Returns (MemoryReservations.next : Exec _ ε _) ⟨(toBE 8 0 ++ toBE 8 0) ++ bs⟩ none ⟨[]⟩ := by
  rw [MemoryReservations.next, returns_bind]
  refine ⟨_, _, returns_get.mpr ⟨rfl, rfl⟩, ?_⟩
  simp only [List.append_assoc, splitFirstChunk_append (length_toBE 8 _),
    fromBE_toBE (n := 8) (v := 0) (by decide), returns_bind, and_self, if_true]
  exact ⟨(), ⟨bs⟩, rfl, (), ⟨[]⟩, rfl, returns_pure.mpr ⟨rfl, rfl⟩⟩

/-- **Entries of the block.** Before a terminator the iterator yields exactly the entries. -/
theorem MemoryReservations.yields {es : List MemoryReservation} (h : ∀ e ∈ es, e.Valid)
    (bs : List UInt8) :
    Yields (MemoryReservations.next : Exec _ ε _) es
      ⟨encodeEntries es ++ ((toBE 8 0 ++ toBE 8 0) ++ bs)⟩ := by
  induction es with
  | nil => exact ⟨⟨[]⟩, returns_next_stop bs, rfl⟩
  | cons e es ih =>
    have he := h e List.mem_cons_self
    refine ⟨_, ?_, ih (fun e' he' => h e' (List.mem_cons_of_mem _ he'))⟩
    rw [encodeEntries, List.flatMap_cons, List.append_assoc]
    exact returns_next_entry he.lt.1 he.lt.2 he.2

/-! ## Construction -/

theorem Reader.returns_readU64 {r r' : Reader} {v : ℕ} :
    Returns Reader.readU64 r v r' ↔ v < 256 ^ 8 ∧ r.Consumes (toBE 8 v) r' := by
  simp only [Reader.readU64, returns_bind, returns_require, returns_pure, Reader.returns_readBytes]
  constructor
  · rintro ⟨bs, r₁, ⟨hl, hc⟩, -, _, ⟨-, rfl⟩, rfl, rfl⟩
    have hv := fromBE_lt bs
    have he := toBE_fromBE bs
    rw [hl] at hv he
    rw [he]
    exact ⟨hv, hc⟩
  · rintro ⟨hv, hc⟩
    exact ⟨_, r', ⟨length_toBE 8 v, hc⟩, (), r', ⟨length_toBE 8 v, rfl⟩, (fromBE_toBE hv).symm, rfl⟩

namespace Reservations

theorem returns_reservationEnd {address size stop : ℕ} {s s' : σ} :
    Returns (ofExcept (reservationEnd address size)) s stop s' ↔
      (address + size ≤ wordMax ∧ stop = address + size) ∧ s' = s := by
  rw [returns_ofExcept]
  refine and_congr_left fun _ => ?_
  unfold reservationEnd
  rw [← checkedAdd_eq_some]
  cases checkedAdd address size <;> simp

theorem returns_terminatorRound {r r' : Reader} {x : Unit ⊕ ℕ} :
    Returns (terminatorRound ()) r x r' ↔
      (x = .inr r'.position ∧ r.Consumes (toBE 8 0 ++ toBE 8 0) r') ∨
        ∃ e : MemoryReservation, e.Valid ∧ x = .inl () ∧ r.Consumes e.encode r' := by
  simp only [terminatorRound, returns_bind, returns_mapError, Reader.returns_readU64,
    MemoryReservation.encode, Reader.consumes_append]
  constructor
  · rintro ⟨address, r₁, ⟨ha, h₁⟩, size, r₂, ⟨hs, h₂⟩, h⟩
    split at h
    · rename_i h0
      obtain ⟨rfl, rfl⟩ := h0
      simp only [returns_bind, returns_get, returns_pure] at h
      obtain ⟨_, _, ⟨rfl, rfl⟩, rfl, rfl⟩ := h
      exact .inl ⟨rfl, r₁, h₁, h₂⟩
    · rename_i h0
      simp only [returns_bind, returns_reservationEnd, returns_pure] at h
      obtain ⟨_, _, ⟨⟨hmax, -⟩, rfl⟩, rfl, rfl⟩ := h
      exact .inr ⟨⟨address, size⟩, ⟨hmax, h0⟩, rfl, r₁, h₁, h₂⟩
  · rintro (⟨rfl, r₁, h₁, h₂⟩ | ⟨e, he, rfl, r₁, h₁, h₂⟩)
    · refine ⟨0, r₁, ⟨by decide, h₁⟩, 0, r', ⟨by decide, h₂⟩, ?_⟩
      simp [returns_bind]
    · refine ⟨e.address, r₁, ⟨he.lt.1, h₁⟩, e.size, r', ⟨he.lt.2, h₂⟩, ?_⟩
      rw [if_neg he.2]
      simp only [returns_bind, returns_reservationEnd, returns_pure]
      exact ⟨_, r', ⟨⟨he.1, rfl⟩, rfl⟩, trivial, rfl⟩

theorem terminatorLoop_sound {fuel : ℕ} : ∀ {r r' : Reader} {stop : ℕ},
    Returns (iterate terminatorRound fuel ()) r stop r' → stop = r'.position ∧
      ∃ es, (∀ e ∈ es, e.Valid) ∧ r.Consumes (encodeEntries es ++ (toBE 8 0 ++ toBE 8 0)) r' := by
  induction fuel with
  | zero => intro r r' stop h; exact absurd h (by simp [iterate])
  | succ fuel ih =>
    intro r r' stop h
    rcases returns_iterate_succ.mp h with ⟨_, r₁, h₁, h₂⟩ | h
    · rcases returns_terminatorRound.mp h₁ with ⟨hx, -⟩ | ⟨e, he, -, hc⟩
      · cases hx
      · obtain ⟨hstop, es, hes, hc'⟩ := ih h₂
        refine ⟨hstop, e :: es, ?_, ?_⟩
        · intro e' he'
          rcases List.mem_cons.mp he' with rfl | he'
          · exact he
          · exact hes e' he'
        · rw [encodeEntries, List.flatMap_cons, List.append_assoc]
          exact hc.trans hc'
    · rcases returns_terminatorRound.mp h with ⟨hx, hc⟩ | ⟨e, -, hx, -⟩
      · cases hx
        exact ⟨rfl, [], by simp, hc⟩
      · cases hx

theorem safe_terminatorLoop (bytes : List UInt8) :
    Safe (iterate terminatorRound (bytes.length + 1) ()) (Reader.new bytes) := by
  refine safe_iterate (fun _ r => r.bytes = bytes) (fun _ r => r.bytes.length - r.offset) ?_ ?_ rfl ?_
  · intro _ r _
    refine safe_bind (safe_mapError (Reader.safe_readU64 r)) fun a r₁ _ => ?_
    refine safe_bind (safe_mapError (Reader.safe_readU64 r₁)) fun b r₂ _ => ?_
    split
    · exact safe_bind safe_get fun _ _ _ => safe_pure
    · exact safe_bind safe_ofExcept fun _ _ _ => safe_pure
  · intro _ r _ r' hr h
    rcases returns_terminatorRound.mp h with ⟨hx, -⟩ | ⟨e, -, -, hc⟩
    · cases hx
    · have h₁ := hc.bytes
      have h₂ := hc.offset
      have h₃ := r'.offset_le
      rw [MemoryReservation.length_encode] at h₂
      refine ⟨h₁.trans hr, ?_⟩
      rw [h₁] at h₃ ⊢
      omega
  · simp [Reader.new]

/-- A block that starts with entries and a terminator is read up to its terminator. -/
theorem returns_terminatorLoop {es : List MemoryReservation} (h : ∀ e ∈ es, e.Valid) :
    ∀ {fuel : ℕ} {r r' : Reader}, es.length < fuel →
      r.Consumes (encodeEntries es ++ (toBE 8 0 ++ toBE 8 0)) r' →
      Returns (iterate terminatorRound fuel ()) r r'.position r' := by
  induction es with
  | nil =>
    intro fuel r r' hfuel hc
    obtain ⟨fuel, rfl⟩ : ∃ n, fuel = n + 1 := ⟨fuel - 1, by omega⟩
    exact returns_iterate_succ.mpr (.inr (returns_terminatorRound.mpr (.inl ⟨rfl, hc⟩)))
  | cons e es ih =>
    intro fuel r r' hfuel hc
    rw [List.length_cons] at hfuel
    obtain ⟨fuel, rfl⟩ : ∃ n, fuel = n + 1 := ⟨fuel - 1, by omega⟩
    rw [encodeEntries, List.flatMap_cons, List.append_assoc, Reader.consumes_append] at hc
    obtain ⟨r₁, h₁, h₂⟩ := hc
    have he := h e List.mem_cons_self
    refine returns_iterate_succ.mpr (.inl ⟨(), r₁, ?_, ?_⟩)
    · exact returns_terminatorRound.mpr (.inr ⟨e, he, rfl, h₁⟩)
    · exact ih (fun e' he' => h e' (List.mem_cons_of_mem _ he')) (by omega) h₂

/-! ## Overlaps -/

/-- Two nonempty entries have an address in common. -/
def Overlaps (first second : MemoryReservation) : Prop :=
  first.size ≠ 0 ∧ second.size ≠ 0 ∧
    ∃ x, (first.address ≤ x ∧ x < first.address + first.size) ∧
      second.address ≤ x ∧ x < second.address + second.size

theorem overlaps_iff {first second : MemoryReservation} : Overlaps first second ↔
    first.size ≠ 0 ∧ second.size ≠ 0 ∧ first.address < second.address + second.size ∧
      second.address < first.address + first.size := by
  refine and_congr_right fun hfirst => and_congr_right fun hsecond => ⟨?_, ?_⟩
  · rintro ⟨x, hx, hx'⟩
    omega
  · intro h
    exact ⟨max first.address second.address, by omega, by omega⟩

/-- The error that names two entries. -/
def overlapError (first second : MemoryReservation) : ReservationError :=
  .overlap first.address first.size second.address second.size

/-- One entry has been compared with others. -/
theorem sat_compareRound {first second : MemoryReservation} (hfirst : first.size ≠ 0)
    (hsecond : second.Valid) (s : σ) :
    Sat (compareRound first (first.address + first.size) second) s fun r s' => s' = s ∧
      (r = .ok () ∧ ¬Overlaps first second ∨
        r = .error (overlapError first second) ∧ Overlaps first second) := by
  rw [overlaps_iff]
  unfold compareRound
  by_cases hsize : second.size = 0
  · rw [if_pos hsize]
    exact sat_pure ⟨rfl, .inl ⟨rfl, fun h => h.2.1 hsize⟩⟩
  · rw [if_neg hsize]
    refine (returns_reservationEnd.mpr ⟨⟨hsecond.1, rfl⟩, rfl⟩).sat_bind ?_
    by_cases hmeet : first.address < second.address + second.size ∧
        second.address < first.address + first.size
    · rw [if_pos hmeet]
      exact sat_fail ⟨rfl, .inr ⟨rfl, hfirst, hsize, hmeet⟩⟩
    · rw [if_neg hmeet]
      exact sat_pure ⟨rfl, .inl ⟨rfl, fun h => hmeet h.2.2⟩⟩

theorem sat_compareAll {first : MemoryReservation} (hfirst : first.size ≠ 0)
    {ds : List MemoryReservation} (h : ∀ d ∈ ds, d.Valid) (s : σ) :
    Sat (ds.foldlM (fun _ second => compareRound first (first.address + first.size) second) ()) s
      fun r s' => s' = s ∧ (r = .ok () ∧ (∀ d ∈ ds, ¬Overlaps first d) ∨
        ∃ d ∈ ds, r = .error (overlapError first d) ∧ Overlaps first d) := by
  induction ds with
  | nil => exact sat_pure ⟨rfl, .inl ⟨rfl, by simp⟩⟩
  | cons d ds ih =>
    rw [List.foldlM_cons]
    refine (sat_compareRound hfirst (h d List.mem_cons_self) s).bind (fun _ s₁ hd => ?_) ?_
    · obtain ⟨rfl, ⟨-, hd⟩ | ⟨hd, -⟩⟩ := hd
      · refine (ih fun d' hd' => h d' (List.mem_cons_of_mem _ hd')).mono fun r s' hr => ⟨hr.1, ?_⟩
        rcases hr.2 with ⟨hok, hall⟩ | ⟨d', hd', herr⟩
        · exact .inl ⟨hok, by simpa using ⟨hd, hall⟩⟩
        · exact .inr ⟨d', List.mem_cons_of_mem _ hd', herr⟩
      · cases hd
    · rintro e s₁ ⟨rfl, ⟨he, -⟩ | ⟨he, hd⟩⟩
      · cases he
      · exact ⟨rfl, .inr ⟨d, List.mem_cons_self, he, hd⟩⟩

/-- What the comparison of all pairs finds. -/
def Compared (es : List MemoryReservation) (r : Except ReservationError Unit) : Prop :=
  r = .ok () ∧ es.Pairwise (fun first second => ¬Overlaps first second) ∨
    ∃ first second, [first, second].Sublist es ∧ Overlaps first second ∧
      r = .error (overlapError first second)

theorem Compared.cons {e : MemoryReservation} {es : List MemoryReservation}
    {r : Except ReservationError Unit} (h : Compared es r) (he : ∀ d ∈ es, ¬Overlaps e d) :
    Compared (e :: es) r := by
  rcases h with ⟨hr, hes⟩ | ⟨first, second, hsub, hfound⟩
  · exact .inl ⟨hr, List.pairwise_cons.mpr ⟨he, hes⟩⟩
  · exact .inr ⟨first, second, hsub.cons e, hfound⟩

/-- **The comparison ends** and finds an overlap if there is one. -/
theorem sat_overlapRounds {es : List MemoryReservation} (h : ∀ e ∈ es, e.Valid) {bound : ℕ}
    (s : σ) : ∀ {n : ℕ}, es.length < n → es.length < bound →
      Sat (iterate (overlapRound bound) n ⟨encodeEntries es ++ (toBE 8 0 ++ toBE 8 0)⟩) s
        fun r s' => s' = s ∧ Compared es r := by
  induction es with
  | nil =>
    intro n hn hbound
    obtain ⟨n, rfl⟩ : ∃ k, n = k + 1 := ⟨n - 1, by omega⟩
    have hnext : Returns (MemoryReservations.next : Exec _ ReservationError _)
        ⟨encodeEntries [] ++ (toBE 8 0 ++ toBE 8 0)⟩ none ⟨[]⟩ := by
      have := MemoryReservations.returns_next_stop (ε := ReservationError) []
      rwa [List.append_nil] at this
    have hround : Returns (overlapRound bound
        ⟨encodeEntries [] ++ (toBE 8 0 ++ toBE 8 0)⟩) s (.inr ()) s :=
      returns_bind.mpr ⟨_, s, advance_of_returns s hnext, returns_pure.mpr ⟨rfl, rfl⟩⟩
    exact hround.sat_bind (sat_pure ⟨rfl, .inl ⟨rfl, .nil⟩⟩)
  | cons e es ih =>
    intro n hn hbound
    rw [List.length_cons] at hn hbound
    obtain ⟨n, rfl⟩ : ∃ k, n = k + 1 := ⟨n - 1, by omega⟩
    have he := h e List.mem_cons_self
    have hes : ∀ e' ∈ es, e'.Valid := fun e' he' => h e' (List.mem_cons_of_mem _ he')
    have hnext : Returns (MemoryReservations.next : Exec _ ReservationError _)
        ⟨encodeEntries (e :: es) ++ (toBE 8 0 ++ toBE 8 0)⟩ (some e)
        ⟨encodeEntries es ++ (toBE 8 0 ++ toBE 8 0)⟩ := by
      rw [encodeEntries, List.flatMap_cons, List.append_assoc]
      exact MemoryReservations.returns_next_entry he.lt.1 he.lt.2 he.2
    have hrest := ih hes (n := n) (by omega) (by omega)
    have hround : Sat (overlapRound bound
        ⟨encodeEntries (e :: es) ++ (toBE 8 0 ++ toBE 8 0)⟩) s fun r s' => s' = s ∧
        ((r = .ok (.inl ⟨encodeEntries es ++ (toBE 8 0 ++ toBE 8 0)⟩) ∧ ∀ d ∈ es, ¬Overlaps e d) ∨
          ∃ d ∈ es, r = .error (overlapError e d) ∧ Overlaps e d) := by
      refine (advance_of_returns s hnext).sat_bind ?_
      dsimp only
      by_cases hsize : e.size = 0
      · rw [if_pos hsize]
        exact sat_pure ⟨rfl, .inl ⟨rfl, fun d _ hd => hd.1 hsize⟩⟩
      · rw [if_neg hsize]
        refine (returns_reservationEnd.mpr ⟨⟨he.1, rfl⟩, rfl⟩).sat_bind ?_
        have hy := MemoryReservations.yields (ε := ReservationError) hes []
        rw [List.append_nil] at hy
        rw [foldIter_eq hy (by omega)]
        refine (sat_compareAll hsize hes s).bind (fun _ s₁ hr => ?_) fun error s₁ hr => ?_
        · obtain ⟨rfl, ⟨-, hall⟩ | ⟨d, -, hd, -⟩⟩ := hr
          · exact sat_pure ⟨rfl, .inl ⟨rfl, hall⟩⟩
          · cases hd
        · obtain ⟨rfl, ⟨hd, -⟩ | ⟨d, hd, herr, hmeet⟩⟩ := hr
          · cases hd
          · exact ⟨rfl, .inr ⟨d, hd, by rw [Except.error.inj herr], hmeet⟩⟩
    refine sat_iterate_succ hround (fun it s₁ hr => ?_) (fun _ s₁ hr => ?_) fun error s₁ hr => ?_
    · obtain ⟨rfl, ⟨hit, hall⟩ | ⟨d, -, hd, -⟩⟩ := hr
      · obtain rfl : it = _ := Sum.inl.inj (Except.ok.inj hit)
        exact hrest.mono fun r s' hr => ⟨hr.1, hr.2.cons hall⟩
      · cases hd
    · obtain ⟨-, ⟨hd, -⟩ | ⟨d, -, hd, -⟩⟩ := hr <;> cases hd
    · obtain ⟨rfl, ⟨hd, -⟩ | ⟨d, hd, herr, hmeet⟩⟩ := hr
      · cases hd
      · obtain rfl := Except.error.inj herr
        exact ⟨rfl, .inr ⟨e, d, (List.singleton_sublist.mpr hd).cons_cons e, hmeet, rfl⟩⟩

theorem sat_validateNoOverlaps {es : List MemoryReservation} (h : ∀ e ∈ es, e.Valid) (s : σ) :
    Sat (validateNoOverlaps ⟨encodeEntries es ++ (toBE 8 0 ++ toBE 8 0)⟩) s fun r s' =>
      s' = s ∧ Compared es r := by
  have hbound := length_encodeEntries es
  refine sat_overlapRounds h s ?_ ?_ <;>
  · rw [List.length_append]
    omega

/-! ## The whole block -/

/-- The block starts with the entries `es` and a terminator, which `rest` follows. -/
def Encodes (bytes : List UInt8) (es : List MemoryReservation) (rest : List UInt8) : Prop :=
  bytes = encodeEntries es ++ (toBE 8 0 ++ toBE 8 0) ++ rest

/-- The entries of the block are found and compared. -/
theorem sat_new_of_encodes {bytes rest : List UInt8} {es : List MemoryReservation}
    (h : Encodes bytes es rest) (hes : ∀ e ∈ es, e.Valid) (s : σ) :
    Sat (new bytes) s fun r s' => s' = s ∧ ∃ r', Compared es r' ∧
      r = r'.map fun _ => ⟨encodeEntries es ++ (toBE 8 0 ++ toBE 8 0)⟩ := by
  have hlen := length_encodeEntries es
  have hrest : (Reader.new bytes).remainingBytes =
      (encodeEntries es ++ (toBE 8 0 ++ toBE 8 0)) ++ rest := by
    rw [Reader.remainingBytes_new]
    exact h
  obtain ⟨r', hc, -⟩ := Reader.exists_consumes hrest
  have hposition : r'.position = (encodeEntries es ++ (toBE 8 0 ++ toBE 8 0)).length := by
    rw [Reader.position, hc.offset, Reader.new, Nat.zero_add]
  have hle : r'.position ≤ bytes.length := by
    have := r'.offset_le
    rwa [hc.bytes] at this
  have hloop : Returns (iterate terminatorRound (bytes.length + 1) ()) (Reader.new bytes)
      r'.position r' := by
    refine returns_terminatorLoop hes ?_ hc
    rw [show bytes = _ from h, List.length_append, List.length_append]
    omega
  have htake : bytes.take r'.position = encodeEntries es ++ (toBE 8 0 ++ toBE 8 0) := by
    rw [hposition, show bytes = _ from h, List.take_left]
  have hrequire : Returns (require (r'.position ≤ bytes.length) "range end index out of range" :
      Exec σ ReservationError Unit) s () s := returns_require.mpr ⟨hle, rfl⟩
  refine (returns_onLocal.mpr ⟨rfl, r', hloop⟩).sat_bind (hrequire.sat_bind ?_)
  rw [htake]
  refine (sat_validateNoOverlaps hes s).bind (fun _ s₁ hr => ?_) fun e s₁ hr => ?_
  · exact sat_pure ⟨hr.1, .ok (), hr.2, rfl⟩
  · exact ⟨hr.1, .error e, hr.2, rfl⟩

theorem fails_terminatorRound {r r' : Reader} {e : ReservationError}
    (h : Fails (terminatorRound ()) r e r') (first second : MemoryReservation) :
    e ≠ overlapError first second := by
  simp only [terminatorRound, fails_bind, fails_mapError] at h
  rcases h with ⟨e', -, rfl⟩ | ⟨address, r₁, -, ⟨e', -, rfl⟩ | ⟨size, r₂, -, h⟩⟩
  · exact ReservationError.noConfusion
  · exact ReservationError.noConfusion
  · split at h
    · simp [fails_bind] at h
    · simp only [fails_bind, fails_ofExcept_iff, fails_pure, and_false, exists_false,
        or_false] at h
      have h := h.1
      unfold reservationEnd at h
      split at h
      · obtain rfl := Except.error.inj h
        exact ReservationError.noConfusion
      · cases h

/-- Construction ends, and gets to the comparison only for entries and a terminator. -/
theorem sat_reservationsNew (bytes : List UInt8) (s : σ) :
    Sat (new bytes) s fun r s' => s' = s ∧
      ((∃ es rest, Encodes bytes es rest ∧ (∀ e ∈ es, e.Valid) ∧ ∃ r', Compared es r' ∧
          r = r'.map fun _ => ⟨encodeEntries es ++ (toBE 8 0 ++ toBE 8 0)⟩) ∨
        ∃ e, r = .error e ∧ ∀ first second, e ≠ overlapError first second) := by
  obtain ⟨⟨result, r'⟩, hloop⟩ := safe_terminatorLoop bytes
  cases result with
  | ok stop =>
    obtain ⟨-, es, hes, hc⟩ := terminatorLoop_sound hloop
    have hencodes : Encodes bytes es r'.remainingBytes := hc.rest
    exact (sat_new_of_encodes hencodes hes s).mono fun r s' hr =>
      ⟨hr.1, .inl ⟨es, _, hencodes, hes, hr.2⟩⟩
  | error e =>
    have hfails : Fails (onLocal (Reader.new bytes) (iterate terminatorRound (bytes.length + 1) ())
        : Exec σ ReservationError ℕ) s e s := fails_onLocal.mpr ⟨rfl, r', hloop⟩
    obtain ⟨k, _, r₁, -, hround⟩ := exists_rounds_of_fails hloop
    exact hfails.bind.sat ⟨rfl, .inr ⟨e, rfl, fails_terminatorRound hround⟩⟩

/-- An accepted block holds entries that end inside the address space, and a terminator. -/
theorem returns_reservationsNew {bytes : List UInt8} {s s' : σ} {reservations : Reservations}
    (h : Returns (new bytes) s reservations s') :
    ∃ es rest, Encodes bytes es rest ∧ (∀ e ∈ es, e.Valid) ∧
      es.Pairwise (fun first second => ¬Overlaps first second) ∧
      reservations = ⟨encodeEntries es ++ (toBE 8 0 ++ toBE 8 0)⟩ := by
  obtain ⟨r, s₁, hrun, -, hcases⟩ := sat_reservationsNew bytes s
  obtain ⟨rfl, -⟩ := Prod.mk.inj (Except.ok.inj (hrun.symm.trans h))
  rcases hcases with ⟨es, rest, hencodes, hes, r', hcompared, hr⟩ | ⟨e, he, -⟩
  · rcases hcompared with ⟨rfl, hpairwise⟩ | ⟨first, second, -, -, rfl⟩
    · exact ⟨es, rest, hencodes, hes, hpairwise, Except.ok.inj hr⟩
    · cases hr
  · cases he

/-- **The reservation block never panics.** -/
theorem safe_reservationsNew (bytes : List UInt8) (s : σ) : Safe (new bytes) s := by
  obtain ⟨r, s', hrun, -⟩ := sat_reservationsNew bytes s
  exact ⟨_, hrun⟩

/-- The entries of a block before its terminator satisfy the rules. -/
def Accepted (es : List MemoryReservation) : Prop :=
  (∀ e ∈ es, e.address + e.size < 2 ^ 64 ∧ ¬(e.address = 0 ∧ e.size = 0)) ∧
    es.Pairwise fun first second => ¬Overlaps first second

theorem accepted_iff {es : List MemoryReservation} : Accepted es ↔
    (∀ e ∈ es, e.Valid) ∧ es.Pairwise fun first second => ¬Overlaps first second := by
  have hmax := wordMax_eq
  refine and_congr_left fun _ => forall₂_congr fun e _ => and_congr_left fun _ => ?_
  omega

theorem returns_new_of_accepted {es : List MemoryReservation} (h : Accepted es)
    (rest : List UInt8) (s : σ) :
    Returns (new (encodeEntries es ++ (toBE 8 0 ++ toBE 8 0) ++ rest)) s
      ⟨encodeEntries es ++ (toBE 8 0 ++ toBE 8 0)⟩ s := by
  obtain ⟨hes, hpairwise⟩ := accepted_iff.mp h
  have hencodes : Encodes (encodeEntries es ++ (toBE 8 0 ++ toBE 8 0) ++ rest) es rest := rfl
  obtain ⟨r, _, hrun, rfl, r', hcompared, rfl⟩ := sat_new_of_encodes hencodes hes s
  rcases hcompared with ⟨rfl, -⟩ | ⟨first, second, hsub, hmeet, -⟩
  · exact hrun
  · exact absurd hmeet (List.pairwise_pair.mp (hpairwise.sublist hsub))

end Reservations

/-- **Accepted reservation blocks.** Construction ends. It accepts a block exactly when entries
that end inside the address space and do not overlap come before a terminator; the iterator then
yields these entries, whatever follows the terminator. An overlap that is reported is one of two
entries of the block, in their order. -/
theorem reservations_new_iff (bytes : List UInt8) :
    Safe (Reservations.new bytes) () ∧
    ((∃ reservations, Returns (Reservations.new bytes) () reservations ()) ↔
      ∃ es rest, Reservations.Encodes bytes es rest ∧ Reservations.Accepted es) ∧
    (∀ es rest, Reservations.Encodes bytes es rest → Reservations.Accepted es →
      ∀ reservations, Returns (Reservations.new bytes) () reservations () →
        Yields (MemoryReservations.next : Exec _ Empty _) es reservations.iter ∧
        ∀ rest', Returns (Reservations.new
          (encodeEntries es ++ (toBE 8 0 ++ toBE 8 0) ++ rest')) () reservations ()) ∧
    ∀ first second, Fails (Reservations.new bytes) ()
      (.overlap first.address first.size second.address second.size) () →
      ∃ es rest, Reservations.Encodes bytes es rest ∧ [first, second].Sublist es ∧
        Reservations.Overlaps first second := by
  refine ⟨Reservations.safe_reservationsNew bytes (), ⟨?_, ?_⟩, ?_, ?_⟩
  · rintro ⟨reservations, h⟩
    obtain ⟨es, rest, hencodes, hes, hpairwise, -⟩ := Reservations.returns_reservationsNew h
    exact ⟨es, rest, hencodes, Reservations.accepted_iff.mpr ⟨hes, hpairwise⟩⟩
  · rintro ⟨es, rest, hencodes, haccepted⟩
    refine ⟨⟨encodeEntries es ++ (toBE 8 0 ++ toBE 8 0)⟩, ?_⟩
    rw [show bytes = _ from hencodes]
    exact Reservations.returns_new_of_accepted haccepted rest ()
  · intro es rest hencodes haccepted reservations h
    rw [show bytes = _ from hencodes] at h
    obtain ⟨rfl, -⟩ := (Reservations.returns_new_of_accepted haccepted rest ()).unique h
    refine ⟨?_, fun rest' => Reservations.returns_new_of_accepted haccepted rest' ()⟩
    have hy := MemoryReservations.yields (ε := Empty) (Reservations.accepted_iff.mp haccepted).1 []
    rwa [List.append_nil] at hy
  · intro first second h
    obtain ⟨r, _, hrun, rfl, hcases⟩ := Reservations.sat_reservationsNew bytes ()
    obtain ⟨rfl, -⟩ := Prod.mk.inj (Except.ok.inj (hrun.symm.trans h))
    rcases hcases with ⟨es, rest, hencodes, hes, r', hcompared, hr⟩ | ⟨e, he, hne⟩
    · rcases hcompared with ⟨rfl, -⟩ | ⟨first', second', hsub, hmeet, rfl⟩
      · cases hr
      · obtain ⟨rfl, rfl⟩ : first = first' ∧ second = second' := by
          have herr := Except.error.inj hr
          simp only [Reservations.overlapError, ReservationError.overlap.injEq] at herr
          cases first
          cases second
          cases first'
          cases second'
          simp_all
        exact ⟨es, rest, hencodes, hsub, hmeet⟩
    · exact absurd (Except.error.inj he).symm (hne first second)

end Barebone.Devicetree

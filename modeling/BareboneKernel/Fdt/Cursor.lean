import BareboneKernel.Fdt.Reader
import BareboneKernel.Lib.Word

/-!
# The reader, step by step

`Reader` carries the bound on its offset in its type. Here are the same operations on the bare fields,
with every check the code makes on the way: a subtraction below zero, a sum past `usize::MAX` and an
index past the end of a slice abort the run.

* `Cursor`: the fields, and the operations on them;
* `Read`, `Read.run`: one operation of any kind;
* `Read.Meets`: what an operation may do to a cursor and return;
* `Read.agrees`: on the fields of a `Reader` the operations are those of `Reader`;
* **`reader_faithful`**: after any sequence of operations, every operation is met.
-/

set_option autoImplicit false

namespace Barebone.Devicetree

open Exec Endian Word

/-- The fields of a reader. -/
@[ext] structure Cursor where
  bytes : List UInt8
  offset : ℕ

namespace Cursor

variable {ε : Type}

def new (bytes : List UInt8) : Cursor := ⟨bytes, 0⟩

/-- The difference, which cannot be negative. -/
def sub (a b : ℕ) : Exec Cursor ε ℕ := do
  require (b ≤ a) "attempt to subtract with overflow"
  pure (a - b)

/-- The bytes of `start..stop`, where these are indices. -/
def slice (bytes : List UInt8) (start stop : ℕ) : Option (List UInt8) :=
  if start ≤ stop ∧ stop ≤ bytes.length then some ((bytes.drop start).take (stop - start)) else none

def remaining : Exec Cursor ε ℕ := do
  let c ← get
  sub c.bytes.length c.offset

def readBytes (length : ℕ) : Exec Cursor ReadError (List UInt8) := do
  let c ← get
  let remaining ← remaining
  match checkedAdd c.offset length with
  | none => fail (.truncated c.offset length remaining)
  | some stop =>
    match slice c.bytes c.offset stop with
    | none => fail (.truncated c.offset length remaining)
    | some bytes =>
      modify fun c => { c with offset := stop }
      pure bytes

def readU8 : Exec Cursor ReadError UInt8 := do
  let bytes ← readBytes 1
  expectSome "index out of bounds" bytes.head?

def readU32 : Exec Cursor ReadError ℕ := do
  let bytes ← readBytes 4
  require (bytes.length = 4) "slice length is known to be 4"
  pure (fromBE bytes)

def readU64 : Exec Cursor ReadError ℕ := do
  let bytes ← readBytes 8
  require (bytes.length = 8) "slice length is known to be 8"
  pure (fromBE bytes)

def alignTo4 : Exec Cursor ReadError (List UInt8) := do
  let c ← get
  let gap ← sub 4 (c.offset % 4)
  readBytes (gap % 4)

def readNulTerminated : Exec Cursor ReadError (List UInt8) := do
  let c ← get
  let remaining ← expectSome "range start index out of range"
    (slice c.bytes c.offset c.bytes.length)
  match remaining.findIdx? (· == 0) with
  | none => fail (.missingNulTerminator c.offset)
  | some length =>
    let consumed ← expectSome "attempt to add with overflow" (checkedAdd length 1)
    let bytes ← readBytes consumed
    expectSome "range end index out of range" (slice bytes 0 length)

/-- The unread bytes. -/
def rest (c : Cursor) : List UInt8 := c.bytes.drop c.offset

/-- The offset is within the slice, whose length is a word. -/
structure Bounded (c : Cursor) : Prop where
  offset_le : c.offset ≤ c.bytes.length
  length_le : c.bytes.length ≤ wordMax

/-- The cursor behind `n` bytes. -/
def skip (c : Cursor) (n : ℕ) : Cursor := { c with offset := c.offset + n }

section Bounded

variable {c : Cursor} {n : ℕ}

theorem Bounded.length_rest (h : c.Bounded) : c.offset + c.rest.length = c.bytes.length := by
  have := h.offset_le
  rw [rest, List.length_drop]
  omega

theorem Bounded.skip (h : c.Bounded) (hn : n ≤ c.rest.length) : (c.skip n).Bounded := by
  have := h.length_rest
  refine ⟨?_, h.length_le⟩
  show c.offset + n ≤ c.bytes.length
  omega

/-- **Reading bytes**: exactly when there are enough of them. -/
theorem Bounded.readBytes_eq (h : c.Bounded) (n : ℕ) : readBytes n c =
    if n ≤ c.rest.length then .ok (.ok (c.rest.take n), c.skip n)
    else .ok (.error (.truncated c.offset n c.rest.length), c) := by
  have hlength := h.length_rest
  have hmax := h.length_le
  have hremaining : Returns (remaining : Exec Cursor ReadError ℕ) c c.rest.length c := by
    refine returns_bind.mpr ⟨c, c, returns_get.mpr ⟨rfl, rfl⟩, returns_bind.mpr ⟨(), c, ?_, ?_⟩⟩
    · exact returns_require.mpr ⟨h.offset_le, rfl⟩
    · exact returns_pure.mpr ⟨by omega, rfl⟩
  rw [readBytes, bind_of_returns (returns_get.mpr ⟨rfl, rfl⟩), bind_of_returns hremaining]
  by_cases hn : n ≤ c.rest.length
  · have hslice : slice c.bytes c.offset (c.offset + n) = some (c.rest.take n) := by
      rw [slice, if_pos ⟨by omega, by omega⟩, Nat.add_sub_cancel_left]
      rfl
    rw [if_pos hn, checkedAdd_of_le (by omega)]
    dsimp only
    rw [hslice]
    rfl
  · rw [if_neg hn]
    cases hadd : checkedAdd c.offset n with
    | none => rfl
    | some stop =>
      obtain ⟨-, rfl⟩ := checkedAdd_eq_some.mp hadd
      have hslice : slice c.bytes c.offset (c.offset + n) = none := by
        rw [slice, if_neg]
        omega
      dsimp only
      rw [hslice]
      rfl

theorem Bounded.sat_readBytes (h : c.Bounded) (n : ℕ) :
    Sat (readBytes n) c fun r c' => match r with
      | .ok bs => n ≤ c.rest.length ∧ bs = c.rest.take n ∧ c' = c.skip n
      | .error e => c.rest.length < n ∧ e = .truncated c.offset n c.rest.length ∧ c' = c := by
  rw [Sat, h.readBytes_eq]
  by_cases hn : n ≤ c.rest.length
  · rw [if_pos hn]
    exact ⟨_, _, rfl, hn, rfl, rfl⟩
  · rw [if_neg hn]
    exact ⟨_, _, rfl, Nat.lt_of_not_le hn, rfl, rfl⟩

end Bounded

end Cursor

/-! ## Operations -/

/-- An operation of the reader. -/
inductive Read where
  | u8
  | u32
  | u64
  | bytes (length : ℕ)
  | align
  | nulTerminated

/-- What an operation returns. -/
inductive Item where
  | number (value : ℕ)
  | bytes (bytes : List UInt8)

namespace Read

def run : Read → Exec Cursor ReadError Item
  | u8 => do return .number (← Cursor.readU8).toNat
  | u32 => do return .number (← Cursor.readU32)
  | u64 => do return .number (← Cursor.readU64)
  | bytes length => do return .bytes (← Cursor.readBytes length)
  | align => do return .bytes (← Cursor.alignTo4)
  | nulTerminated => do return .bytes (← Cursor.readNulTerminated)

/-- The number of bytes of an integer. -/
def width : Read → Option ℕ
  | u8 => some 1
  | u32 => some 4
  | u64 => some 8
  | _ => none

/-- With `rest` to read from `offset` on, the operation returns `item` and consumes `n` bytes. -/
inductive Gives (offset : ℕ) (rest : List UInt8) : Read → Item → ℕ → Prop
  | integer {read : Read} {n : ℕ} (kind : read.width = some n) (enough : n ≤ rest.length) :
      Gives offset rest read (.number (fromBE (rest.take n))) n
  | bytes {n : ℕ} (enough : n ≤ rest.length) : Gives offset rest (.bytes n) (.bytes (rest.take n)) n
  | align {n : ℕ} (next : IsLeast {m | 4 ∣ m ∧ offset ≤ m} (offset + n)) (enough : n ≤ rest.length) :
      Gives offset rest .align (.bytes (rest.take n)) n
  | nulTerminated (found : 0 ∈ rest) : Gives offset rest .nulTerminated
      (.bytes (rest.takeWhile (· != 0))) ((rest.takeWhile (· != 0)).length + 1)

/-- With `rest` to read from `offset` on, the operation fails with an error. -/
inductive Refuses (offset : ℕ) (rest : List UInt8) : Read → ReadError → Prop
  | integer {read : Read} {n : ℕ} (kind : read.width = some n) (short : rest.length < n) :
      Refuses offset rest read (.truncated offset n rest.length)
  | bytes {n : ℕ} (short : rest.length < n) :
      Refuses offset rest (.bytes n) (.truncated offset n rest.length)
  | align {n : ℕ} (next : IsLeast {m | 4 ∣ m ∧ offset ≤ m} (offset + n)) (short : rest.length < n) :
      Refuses offset rest .align (.truncated offset n rest.length)
  | nulTerminated (missing : 0 ∉ rest) :
      Refuses offset rest .nulTerminated (.missingNulTerminator offset)

/-- **What an operation does**: it consumes exactly what it returns, or fails and stays where it is. -/
def Meets (read : Read) (c : Cursor) (r : Except ReadError Item) (c' : Cursor) : Prop :=
  match r with
  | .ok item => ∃ n, read.Gives c.offset c.rest item n ∧ c' = c.skip n
  | .error e => read.Refuses c.offset c.rest e ∧ c' = c

section Runs

variable {c : Cursor} {read : Read}

theorem isLeast_padding (offset : ℕ) : IsLeast {m | 4 ∣ m ∧ offset ≤ m} (offset + padding offset) := by
  refine ⟨⟨Nat.dvd_of_mod_eq_zero (add_padding_mod offset), Nat.le_add_right _ _⟩, ?_⟩
  rintro m ⟨hdvd, hle⟩
  unfold padding
  omega

/-- The bytes up to the first NUL. -/
theorem takeWhile_ne_zero {bs : List UInt8} : ∀ {n : ℕ}, bs.findIdx? (· == 0) = some n →
    0 ∈ bs ∧ n < bs.length ∧ bs.take n = bs.takeWhile (· != 0) ∧
      (bs.takeWhile (· != 0)).length = n := by
  induction bs with
  | nil => simp
  | cons b bs ih =>
    intro n hn
    rw [List.findIdx?_cons] at hn
    by_cases hb : b = 0
    · subst hb
      obtain rfl : 0 = n := by simpa using hn
      simp
    · obtain ⟨m, hm, rfl⟩ : ∃ m, bs.findIdx? (· == 0) = some m ∧ m + 1 = n := by
        simpa [hb] using hn
      obtain ⟨hmem, hlt, htake, hlen⟩ := ih hm
      have hne : (b != 0) = true := by simpa using hb
      rw [List.takeWhile_cons, if_pos hne, List.take_succ_cons, htake, List.length_cons,
        List.length_cons, hlen]
      exact ⟨List.mem_cons_of_mem b hmem, by omega, rfl, rfl⟩

/-- An integer of `n` bytes. -/
theorem sat_integer {α : Type} (h : c.Bounded) {n : ℕ} (value : List UInt8 → α) (number : α → ℕ)
    {check : List UInt8 → Exec Cursor ReadError α} (hkind : read.width = some n)
    (hcheck : ∀ bs c', bs.length = n → Returns (check bs) c' (value bs) c')
    (hvalue : ∀ bs, bs.length = n → number (value bs) = fromBE bs) :
    Sat ((Cursor.readBytes n >>= check) >>= fun a => pure (.number (number a))) c (read.Meets c) := by
  rw [Exec.bind_assoc]
  refine (h.sat_readBytes n).bind (fun bs c' ⟨hn, hbs, hc'⟩ => ?_) fun e c' ⟨hn, he, hc'⟩ => ?_
  · have hlen : bs.length = n := by
      rw [hbs, List.length_take]
      exact Nat.min_eq_left hn
    refine (hcheck bs c' hlen).sat_bind (sat_pure ⟨n, ?_, hc'⟩)
    rw [hvalue bs hlen, hbs]
    exact .integer hkind hn
  · rw [he]
    exact ⟨.integer hkind hn, hc'⟩

theorem sat_align (h : c.Bounded) : Sat (align.run) c (align.Meets c) := by
  have hgap : Returns (Cursor.sub 4 (c.offset % 4) : Exec Cursor ReadError ℕ) c
      (4 - c.offset % 4) c := by
    refine returns_bind.mpr ⟨(), c, returns_require.mpr ⟨?_, rfl⟩, returns_pure.mpr ⟨rfl, rfl⟩⟩
    exact (Nat.mod_lt _ (by decide)).le
  have hread : Sat Cursor.alignTo4 c fun r c' => match r with
      | .ok bs => padding c.offset ≤ c.rest.length ∧ bs = c.rest.take (padding c.offset) ∧
          c' = c.skip (padding c.offset)
      | .error e => c.rest.length < padding c.offset ∧
          e = .truncated c.offset (padding c.offset) c.rest.length ∧ c' = c :=
    sat_get (hgap.sat_bind (h.sat_readBytes (padding c.offset)))
  refine hread.bind (fun bs c' ⟨hn, hbs, hc'⟩ => sat_pure ⟨_, ?_, hc'⟩) fun e c' ⟨hn, he, hc'⟩ => ?_
  · rw [hbs]
    exact .align (isLeast_padding c.offset) hn
  · rw [he]
    exact ⟨.align (isLeast_padding c.offset) hn, hc'⟩

theorem sat_nulTerminated (h : c.Bounded) :
    Sat (nulTerminated.run) c (nulTerminated.Meets c) := by
  have hlength := h.length_rest
  have hrest : Returns (expectSome "range start index out of range"
      (Cursor.slice c.bytes c.offset c.bytes.length) : Exec Cursor ReadError _) c c.rest c := by
    refine returns_expectSome.mpr ⟨?_, rfl⟩
    rw [Cursor.slice, if_pos ⟨h.offset_le, le_rfl⟩, List.take_of_length_le, Cursor.rest]
    rw [List.length_drop]
  show Sat (Cursor.readNulTerminated >>= fun bs =>
    (pure (Item.bytes bs) : Exec Cursor ReadError Item)) c _
  unfold Cursor.readNulTerminated
  rw [Exec.bind_assoc]
  refine sat_get ?_
  rw [Exec.bind_assoc]
  refine hrest.sat_bind ?_
  cases hfind : c.rest.findIdx? (· == 0) with
  | none =>
    refine Fails.sat (Fails.bind rfl) ⟨.nulTerminated ?_, rfl⟩
    have hall : ∀ b ∈ c.rest, ¬b = 0 := by simpa using hfind
    exact fun hmem => hall 0 hmem rfl
  | some length =>
    obtain ⟨hmem, hlt, htake, hlen⟩ := takeWhile_ne_zero hfind
    have hmax := h.length_le
    have hadd : Returns (expectSome "attempt to add with overflow" (checkedAdd length 1) :
        Exec Cursor ReadError ℕ) c (length + 1) c :=
      returns_expectSome.mpr ⟨checkedAdd_of_le (by omega), rfl⟩
    dsimp only
    rw [Exec.bind_assoc]
    refine hadd.sat_bind ?_
    rw [Exec.bind_assoc]
    refine (h.sat_readBytes (length + 1)).bind (fun bs c' ⟨hn, hbs, hc'⟩ => ?_)
      fun e c' ⟨hn, _, _⟩ => absurd hn (by omega)
    have hname : Returns (expectSome "range end index out of range" (Cursor.slice bs 0 length) :
        Exec Cursor ReadError _) c' (c.rest.takeWhile (· != 0)) c' := by
      refine returns_expectSome.mpr ⟨?_, rfl⟩
      have hle : length ≤ bs.length := by
        rw [hbs, List.length_take]
        omega
      rw [Cursor.slice, if_pos ⟨Nat.zero_le _, hle⟩, hbs, List.drop_zero, Nat.sub_zero,
        List.take_take, Nat.min_eq_left (Nat.le_succ _), htake]
    refine hname.sat_bind (sat_pure ⟨_, .nulTerminated hmem, ?_⟩)
    rw [hc', hlen]

/-- **One operation.** -/
theorem sat_run (h : c.Bounded) (read : Read) : Sat read.run c (read.Meets c) := by
  cases read with
  | u8 =>
    refine sat_integer h (fun bs => bs.headD 0) UInt8.toNat rfl ?_ ?_
    · intro bs c' hlen
      obtain ⟨b, rfl⟩ := List.length_eq_one_iff.mp hlen
      exact returns_expectSome.mpr ⟨rfl, rfl⟩
    · intro bs hlen
      obtain ⟨b, rfl⟩ := List.length_eq_one_iff.mp hlen
      simp [fromBE]
  | u32 =>
    refine sat_integer h fromBE id rfl (fun bs c' hlen => ?_) fun _ _ => rfl
    exact returns_bind.mpr ⟨(), c', returns_require.mpr ⟨hlen, rfl⟩, returns_pure.mpr ⟨rfl, rfl⟩⟩
  | u64 =>
    refine sat_integer h fromBE id rfl (fun bs c' hlen => ?_) fun _ _ => rfl
    exact returns_bind.mpr ⟨(), c', returns_require.mpr ⟨hlen, rfl⟩, returns_pure.mpr ⟨rfl, rfl⟩⟩
  | bytes n =>
    refine (h.sat_readBytes n).bind (fun bs c' hread => ?_) fun e c' hread => ?_
    · obtain ⟨hn, hbs, hc'⟩ := hread
      refine sat_pure ⟨n, ?_, hc'⟩
      rw [hbs]
      exact .bytes hn
    · obtain ⟨hn, he, hc'⟩ := hread
      rw [he]
      exact ⟨.bytes hn, hc'⟩
  | align => exact sat_align h
  | nulTerminated => exact sat_nulTerminated h

end Runs

/-! ## The operations of `Reader` -/

/-- The same operation of `Reader`. -/
def onReader : Read → Exec Reader ReadError Item
  | u8 => do return .number (← Reader.readU8).toNat
  | u32 => do return .number (← Reader.readU32)
  | u64 => do return .number (← Reader.readU64)
  | bytes length => do return .bytes (← Reader.readBytes length)
  | align => do return .bytes (← Reader.alignTo4)
  | nulTerminated => do return .bytes (← Reader.readNulTerminated)

end Read

/-- The fields of a reader. -/
def Reader.cursor (r : Reader) : Cursor := ⟨r.bytes, r.offset⟩

/-- From a reader and from its fields the two programs do the same. -/
def Agree {ε α : Type} (c : Exec Reader ε α) (d : Exec Cursor ε α) (r : Reader) : Prop :=
  (c r).map (fun x => (x.1, x.2.cursor)) = d r.cursor

section Agree

variable {ε α β : Type} {r : Reader}

theorem agree_pure (a : α) : Agree (pure a : Exec Reader ε α) (pure a) r := rfl

theorem agree_require (p : Prop) [Decidable p] (message : String) :
    Agree (require p message : Exec Reader ε Unit) (require p message) r := by
  unfold Agree require
  split <;> rfl

theorem Agree.bind {c : Exec Reader ε α} {d : Exec Cursor ε α} {f : α → Exec Reader ε β}
    {g : α → Exec Cursor ε β} (h : Agree c d r)
    (hfg : ∀ a r', Returns c r a r' → Agree (f a) (g a) r') : Agree (c >>= f) (d >>= g) r := by
  unfold Agree
  rw [bind_apply, bind_apply, ← h]
  rcases hc : c r with b | ⟨e | a, r'⟩
  · rfl
  · rfl
  · exact hfg a r' hc

theorem Reader.bounded (h : r.bytes.length ≤ wordMax) : r.cursor.Bounded := ⟨r.offset_le, h⟩

theorem agree_readBytes (h : r.bytes.length ≤ wordMax) (n : ℕ) :
    Agree (Reader.readBytes n) (Cursor.readBytes n) r := by
  have hlen : r.cursor.rest.length = r.bytes.length - r.offset := List.length_drop
  unfold Agree
  rw [(Reader.bounded h).readBytes_eq, hlen]
  unfold Reader.readBytes
  split <;> rfl

theorem agree_integer (h : r.bytes.length ≤ wordMax) (n : ℕ) (message : String) :
    Agree (do let bs ← Reader.readBytes n; require (bs.length = n) message; pure (fromBE bs))
      (do let bs ← Cursor.readBytes n; require (bs.length = n) message; pure (fromBE bs)) r :=
  (agree_readBytes h n).bind fun _ _ _ => (agree_require _ _).bind fun _ _ _ => agree_pure _

theorem agree_readU8 (h : r.bytes.length ≤ wordMax) : Agree Reader.readU8 Cursor.readU8 r := by
  refine (agree_readBytes h 1).bind fun bs r' hbs => ?_
  obtain ⟨b, rfl⟩ := List.length_eq_one_iff.mp (Reader.returns_readBytes.mp hbs).1
  exact agree_pure b

theorem agree_alignTo4 (h : r.bytes.length ≤ wordMax) :
    Agree Reader.alignTo4 Cursor.alignTo4 r := by
  have hgap : Returns (Cursor.sub 4 (r.cursor.offset % 4) : Exec Cursor ReadError ℕ) r.cursor
      (4 - r.offset % 4) r.cursor := by
    refine returns_bind.mpr ⟨(), r.cursor, returns_require.mpr ⟨?_, rfl⟩, returns_pure.mpr ⟨rfl, rfl⟩⟩
    exact (Nat.mod_lt _ (by decide)).le
  have hread := agree_readBytes h (padding r.offset)
  unfold Agree at *
  rw [Reader.alignTo4, Cursor.alignTo4, bind_of_returns (returns_get.mpr ⟨rfl, rfl⟩),
    bind_of_returns (returns_get.mpr ⟨rfl, rfl⟩), bind_of_returns hgap]
  exact hread

theorem agree_readNulTerminated (h : r.bytes.length ≤ wordMax) :
    Agree Reader.readNulTerminated Cursor.readNulTerminated r := by
  have hrest : Returns (expectSome "range start index out of range"
      (Cursor.slice r.cursor.bytes r.cursor.offset r.cursor.bytes.length) :
        Exec Cursor ReadError _) r.cursor r.remainingBytes r.cursor := by
    refine returns_expectSome.mpr ⟨?_, rfl⟩
    rw [Cursor.slice, if_pos ⟨r.offset_le, le_rfl⟩, List.take_of_length_le]
    · rfl
    · rw [List.length_drop]
  unfold Agree
  rw [Reader.readNulTerminated, Cursor.readNulTerminated,
    bind_of_returns (returns_get.mpr ⟨rfl, rfl⟩), bind_of_returns (returns_get.mpr ⟨rfl, rfl⟩),
    bind_of_returns hrest]
  cases hfind : r.remainingBytes.findIdx? (· == 0) with
  | none => rfl
  | some length =>
    obtain ⟨-, hlt, -⟩ := Read.takeWhile_ne_zero hfind
    have hlen : r.remainingBytes.length = r.bytes.length - r.offset := r.length_remainingBytes
    have hadd : Returns (expectSome "attempt to add with overflow" (checkedAdd length 1) :
        Exec Cursor ReadError ℕ) r.cursor (length + 1) r.cursor :=
      returns_expectSome.mpr ⟨checkedAdd_of_le (by omega), rfl⟩
    dsimp only
    rw [bind_of_returns hadd]
    refine (agree_readBytes h (length + 1)).bind fun bs r' hbs => ?_
    obtain ⟨hbs, -⟩ := Reader.returns_readBytes.mp hbs
    have hle : length ≤ bs.length := by omega
    rw [Cursor.slice, if_pos ⟨Nat.zero_le _, hle⟩, List.drop_zero, Nat.sub_zero]
    unfold require
    rw [if_pos hle]
    exact agree_pure _

end Agree

/-- **The operations of `Reader`** are those of its fields. -/
theorem Read.agrees {r : Reader} (h : r.bytes.length ≤ wordMax) (read : Read) :
    Agree read.onReader read.run r := by
  cases read with
  | u8 => exact (agree_readU8 h).bind fun _ _ _ => agree_pure _
  | u32 => exact (agree_integer h 4 _).bind fun _ _ _ => agree_pure _
  | u64 => exact (agree_integer h 8 _).bind fun _ _ _ => agree_pure _
  | bytes n => exact (agree_readBytes h n).bind fun _ _ _ => agree_pure _
  | align => exact (agree_alignTo4 h).bind fun _ _ _ => agree_pure _
  | nulTerminated => exact (agree_readNulTerminated h).bind fun _ _ _ => agree_pure _

/-! ## Histories -/

/-- A sequence of operations, whatever their results. -/
def history : List Read → Exec Cursor Empty (List (Except ReadError Item))
  | [] => pure []
  | read :: reads => do
    let r ← attempt read.run
    let rs ← history reads
    pure (r :: rs)

/-- The bytes that the result of an operation stands for. -/
def Read.spelling : Read → Except ReadError Item → List UInt8
  | nulTerminated, .ok (.bytes name) => name ++ [0]
  | _, .ok (.bytes bs) => bs
  | read, .ok (.number value) => toBE (read.width.getD 0) value
  | _, .error _ => []

/-- What is returned spells what has been consumed. -/
theorem Read.Gives.spelling {offset n : ℕ} {rest : List UInt8} {read : Read} {item : Item}
    (h : read.Gives offset rest item n) : n ≤ rest.length ∧ read.spelling (.ok item) = rest.take n := by
  cases h with
  | integer hkind hn =>
    have hlen : (rest.take n).length = n := by
      rw [List.length_take]
      exact Nat.min_eq_left hn
    have hspell := toBE_fromBE (rest.take n)
    rw [hlen] at hspell
    refine ⟨hn, ?_⟩
    have hnumber : read.spelling (.ok (.number (fromBE (rest.take n)))) =
        toBE (read.width.getD 0) (fromBE (rest.take n)) := by cases read <;> rfl
    rw [hnumber, hkind]
    exact hspell
  | bytes hn => exact ⟨hn, rfl⟩
  | align _ hn => exact ⟨hn, rfl⟩
  | nulTerminated hmem =>
    obtain ⟨length, hfind⟩ : ∃ length, rest.findIdx? (· == 0) = some length := by
      refine Option.ne_none_iff_exists'.mp fun hnone => ?_
      have hall : ∀ b ∈ rest, ¬b = 0 := by simpa using hnone
      exact hall 0 hmem rfl
    obtain ⟨-, hlt, htake, hlen⟩ := Read.takeWhile_ne_zero hfind
    obtain ⟨-, tail, hsplit⟩ := Reader.eq_of_findIdx?_nul hfind
    rw [hlen]
    refine ⟨hlt, ?_⟩
    show rest.takeWhile (· != 0) ++ [0] = _
    have hname : rest = (rest.takeWhile (· != 0) ++ [0]) ++ tail := by
      rw [htake, List.append_cons] at hsplit
      exact hsplit
    have hprefix := congrArg (List.take (length + 1)) hname
    rw [List.take_left' (by rw [List.length_append, hlen]; rfl)] at hprefix
    exact hprefix.symm

theorem Read.Meets.advance {read : Read} {c c' : Cursor} {r : Except ReadError Item}
    (h : read.Meets c r c') (hc : c.Bounded) : c'.Bounded ∧ c'.bytes = c.bytes ∧
      c.bytes.take c'.offset = c.bytes.take c.offset ++ read.spelling r := by
  cases r with
  | error e =>
    obtain ⟨-, rfl⟩ := h
    exact ⟨hc, rfl, by simp [Read.spelling]⟩
  | ok item =>
    obtain ⟨n, hgives, rfl⟩ := h
    obtain ⟨hn, hspell⟩ := hgives.spelling
    refine ⟨hc.skip hn, rfl, ?_⟩
    rw [hspell]
    exact List.take_add

theorem sat_history (reads : List Read) : ∀ {c : Cursor}, c.Bounded →
    Sat (history reads) c fun r c' => ∃ rs, r = .ok rs ∧ rs.length = reads.length ∧ c'.Bounded ∧
      c'.bytes = c.bytes ∧ c.bytes.take c'.offset = c.bytes.take c.offset ++
        (List.zipWith Read.spelling reads rs).flatten := by
  induction reads with
  | nil => exact fun hc => sat_pure ⟨[], rfl, rfl, hc, rfl, by simp⟩
  | cons read reads ih =>
    intro c hc
    obtain ⟨r, c₁, hrun, hmeets⟩ := Read.sat_run hc read
    obtain ⟨hc₁, hbytes, htake⟩ := hmeets.advance hc
    have hattempt : Returns (attempt read.run : Exec Cursor Empty _) c r c₁ := by
      rw [Returns, attempt, hrun]
      rfl
    refine hattempt.sat_bind ((ih hc₁).bind (fun rs c₂ h => ?_) fun e => e.elim)
    obtain ⟨rs', heq, hlen, hc₂, hbytes₂, htake₂⟩ := h
    obtain rfl := Except.ok.inj heq
    refine sat_pure ⟨r :: rs, rfl, by simp [hlen], hc₂, hbytes₂.trans hbytes, ?_⟩
    rw [hbytes, htake] at htake₂
    rw [htake₂, List.zipWith_cons_cons, List.flatten_cons, List.append_assoc]

/-- **The reader is a faithful bounded cursor.** After any sequence of operations no check has failed
and the offset is within the slice; what the operations have returned spells exactly the bytes up to
it. Every further operation returns exactly what is there and goes past it, or fails, says what is
missing, and stays where it is. -/
theorem reader_faithful (bytes : List UInt8) (hlength : bytes.length ≤ wordMax)
    (reads : List Read) : ∃ rs c, Returns (history reads) (.new bytes) rs c ∧
      rs.length = reads.length ∧ c.bytes = bytes ∧ c.offset ≤ bytes.length ∧
      (List.zipWith Read.spelling reads rs).flatten = bytes.take c.offset ∧
      ∀ read : Read, ∃ r c', read.run c = .ok (r, c') ∧ match r with
        | .ok item => ∃ n, read.Gives c.offset (bytes.drop c.offset) item n ∧
            n ≤ bytes.length - c.offset ∧ c' = ⟨bytes, c.offset + n⟩
        | .error e => read.Refuses c.offset (bytes.drop c.offset) e ∧ c' = c := by
  have hnew : (Cursor.new bytes).Bounded := ⟨Nat.zero_le _, hlength⟩
  obtain ⟨r, c, hrun, rs, rfl, hlen, hc, hbytes, htake⟩ := sat_history reads hnew
  have hle := hc.offset_le
  change c.bytes = bytes at hbytes
  change bytes.take c.offset = bytes.take 0 ++ _ at htake
  rw [hbytes] at hle
  refine ⟨rs, c, hrun, hlen, hbytes, hle, by simpa using htake.symm, fun read => ?_⟩
  obtain ⟨r, c', hrun', hmeets⟩ := Read.sat_run hc read
  refine ⟨r, c', hrun', ?_⟩
  have hrest : c.rest = bytes.drop c.offset := by rw [Cursor.rest, hbytes]
  unfold Read.Meets at hmeets
  rw [hrest] at hmeets
  cases r with
  | error e => exact hmeets
  | ok item =>
    obtain ⟨n, hgives, rfl⟩ := hmeets
    refine ⟨n, hgives, ?_, by rw [Cursor.skip, hbytes]⟩
    have hn := hgives.spelling.1
    rwa [List.length_drop] at hn

/-- A name, its padding, and an integer of which two bytes are missing. -/
theorem reader_faithful_sample : ∃ rs c,
    Returns (history [.nulTerminated, .align, .u32]) (.new [0x61, 0, 7, 7, 1, 2]) rs c ∧
      (List.zipWith Read.spelling [.nulTerminated, .align, .u32] rs).flatten =
        [0x61, 0, 7, 7, 1, 2].take c.offset := by
  obtain ⟨rs, c, hrun, -, -, -, hspell, -⟩ := reader_faithful [0x61, 0, 7, 7, 1, 2] (by decide)
    [.nulTerminated, .align, .u32]
  exact ⟨rs, c, hrun, hspell⟩

end Barebone.Devicetree

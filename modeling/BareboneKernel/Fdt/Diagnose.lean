import BareboneKernel.Fdt.Accept

/-!
# What the validator reports

`MainLoop` names the rounds that a run of `Structure::new` goes through, on any block.

* `SiblingRescan`, `PropertyRescan`: a scan of the prefix follows the rounds of the main loop;
* **`structure_new_total`**: the validator ends with a result, its depth stays within the block and
  its scans never fail;
* `Explained`: what an error says about the block, and **`structure_diagnostics`**: it is true.
-/

set_option autoImplicit false

namespace Barebone.Devicetree

open Exec Endian

/-! ## The rounds of the main loop -/

/-- The validator starts its main loop at the offset `start`; `k` rounds later the loop variables
are `st` and the reader is `r`. -/
def MainLoop (bytes : List UInt8) (strings : Strings) (start k : ℕ) (st : LoopState) (r : Reader) :
    Prop :=
  ∃ o pad r₁ r₂ r₃, Returns readNonNopToken (Reader.new bytes) (o, .beginNode) r₁ ∧
    Returns Reader.readU8 r₁ 0 r₂ ∧ Returns Reader.alignTo4 r₂ pad r₃ ∧ start = r₃.position ∧
    Rounds (structureRound bytes strings start) k ⟨1, .properties, start⟩ r₃ st r

theorem length_encodeAll_take_le (hd ls : List Lexeme) (j : ℕ) :
    (encodeAll (hd ++ ls.take j)).length ≤ (encodeAll (hd ++ ls)).length := by
  have h := congrArg List.length (encodeAll_append (ls.take j) (ls.drop j))
  rw [List.take_append_drop, List.length_append] at h
  simp only [encodeAll_append, List.length_append]
  omega

/-- The number of open nodes. -/
def ParseState.height : ParseState → ℕ
  | .inside _ outer => outer.length + 1
  | _ => 0

theorem Step.height_le {strings : Strings} {s s' : ParseState} {l : Lexeme}
    (h : Step strings s l s') : s'.height ≤ s.height + 1 := by
  cases h <;> simp [ParseState.height]

theorem Steps.height_le {strings : Strings} {s s' : ParseState} {ls : List Lexeme}
    (h : Steps strings s ls s') : s'.height ≤ s.height + ls.length := by
  induction h with
  | nil => simp
  | cons head _ ih =>
    have := head.height_le
    rw [List.length_cons]
    omega

section MainLoop

variable {bytes : List UInt8} {strings : Strings} {start k : ℕ} {st : LoopState} {r : Reader}

/-- What has been read up to some round, and up to every earlier one. -/
theorem MainLoop.tracks (h : MainLoop bytes strings start k st r) :
    ∃ hd ls s, start = (encodeAll hd).length ∧
      Steps strings .start hd (.inside ⟨[], [], []⟩ []) ∧ ls.length = k ∧ InLoop s ∧
      Tracks strings bytes hd ls r st s ∧
      ∀ j ≤ k, ∃ st₁ r₁ s₁, MainLoop bytes strings start j st₁ r₁ ∧ InLoop s₁ ∧
        Tracks strings bytes hd (ls.take j) r₁ st₁ s₁ ∧ Steps strings s₁ (ls.drop j) s := by
  obtain ⟨o, pad, r₁, r₂, r₃, h₁, h₂, h₃, rfl, hrounds⟩ := h
  obtain ⟨i, hstart, htr⟩ := tracks_start strings h₁ h₂ h₃
  have hloop : ∀ {j st' r'}, Rounds (structureRound bytes strings r₃.position) j
      ⟨1, .properties, r₃.position⟩ r₃ st' r' → MainLoop bytes strings r₃.position j st' r' :=
    fun hj => ⟨o, pad, r₁, r₂, r₃, h₁, h₂, h₃, rfl, hj⟩
  rw [hstart] at hrounds htr hloop
  obtain ⟨ls, s, hlen, hs, ht, -, hprev⟩ := Tracks.rounds hrounds (.inl ⟨_, _, rfl⟩) htr
  rw [hstart]
  refine ⟨_, ls, s, rfl, ?_, hlen, hs, ht, fun j hj => ?_⟩
  · exact (steps_nops .startNop (symbols_replicate_nop i)).snoc (.root pad)
  obtain ⟨st₁, r₄, s₁, hr, hs₁, ht₁, hst₁⟩ := hprev j hj
  exact ⟨st₁, r₄, s₁, hloop hr, hs₁, ht₁, hst₁⟩

theorem Tracks.depth_eq {hd ls : List Lexeme} {s : ParseState} (hs : InLoop s)
    (h : Tracks strings bytes hd ls r st s) : st.depth = s.height := by
  rcases hs with ⟨n, outer, rfl⟩ | ⟨t, rfl⟩
  · exact h.agrees.1
  · exact h.agrees

/-- Every open node has a token of its own. -/
theorem Tracks.depth_le {hd ls : List Lexeme} {s : ParseState} (hs : InLoop s)
    (hhd : Steps strings .start hd (.inside ⟨[], [], []⟩ [])) (h : Tracks strings bytes hd ls r st s) :
    st.depth ≤ bytes.length := by
  have hheight := (hhd.append h.steps).height_le
  have hlen := length_le_length_encodeAll (hd ++ ls)
  rw [h.depth_eq hs, h.bytes_eq, List.length_append]
  simp only [ParseState.height, Nat.zero_add] at hheight ⊢
  omega

/-- An open node remains until its end is read. -/
theorem Tracks.inside {hd ls : List Lexeme} {s : ParseState} (hs : InLoop s) (hd0 : 0 < st.depth)
    (h : Tracks strings bytes hd ls r st s) : ∃ n outer, s = .inside n outer := by
  rcases hs with h' | ⟨t, rfl⟩
  · exact h'
  · exact absurd (show st.depth = 0 from h.agrees) hd0.ne'

theorem InLoop.inside {ls : List Lexeme} {s : ParseState} {n : OpenNode}
    {outer : List OpenNode} (hs : InLoop s) (h : Steps strings s ls (.inside n outer)) :
    ∃ n outer, s = .inside n outer := by
  rcases hs with h' | ⟨t, rfl⟩
  · exact h'
  · exact absurd h not_steps_closed

/-- The bytes before the main loop, as the scans skip them. -/
theorem returns_readBytes_prefix {hd rest : List Lexeme} {tail : List UInt8}
    (hb : bytes = encodeAll (hd ++ rest) ++ tail) :
    ∃ r₀, Returns (Reader.readBytes (encodeAll hd).length) (Reader.new bytes) (encodeAll hd) r₀ ∧
      (Reader.new bytes).Consumes (encodeAll hd) r₀ := by
  rw [encodeAll_append, List.append_assoc] at hb
  obtain ⟨r₀, hc, -⟩ := Reader.exists_consumes (r := Reader.new bytes) hb
  exact ⟨r₀, Reader.returns_readBytes.mpr ⟨rfl, hc⟩, hc⟩

/-! ## The scans follow the main loop -/

/-- The scan for siblings of the node at `nodeOffset`, after `k` rounds of the main loop: it
returns; each of its rounds ends where the main loop was after as many rounds, at the depth the main
loop had there; and it stops at `nodeOffset`. -/
structure SiblingRescan (bytes : List UInt8) (strings : Strings) (start k nodeOffset depth : ℕ)
    (name : List UInt8) : Prop where
  returns : ∃ m, Returns (findPriorSiblingNode bytes start nodeOffset depth name) () m ()
  rounds : ∀ {skipped r₀ j d m r}, Returns (Reader.readBytes start) (Reader.new bytes) skipped r₀ →
    Rounds (siblingRound nodeOffset depth name) j (1, none) r₀ (d, m) r →
    0 < d ∧ d ≤ bytes.length ∧ r.position ≤ nodeOffset ∧
      j ≤ k ∧ ∃ st, MainLoop bytes strings start j st r ∧ st.depth = d
  stops : ∀ {skipped r₀ m r}, Returns (Reader.readBytes start) (Reader.new bytes) skipped r₀ →
    Returns (iterate (siblingRound nodeOffset depth name) (bytes.length + 1) (1, none)) r₀ m r →
    r.position = nodeOffset

/-- The scan of the properties of the current node up to `propertiesEnd`, after `k` rounds of the
main loop: it returns; each of its rounds ends where the main loop was after some round; every token
it reads but `FDT_NOP` is a property; and it stops at `propertiesEnd` unless it finds the name. -/
structure PropertyRescan (bytes : List UInt8) (strings : Strings)
    (start k propertiesStart propertiesEnd : ℕ) (name : List UInt8) : Prop where
  returns : ∃ m, Returns (findProperty bytes propertiesStart propertiesEnd name strings) () m ()
  rounds : ∀ {skipped r₀ j r},
    Returns (Reader.readBytes propertiesStart) (Reader.new bytes) skipped r₀ →
    Rounds (propertyRound propertiesEnd name strings) j () r₀ () r →
    r.position ≤ propertiesEnd ∧ (∃ i ≤ k, ∃ st, MainLoop bytes strings start i st r) ∧
      (r.position < propertiesEnd → ∀ {o t r'}, Returns readToken r (o, t) r' →
        t = .nop ∨ t = .property)
  stops : ∀ {skipped r₀ r},
    Returns (Reader.readBytes propertiesStart) (Reader.new bytes) skipped r₀ →
    Returns (iterate (propertyRound propertiesEnd name strings) (bytes.length + 1) ()) r₀ none r →
    r.position = propertiesEnd

theorem MainLoop.siblingRescan (h : MainLoop bytes strings start k st r) (hd0 : 0 < st.depth)
    (name : List UInt8) : SiblingRescan bytes strings start k r.position st.depth name := by
  obtain ⟨hd, ls, s, rfl, hroot, hlen, hs, htr, hprev⟩ := h.tracks
  obtain ⟨n, outer, rfl⟩ := htr.inside hs hd0
  obtain ⟨hdepth, -, -⟩ := htr.agrees
  obtain ⟨r₀, hskip, hc₀⟩ := returns_readBytes_prefix htr.bytes_eq
  have hr₀ : r₀.offset % 4 = 0 := by
    have := length_encodeAll_mod fun l hl => htr.wf l (List.mem_append_left _ hl)
    rw [hc₀.offset]
    simpa [Reader.new] using this
  -- the rounds over a prefix of the lexemes, from the start of the scan
  have hscan : ∀ {ls₁ n₁ outer₁ r₁}, (∀ l ∈ ls₁, l.WF) →
      Steps strings (.inside ⟨[], [], []⟩ []) ls₁ (.inside n₁ outer₁) →
      (Reader.new bytes).Consumes (encodeAll (hd ++ ls₁)) r₁ →
      r₁.position ≤ r.position →
      ∃ m, Rounds (siblingRound r.position st.depth name) ls₁.length (1, none) r₀
        (outer₁.length + 1, m) r₁ := by
    intro ls₁ n₁ outer₁ r₁ hwf hsteps hc hle
    rw [encodeAll_append] at hc
    obtain ⟨r₀', hc₀', hc₁⟩ := Reader.consumes_append.mp hc
    obtain rfl := hc₀.unique hc₀'
    obtain ⟨m, hm, -⟩ := rounds_siblingScan hd0 name hr₀ hsteps hwf hc₁ hle
    exact ⟨m, hm⟩
  have hwf : ∀ l ∈ ls, l.WF := fun l hl => htr.wf l (List.mem_append_right _ hl)
  obtain ⟨m, hall⟩ := hscan hwf htr.steps htr.consumed le_rfl
  have hexit : Returns (siblingRound r.position st.depth name (outer.length + 1, m)) r (.inr m) r :=
    returns_siblingRound_exit (le_refl r.position)
  refine ⟨?_, ?_, ?_⟩
  · obtain ⟨m, hm, -⟩ := returns_findPriorSiblingNode name () htr.steps htr.wf htr.bytes_eq
    rw [← hdepth, ← htr.position] at hm
    exact ⟨m, hm⟩
  · intro skipped r₀' j d m' r' hskip' hrounds
    obtain ⟨-, rfl⟩ := hskip.unique hskip'
    have hj : j ≤ k := hlen ▸ hall.le_of_exit hexit hrounds
    obtain ⟨st₁, r₁, s₁, hloop, hs₁, htr₁, hst₁⟩ := hprev j hj
    obtain ⟨n₁, outer₁, rfl⟩ := hs₁.inside hst₁
    have hle : r₁.position ≤ r.position := by
      rw [htr₁.position, htr.position]
      exact length_encodeAll_take_le _ ls j
    obtain ⟨m₁, hm₁⟩ := hscan (fun l hl => hwf l (List.mem_of_mem_take hl)) htr₁.steps
      htr₁.consumed hle
    rw [List.length_take, hlen, min_eq_left hj] at hm₁
    obtain ⟨heq, rfl⟩ := hm₁.unique hrounds
    cases heq
    have hd₁ : st₁.depth = outer₁.length + 1 := htr₁.agrees.1
    exact ⟨Nat.succ_pos _, hd₁ ▸ htr₁.depth_le hs₁ hroot, hle, hj, st₁, hloop, hd₁⟩
  · intro skipped r₀' m' r' hskip' hret
    obtain ⟨-, rfl⟩ := hskip.unique hskip'
    have hfuel : ls.length < bytes.length + 1 := by
      have := length_le_length_encodeAll (hd ++ ls)
      rw [htr.bytes_eq, List.length_append]
      rw [List.length_append] at this
      omega
    obtain ⟨-, rfl⟩ := (returns_iterate_of_rounds hall hexit hfuel).unique hret
    rfl

/-- The current properties start inside the root. -/
theorem Tracks.start_le {hd : List Lexeme} {st' : LoopState} {r' : Reader}
    (hr : Rounds (structureRound bytes strings (encodeAll hd).length) k st r st' r') :
    ∀ {ls : List Lexeme} {s : ParseState}, InLoop s → Tracks strings bytes hd ls r st s →
    (encodeAll hd).length ≤ st.propertiesStart → (encodeAll hd).length ≤ st'.propertiesStart := by
  induction hr with
  | zero => exact fun _ _ h => h
  | @succ k st st₁ st₂ r r₁ r₂ head _ ih =>
    rintro ls s (⟨n, outer, rfl⟩ | ⟨t, rfl⟩) h hle
    · obtain ⟨l, s', hx, hwf, hc, hstep⟩ := (returns_structureRound h).mp head
      cases hx
      have htr := h.step hstep hwf hc
      refine ih (.step hstep) htr ?_
      cases l with
      | beginNode =>
        simp only [LoopState.next, htr.position, encodeAll_append, List.length_append]
        omega
      | endNode => unfold LoopState.next; dsimp only; split <;> exact hle
      | _ => exact hle
    · exact absurd ((returns_structureRound_closed h).mp head).1 (by simp)

theorem MainLoop.start_le (h : MainLoop bytes strings start k st r) : start ≤ st.propertiesStart := by
  obtain ⟨o, pad, r₁, r₂, r₃, h₁, h₂, h₃, rfl, hrounds⟩ := h
  obtain ⟨i, hstart, htr⟩ := tracks_start strings h₁ h₂ h₃
  rw [hstart] at hrounds htr ⊢
  exact Tracks.start_le hrounds (.inl ⟨_, _, rfl⟩) htr le_rfl

theorem eq_nop_or_property {ls : List Lexeme} {ps : List PropertyEntry} {l : Lexeme}
    (h : symbols ls = ps.map .property) (hl : l ∈ ls) :
    l = .nop ∨ ∃ nameOffset value pad, l = .property nameOffset value pad := by
  have hmem : ∀ y, l.symbol = some y → ∃ p, y = .property p := by
    intro y hy
    have : y ∈ symbols ls := List.mem_filterMap.mpr ⟨l, hl, hy⟩
    rw [h] at this
    obtain ⟨p, -, rfl⟩ := List.mem_map.mp this
    exact ⟨p, rfl⟩
  cases l with
  | nop => exact .inl rfl
  | property nameOffset value pad => exact .inr ⟨nameOffset, value, pad, rfl⟩
  | _ =>
    obtain ⟨p, hp⟩ := hmem _ rfl
    cases hp

/-- Between properties and `FDT_NOP`s the next token is one of the two. -/
theorem token_of_consumes {ls : List Lexeme} {r' r'' : Reader} {o : ℕ} {t : Token}
    (hls : ∀ l ∈ ls, l = .nop ∨ ∃ nameOffset value pad, l = .property nameOffset value pad)
    (hc : r.Consumes (encodeAll ls) r') (hlt : r.position < r'.position)
    (ht : Returns readToken r (o, t) r'') : t = .nop ∨ t = .property := by
  cases ls with
  | nil =>
    obtain rfl := (Reader.Consumes.refl r).unique hc
    exact absurd hlt (lt_irrefl _)
  | cons l ls =>
    obtain ⟨r₁, h₁, -⟩ := Reader.consumes_append.mp hc
    rcases hls l List.mem_cons_self with rfl | ⟨nameOffset, value, pad, rfl⟩
    · have := returns_readToken.mpr ⟨rfl, h₁⟩
      exact .inl (congrArg Prod.snd (ht.unique this).1)
    · obtain ⟨r₂, h₂, -⟩ := Reader.consumes_append.mp h₁
      have := returns_readToken.mpr ⟨rfl, h₂⟩
      exact .inr (congrArg Prod.snd (ht.unique this).1)

/-- A prefix that takes as many bytes is as long. -/
theorem length_le_of_encodeAll {as bs as' bs' : List Lexeme} (h : as ++ bs = as' ++ bs')
    (hle : (encodeAll as).length ≤ (encodeAll as').length) : as.length ≤ as'.length := by
  rcases List.append_eq_append_iff.mp h with ⟨x, rfl, -⟩ | ⟨x, rfl, -⟩
  · simp
  · have := length_le_length_encodeAll x
    simp only [encodeAll_append, List.length_append] at hle ⊢
    omega

theorem MainLoop.propertyRescan (h : MainLoop bytes strings start k st r) (hd0 : 0 < st.depth)
    (hp : st.phase ≠ .children) (name : List UInt8) :
    PropertyRescan bytes strings start k st.propertiesStart r.position name := by
  have hle := h.start_le
  obtain ⟨hd, ls, s, rfl, hroot, hlen, hs, htr, hprev⟩ := h.tracks
  obtain ⟨n, outer, rfl⟩ := htr.inside hs hd0
  obtain ⟨before, props, he, hstart, hprops⟩ := htr.agrees.2.2 (htr.no_children hp)
  have hb := htr.bytes_eq
  have hwf := htr.wf
  have hcons := htr.consumed
  rw [← hstart] at hle ⊢
  rw [he] at hb hwf hcons
  obtain ⟨r₀, hskip, hc₀⟩ := returns_readBytes_prefix hb
  have hr₀ : r₀.offset % 4 = 0 := by
    have := length_encodeAll_mod fun l hl => hwf l (List.mem_append_left _ hl)
    rw [hc₀.offset]
    simpa [Reader.new] using this
  rw [encodeAll_append] at hcons
  obtain ⟨r₀', hc₀', hc₁⟩ := Reader.consumes_append.mp hcons
  obtain rfl := hc₀.unique hc₀'
  have hwf' : ∀ l ∈ props, l.WF := fun l hl => hwf l (List.mem_append_right _ hl)
  obtain ⟨passed, rest, m, r₁, r₂, rfl, hpassed, hc₂, hall, hexit, hm⟩ :=
    exists_propertyScan_exit name hprops htr.resolves hwf' hr₀ hc₁
  refine ⟨?_, ?_, ?_⟩
  · obtain ⟨m, hm, -⟩ := returns_findProperty bytes name () hprops htr.resolves hwf hb
    rw [← he, ← htr.position] at hm
    exact ⟨m, hm⟩
  · intro skipped r₀' j r' hskip' hrounds
    obtain ⟨-, rfl⟩ := hskip.unique hskip'
    have hj : j ≤ passed.length := hall.le_of_exit hexit hrounds
    -- the reader has passed over `j` lexemes of the properties
    have hsplit : passed = passed.take j ++ passed.drop j := (List.take_append_drop j passed).symm
    have hc₂' := hc₂
    rw [hsplit, encodeAll_append] at hc₂'
    obtain ⟨r₃, hc₃, hc₄⟩ := Reader.consumes_append.mp hc₂'
    have hle₃ : r₃.position ≤ r.position := by
      have h₁ := hc₃.offset
      have h₂ := hc₁.offset
      have h₃ := length_encodeAll_take_le [] passed j
      simp only [List.nil_append, encodeAll_append, List.length_append] at h₂ h₃
      simp only [Reader.position]
      omega
    have hr₃ := rounds_propertyScan (fun l hl => hpassed l (List.mem_of_mem_take hl))
      (fun l hl => hwf' l (List.mem_append_left _ (List.mem_of_mem_take hl))) hr₀ hc₃ hle₃
    rw [List.length_take, min_eq_left hj] at hr₃
    obtain ⟨-, rfl⟩ := hr₃.unique hrounds
    have hall' : (Reader.new bytes).Consumes (encodeAll (before ++ passed.take j)) r₃ := by
      rw [encodeAll_append]
      exact hc₀.trans hc₃
    refine ⟨hle₃, ?_, ?_⟩
    · -- the main loop was here after the lexemes of `before` and the first `j` properties
      have hbl := length_le_of_encodeAll he hle
      have hlens := congrArg List.length he
      simp only [List.length_append] at hlens
      obtain ⟨i, hi⟩ : ∃ i, hd.length + i = before.length + j :=
        ⟨before.length + j - hd.length, by omega⟩
      have hik : i ≤ k := by omega
      obtain ⟨st₁, r₄, s₁, hloop, -, htr₁, -⟩ := hprev i hik
      have heq : hd ++ ls.take i = before ++ passed.take j := by
        rw [← List.take_length_add_append, he, hi, List.take_length_add_append,
          List.take_append_of_le_length hj]
      obtain rfl := hall'.unique (heq ▸ htr₁.consumed)
      exact ⟨i, hik, st₁, hloop⟩
    · intro hlt o t r' ht
      have hc₅ : r₀.Consumes (encodeAll (passed.take j) ++ encodeAll (passed.drop j ++ rest)) r := by
        rw [← encodeAll_append, ← List.append_assoc, List.take_append_drop]
        exact hc₁
      obtain ⟨r₅, hc₆, hc₇⟩ := Reader.consumes_append.mp hc₅
      obtain rfl := hc₃.unique hc₆
      refine token_of_consumes (fun l hl => eq_nop_or_property hprops ?_) hc₇ hlt ht
      rcases List.mem_append.mp hl with hl | hl
      · exact List.mem_append_left _ (List.mem_of_mem_drop hl)
      · exact List.mem_append_right _ hl
  · intro skipped r₀' r' hskip' hret
    obtain ⟨-, rfl⟩ := hskip.unique hskip'
    have hfuel : passed.length < bytes.length + 1 := by
      have := length_le_length_encodeAll (before ++ (passed ++ rest))
      rw [hb, List.length_append]
      rw [List.length_append, List.length_append] at this
      omega
    obtain ⟨rfl, rfl⟩ := (returns_iterate_of_rounds hall hexit hfuel).unique hret
    rcases hm with ⟨-, rfl, -⟩ | ⟨hm, -⟩
    · rfl
    · cases hm

end MainLoop

/-- **The validator is total and its scans cannot fail.** On any bytes it returns or reports an
error; in every round of its main loop the depth is within the block, and the scans made at a node
or at a property of a round return and follow the rounds before. -/
theorem structure_new_total (bytes : List UInt8) (strings : Strings) :
    ((∃ st, Returns (Structure.new bytes strings) () st ()) ∨
      ∃ e, Fails (Structure.new bytes strings) () e ()) ∧
    ∀ start k st r, MainLoop bytes strings start k st r → st.depth ≤ bytes.length ∧
      ∀ tokenOffset r', 0 < st.depth →
        (Returns readToken r (tokenOffset, .beginNode) r' →
          ∀ name, SiblingRescan bytes strings start k tokenOffset st.depth name) ∧
        (Returns readToken r (tokenOffset, .property) r' → st.phase ≠ .children →
          ∀ name, PropertyRescan bytes strings start k st.propertiesStart tokenOffset name) := by
  refine ⟨?_, fun start k st r h => ⟨?_, fun tokenOffset r' hd => ⟨fun ht name => ?_,
    fun ht hp name => ?_⟩⟩⟩
  · obtain ⟨⟨e | st, ⟨⟩⟩, h⟩ := safe_structureNew bytes strings ()
    · exact .inr ⟨e, h⟩
    · exact .inl ⟨st, h⟩
  · obtain ⟨hd, ls, s, -, hroot, -, hs, htr, -⟩ := h.tracks
    exact htr.depth_le hs hroot
  · obtain ⟨rfl, -⟩ := returns_readToken.mp ht
    exact h.siblingRescan hd name
  · obtain ⟨rfl, -⟩ := returns_readToken.mp ht
    exact h.propertyRescan hd hp name

/-- A root with two children called `c`. -/
def twinBlock : List UInt8 := encodeAll
  [.beginNode [] [0, 0, 0], .beginNode [99] [0, 0], .endNode, .beginNode [99] [0, 0], .endNode,
    .endNode, .fdtEnd]

/-- The reader of `twinBlock`. -/
def twinReader (offset : ℕ) (h : offset ≤ 40) : Reader := ⟨twinBlock, offset, h⟩

/-- At the second child of `twinBlock` the scan for siblings returns and stops there. -/
theorem structure_new_total_twins : SiblingRescan twinBlock ⟨[]⟩ 8 2 20 1 [99] := by
  have hfirst : Returns (structureRound twinBlock ⟨[]⟩ 8 ⟨1, .properties, 8⟩) (twinReader 8 (by simp))
      (.inl ⟨2, .properties, 16⟩) (twinReader 16 (by simp)) := rfl
  have hsecond : Returns (structureRound twinBlock ⟨[]⟩ 8 ⟨2, .properties, 16⟩)
      (twinReader 16 (by simp)) (.inl ⟨1, .children, 16⟩) (twinReader 20 (by simp)) :=
    rfl
  have hloop : MainLoop twinBlock ⟨[]⟩ 8 2 ⟨1, .children, 16⟩ (twinReader 20 (by simp)) := by
    refine ⟨0, [0, 0, 0], twinReader 4 (by simp), twinReader 5 (by simp), twinReader 8 (by simp),
      ?_, ?_, ?_, rfl, .succ hfirst (.succ hsecond (.zero _ _))⟩
    · rfl
    · rfl
    · rfl
  exact (((structure_new_total twinBlock ⟨[]⟩).2 8 2 _ _ hloop).2 20 (twinReader 24 (by simp))
    (by decide)).1 rfl [99]

/-! ## What the errors say -/

/-- The first `offset` bytes are the lexemes `ls`, which break no rule; the node `n` is then the
innermost open one, inside the nodes `outer`; and some continuation of these bytes is accepted. -/
structure ReadTo (strings : Strings) (bytes : List UInt8) (offset : ℕ) (ls : List Lexeme)
    (n : OpenNode) (outer : List OpenNode) : Prop where
  wf : ∀ l ∈ ls, l.WF
  offset_eq : offset = (encodeAll ls).length
  bytes_eq : bytes.take offset = encodeAll ls
  steps : Steps strings .start ls (.inside n outer)
  completes : ∃ rest, Returns (Structure.new (bytes.take offset ++ rest) strings) ()
    ⟨bytes.take offset ++ rest⟩ ()

/-- The lexeme `l` stands at `offset`. -/
def LexemeAt (bytes : List UInt8) (offset : ℕ) (l : Lexeme) : Prop :=
  l.WF ∧ ∃ rest, bytes.drop offset = l.encode ++ rest

/-- The token `t` stands at `offset`. -/
def TokenAt (bytes : List UInt8) (offset : ℕ) (t : Token) : Prop :=
  ∃ rest, bytes.drop offset = toBE 4 t.value ++ rest

/-- Two children of one node, at depth `parentDepth`, begin at `first` and at `duplicate` with the
same name: the tokens in between are those of siblings, the first of which begins at `first`. -/
def DuplicateNode (strings : Strings) (bytes : List UInt8) (first duplicate parentDepth : ℕ) : Prop :=
  ∃ name pad pad' before between parent outer c cs, first < duplicate ∧
    LexemeAt bytes first (.beginNode name pad) ∧ LexemeAt bytes duplicate (.beginNode name pad') ∧
    outer.length + 1 = parentDepth ∧ ReadTo strings bytes first before parent outer ∧
    ReadTo strings bytes duplicate (before ++ .beginNode name pad :: between)
      { parent with children := parent.children ++ c :: cs } outer ∧
    symbols (.beginNode name pad :: between) = Tree.forest (c :: cs) ∧ c.name = name

/-- Two properties of one node, at depth `depth`, stand at `first` and at `duplicate` and resolve to
the same name, the first of them being the first of that name. -/
def DuplicateProperty (strings : Strings) (bytes : List UInt8)
    (first duplicate nameOffset depth : ℕ) : Prop :=
  ∃ name p pad value pad' before between node outer ps, first < duplicate ∧
    LexemeAt bytes first (.property p.nameOffset p.value pad) ∧
    LexemeAt bytes duplicate (.property nameOffset value pad') ∧
    strings.Resolves p.nameOffset name ∧ strings.Resolves nameOffset name ∧
    outer.length + 1 = depth ∧ node.children = [] ∧ ReadTo strings bytes first before node outer ∧
    ReadTo strings bytes duplicate (before ++ .property p.nameOffset p.value pad :: between)
      { node with properties := node.properties ++ p :: ps } outer ∧
    symbols between = ps.map .property ∧ ∀ q ∈ node.properties, ¬ strings.Resolves q.nameOffset name

/-- What an error says about the block. -/
def Explained (strings : Strings) (bytes : List UInt8) : StructureError → Prop
  | .duplicateNodeName first duplicate parentDepth =>
    DuplicateNode strings bytes first duplicate parentDepth
  | .duplicatePropertyName first duplicate nameOffset depth =>
    DuplicateProperty strings bytes first duplicate nameOffset depth
  | .propertyAfterChild offset depth => ∃ ls n outer, ReadTo strings bytes offset ls n outer ∧
      outer.length + 1 = depth ∧ n.children ≠ [] ∧ TokenAt bytes offset .property
  | .prematureEnd offset depth => ∃ ls n outer, ReadTo strings bytes offset ls n outer ∧
      outer.length + 1 = depth ∧ TokenAt bytes offset .fdtEnd
  | .trailingData offset remaining =>
    Returns (Structure.new (bytes.take offset) strings) () ⟨bytes.take offset⟩ () ∧
      remaining = bytes.length - offset ∧ 0 < remaining
  | _ => True

/-! ### The prefix before an error -/

section Prefix

variable {strings : Strings} {bytes rest : List UInt8} {ls : List Lexeme} {n : OpenNode}
  {outer : List OpenNode}

/-- The open nodes can be closed. -/
theorem Steps.completes {s : ParseState} : ∀ {n : OpenNode} {ls : List Lexeme},
    Steps strings s ls (.inside n outer) → ∃ ls' t, (∀ l ∈ ls', l.WF) ∧
      Steps strings s (ls ++ ls' ++ [.fdtEnd]) (.done t) := by
  induction outer with
  | nil =>
    intro n ls h
    refine ⟨[.endNode], n.close, fun l hl => ?_, (h.snoc (.endRoot n)).snoc (.stop _)⟩
    rw [List.mem_singleton.mp hl]
    trivial
  | cons p outer ih =>
    intro n ls h
    obtain ⟨ls', t, hwf, hs⟩ := ih (h.snoc (.endInner n p outer))
    refine ⟨.endNode :: ls', t, List.forall_mem_cons.mpr ⟨trivial, hwf⟩, ?_⟩
    rwa [List.append_cons ls .endNode ls']

theorem readTo_of_steps (hwf : ∀ l ∈ ls, l.WF) (hb : bytes = encodeAll ls ++ rest)
    (hs : Steps strings .start ls (.inside n outer)) :
    ReadTo strings bytes (encodeAll ls).length ls n outer where
  wf := hwf
  offset_eq := rfl
  bytes_eq := by rw [hb, List.take_left]
  steps := hs
  completes := by
    obtain ⟨ls', t, hwf', hs'⟩ := hs.completes
    refine ⟨encodeAll (ls' ++ [.fdtEnd]), ?_⟩
    rw [returns_structureNew]
    refine ⟨rfl, rfl, ls ++ ls', t, ?_, ?_, hs'⟩
    · intro l hl
      rcases List.mem_append.mp hl with h | h
      · exact hwf l h
      · exact hwf' l h
    · rw [hb, List.take_left, List.append_assoc, ← encodeAll_append]

theorem length_encodeAll_lt (ls : List Lexeme) (l : Lexeme) (after : List Lexeme) :
    (encodeAll ls).length < (encodeAll (ls ++ l :: after)).length := by
  have := l.four_le_length_encode
  rw [encodeAll_append, encodeAll_cons, List.length_append, List.length_append]
  omega

theorem lexemeAt_of_append {l : Lexeme} {after : List Lexeme} (hl : l.WF)
    (hb : bytes = encodeAll (ls ++ l :: after) ++ rest) :
    LexemeAt bytes (encodeAll ls).length l := by
  refine ⟨hl, encodeAll after ++ rest, ?_⟩
  rw [hb, encodeAll_append, List.append_assoc, List.drop_left, encodeAll_cons, List.append_assoc]

/-- Reading properties and `FDT_NOP`s adds these properties to the innermost node. -/
theorem Steps.properties {s : ParseState} : ∀ {ps : List PropertyEntry} {n : OpenNode},
    Steps strings (.inside n outer) ls s → symbols ls = ps.map .property →
    s = .inside { n with properties := n.properties ++ ps } outer := by
  induction ls with
  | nil =>
    intro ps n h hsym
    obtain rfl : ps = [] := by simpa [symbols] using hsym.symm
    cases h
    simp
  | cons l ls ih =>
    intro ps n h hsym
    cases h with
    | cons head tail =>
      cases head with
      | insideNop => exact ih tail hsym
      | @property _ _ nameOffset value pad name first =>
        cases ps with
        | nil => simp [symbols, Lexeme.symbol] at hsym
        | cons p ps =>
          obtain ⟨rfl, hsym'⟩ : ⟨nameOffset, value⟩ = p ∧ symbols ls = ps.map .property := by
            simpa [symbols, Lexeme.symbol] using hsym
          rw [ih tail hsym']
          simp [OpenNode.addProperty]
      | _ => cases ps <;> simp [symbols, Lexeme.symbol] at hsym

/-- What was read since the parent had fewer children are these children. -/
theorem symbols_of_children {before after : List Lexeme} {s : ParseState} {p : OpenNode}
    {cs : List Tree} (hb : Steps strings s before (.inside p outer))
    (h : Steps strings s (before ++ after)
      (.inside { p with children := p.children ++ cs } outer)) :
    symbols after = Tree.forest cs := by
  have h₁ := hb.symbols_eq
  have h₂ := h.symbols_eq
  rw [show symbols (before ++ after) = symbols before ++ symbols after from List.filterMap_append,
    ← List.append_assoc, ← h₁] at h₂
  simp only [ParseState.symbols, OpenNode.symbols, Tree.forest_append, List.append_assoc,
    List.cons_append] at h₂
  simpa using h₂.symm

end Prefix

/-! ### The errors of a round -/

section Errors

variable {strings : Strings} {bytes : List UInt8} {hd ls : List Lexeme} {r r' : Reader}
  {st : LoopState} {n : OpenNode} {outer : List OpenNode} {e : StructureError}

theorem explained_readToken (h : Fails readToken r e r') : Explained strings bytes e := by
  simp only [readToken, fails_bind, fails_get, false_or, fails_mapError, fails_ofExcept_iff,
    fails_pure, and_false, exists_false, or_false] at h
  obtain ⟨_, _, -, ⟨e', -, rfl⟩ | ⟨v, r₁, -, hp, -⟩⟩ := h
  · trivial
  · revert hp
    unfold Token.parse
    split_ifs <;> intro hp <;> cases hp
    trivial

theorem explained_readNonNopToken (h : Fails readNonNopToken r e r') : Explained strings bytes e := by
  rw [readNonNopToken_eq, fails_bind] at h
  rcases h with h | ⟨_, _, -, h⟩
  · simp at h
  · obtain ⟨k, _, r₁, -, h⟩ := exists_rounds_of_fails h
    rw [nonNopRound, fails_bind] at h
    rcases h with h | ⟨⟨o, t⟩, r₂, -, h⟩
    · exact explained_readToken h
    · dsimp only at h
      split at h <;> simp at h

/-- What has been read before a round. -/
theorem Tracks.readTo (hroot : Steps strings .start hd (.inside ⟨[], [], []⟩ []))
    (h : Tracks strings bytes hd ls r st (.inside n outer)) :
    ReadTo strings bytes r.position (hd ++ ls) n outer := by
  rw [h.position]
  exact readTo_of_steps h.wf h.bytes_eq (hroot.append h.steps)

theorem Tracks.drop_eq {s : ParseState} (h : Tracks strings bytes hd ls r st s) :
    bytes.drop r.position = r.remainingBytes := by
  rw [Reader.remainingBytes, h.reader_bytes]
  rfl

theorem Tracks.tokenAt {s : ParseState} {t : Token} (h : Tracks strings bytes hd ls r st s)
    (ht : r.Consumes (toBE 4 t.value) r') : TokenAt bytes r.position t :=
  ⟨r'.remainingBytes, by rw [h.drop_eq, ht.rest]⟩

theorem Tracks.lexemeAt {s : ParseState} {l : Lexeme} (h : Tracks strings bytes hd ls r st s)
    (hl : l.WF) (hc : r.Consumes l.encode r') : LexemeAt bytes r.position l :=
  ⟨hl, r'.remainingBytes, by rw [h.drop_eq, hc.rest]⟩

theorem duplicateNode_of_located {name pad : List UInt8} {offset : ℕ}
    (hroot : Steps strings .start hd (.inside ⟨[], [], []⟩ []))
    (h : Tracks strings bytes hd ls r st (.inside n outer))
    (hl : LexemeAt bytes r.position (.beginNode name pad))
    (hloc : Located strings (outer.length + 1) name (encodeAll hd).length ls n outer offset) :
    DuplicateNode strings bytes offset r.position (outer.length + 1) := by
  have hto := h.readTo hroot
  obtain ⟨before, pad', after, p, around, cs, rfl, rfl, hs, hdrop⟩ := hloc
  rw [Nat.sub_self, List.drop_zero] at hdrop
  obtain ⟨rfl, rfl⟩ := List.cons.inj hdrop
  have hsym := symbols_of_children hs h.steps
  obtain ⟨c, cs', rfl⟩ : ∃ c cs', cs = c :: cs' := by
    cases cs with
    | nil => simp [symbols, Lexeme.symbol, Tree.forest] at hsym
    | cons c cs' => exact ⟨c, cs', rfl⟩
  have hname : c.name = name := by
    obtain ⟨cname, cps, ccs⟩ := c
    simp only [symbols, Lexeme.symbol, List.filterMap_cons, Tree.forest, Tree.symbols,
      List.cons_append, List.cons.injEq, Symbol.opening.injEq] at hsym
    exact hsym.1.symm
  have hwf : ∀ l ∈ hd ++ before, l.WF := by
    intro l hl
    apply h.wf
    rw [← List.append_assoc]
    exact List.mem_append_left _ hl
  have hb := h.bytes_eq
  rw [← List.append_assoc] at hb hto
  have hb' := hb
  rw [encodeAll_append, List.append_assoc] at hb'
  have hfirst : (encodeAll hd).length + (encodeAll before).length =
      (encodeAll (hd ++ before)).length := by
    rw [encodeAll_append, List.length_append]
  rw [hfirst]
  exact ⟨name, pad', pad, hd ++ before, after, p, outer, c, cs',
    hto.offset_eq ▸ length_encodeAll_lt (hd ++ before) _ after,
    lexemeAt_of_append (h.wf _ (by simp)) hb, hl, rfl,
    readTo_of_steps hwf hb' (hroot.append hs), hto, hsym, hname⟩

theorem duplicateProperty_of_first {name value pad : List UInt8}
    {before props passed : List Lexeme} {nameOffset : ℕ}
    (hroot : Steps strings .start hd (.inside ⟨[], [], []⟩ []))
    (h : Tracks strings bytes hd ls r st (.inside n outer)) (he : hd ++ ls = before ++ props)
    (hprops : symbols props = n.properties.map .property)
    (hl : LexemeAt bytes r.position (.property nameOffset value pad))
    (hres : strings.Resolves nameOffset name)
    (hfirst : FirstProperty strings name props passed) :
    DuplicateProperty strings bytes (encodeAll (before ++ passed)).length r.position nameOffset
      (outer.length + 1) := by
  have hto := h.readTo hroot
  have hb := h.bytes_eq
  have hwf := h.wf
  have hvalid := stackValid_head (hto.steps.valid trivial)
  obtain ⟨-, nameOffset', value', pad', after, rfl, hpr⟩ := hfirst
  rw [he, ← List.append_assoc] at hto hb hwf
  obtain ⟨s', hs, hs'⟩ := hto.steps.append_inv
  cases hs' with
  | cons head tail =>
    cases head with
    | @property node outer₀ _ _ _ _ first _ fresh =>
      -- from the first property on there are only properties
      obtain ⟨qs, ps', hn, hqs, hps'⟩ := List.map_eq_append_iff.mp
        (hprops.symm.trans (List.filterMap_append (l := passed)))
      obtain ⟨p, ps, rfl, hp, hps⟩ := List.map_eq_cons_iff.mp
        (hps'.trans (List.filterMap_cons_some (f := Lexeme.symbol) rfl))
      have hstate := tail.properties hps.symm
      obtain ⟨rfl, rfl⟩ := ParseState.inside.inj hstate
      have hb' := hb
      rw [encodeAll_append, List.append_assoc] at hb'
      have hnode : ({ node.addProperty ⟨nameOffset', value'⟩ with
          properties := (node.addProperty ⟨nameOffset', value'⟩).properties ++ ps } : OpenNode) =
          { node with properties := node.properties ++ ⟨nameOffset', value'⟩ :: ps } := by
        simp [OpenNode.addProperty]
      rw [hnode] at hto hvalid
      refine ⟨name, ⟨nameOffset', value'⟩, pad', value, pad, before ++ passed, after, node, outer,
        ps, hto.offset_eq ▸ length_encodeAll_lt (before ++ passed) _ after,
        lexemeAt_of_append (hwf _ (by simp)) hb, hl, hpr, hres, rfl, first,
        readTo_of_steps (fun l hl => hwf l (List.mem_append_left _ hl)) hb' hs, hto, hps.symm, ?_⟩
      intro q hq hqr
      rcases hvalid with @⟨_, _, _, -, hdistinct, -, -, -⟩
      exact (List.pairwise_append.mp hdistinct).2.2 q hq _ List.mem_cons_self name hqr hpr

theorem explained_validateProperty {r₁ : Reader}
    (hroot : Steps strings .start hd (.inside ⟨[], [], []⟩ []))
    (h : Tracks strings bytes hd ls r st (.inside n outer)) (hn : n.children = [])
    (ht : r.Consumes (toBE 4 Token.property.value) r₁)
    (hf : Fails (validateProperty bytes strings st.propertiesStart r.position (outer.length + 1))
      r₁ e r') : Explained strings bytes e := by
  obtain ⟨before, props, he, hstart, hprops⟩ := h.agrees.2.2 hn
  have hr₁ := ht.offset_mod h.offset_mod
  simp only [validateProperty, fails_bind, fails_mapError, returns_mapError,
    Strings.returns_validatePropertyName] at hf
  rcases hf with ⟨e', -, rfl⟩ | ⟨length, r₂, h₁, ⟨e', -, rfl⟩ | ⟨nameOffset, r₃, h₂,
    ⟨e', -, rfl⟩ | ⟨name, _, ⟨hres, rfl⟩, ⟨e', -, rfl⟩ | ⟨value, r₄, h₃, ⟨e', -, rfl⟩ |
      ⟨pad, r₅, h₄, hf⟩⟩⟩⟩⟩
  · trivial
  · trivial
  · trivial
  · trivial
  · trivial
  · obtain ⟨rfl, hwf, ho⟩ := (returns_propertyOperands hr₁).mp ⟨r₂, _, r₄, h₁, h₂, h₃, h₄⟩
    obtain ⟨m, hm, -, hfirst⟩ := returns_findProperty bytes name r₅ hprops h.resolves (he ▸ h.wf)
      (he ▸ h.bytes_eq)
    rw [hstart, ← he, ← h.position] at hm
    rcases hf with hf | ⟨m', r₆, hm', hf⟩
    · exact absurd hf hm.not_fails
    · obtain ⟨rfl, rfl⟩ := hm.unique hm'
      cases m with
      | none => simp at hf
      | some offset =>
        obtain ⟨rfl, -⟩ := fails_fail_iff.mp hf
        obtain ⟨passed, hpassed, rfl⟩ := hfirst offset rfl
        exact duplicateProperty_of_first hroot h he hprops (h.lexemeAt hwf (ht.trans ho)) hres hpassed

/-- **The errors of a round** are true of the block. -/
theorem explained_structureRound (hroot : Steps strings .start hd (.inside ⟨[], [], []⟩ []))
    (h : Tracks strings bytes hd ls r st (.inside n outer))
    (hf : Fails (structureRound bytes strings (encodeAll hd).length st) r e r') :
    Explained strings bytes e := by
  obtain ⟨hdepth, hphase, -⟩ := h.agrees
  rw [structureRound, if_pos (show st.depth > 0 by omega), fails_bind] at hf
  rcases hf with hf | ⟨⟨offset, t⟩, r₁, ht, hf⟩
  · exact explained_readToken hf
  obtain ⟨rfl, hc⟩ := returns_readToken.mp ht
  have hr₁ := hc.offset_mod h.offset_mod
  rw [hdepth] at hf
  cases t with
  | beginNode =>
    simp only [fails_bind, fails_get, false_or, returns_get, fails_mapError, returns_mapError,
      fails_ofExcept_iff, returns_ofExcept] at hf
    obtain ⟨_, _, ⟨rfl, rfl⟩, ⟨e', -, rfl⟩ | ⟨name, r₂, h₁, ⟨hv, -⟩ | ⟨_, _, ⟨hv, rfl⟩,
      ⟨e', -, rfl⟩ | ⟨pad, r₃, h₂, hf⟩⟩⟩⟩ := hf
    · trivial
    · revert hv
      cases validateNodeName name <;> intro hv <;> cases hv
      trivial
    · trivial
    · obtain ⟨hwf, ho⟩ := (returns_nodeOperands hr₁).mp ⟨_, h₁, h₂⟩
      obtain ⟨m, hm, -, hloc⟩ := returns_findPriorSiblingNode name r₃ h.steps h.wf h.bytes_eq
      rw [← h.position] at hm
      rcases hf with hf | ⟨m', r₄, hm', hf⟩
      · exact absurd hf hm.not_fails
      · obtain ⟨rfl, rfl⟩ := hm.unique hm'
        cases m with
        | none => simp [fails_bind] at hf
        | some offset =>
          obtain ⟨rfl, -⟩ := fails_fail_iff.mp hf
          exact duplicateNode_of_located hroot h (h.lexemeAt hwf (hc.trans ho)) (hloc offset rfl)
  | endNode =>
    dsimp only at hf
    split at hf <;> simp at hf
  | property =>
    dsimp only at hf
    split at hf
    · rename_i hp
      obtain ⟨rfl, -⟩ := fails_fail_iff.mp hf
      refine ⟨hd ++ ls, n, outer, h.readTo hroot, rfl, fun hn => ?_, h.tokenAt hc⟩
      rw [hphase.mpr hn] at hp
      cases hp
    · rename_i hp
      rw [fails_bind] at hf
      rcases hf with hf | ⟨_, _, -, hf⟩
      · exact explained_validateProperty hroot h (h.no_children hp) hc hf
      · simp at hf
  | nop => simp at hf
  | fdtEnd =>
    obtain ⟨rfl, -⟩ := fails_fail_iff.mp hf
    exact ⟨hd ++ ls, n, outer, h.readTo hroot, rfl, h.tokenAt hc⟩

end Errors

/-! ### The errors of the validator -/

theorem explained_structureNew {strings : Strings} {bytes : List UInt8} {e : StructureError}
    (h : Fails (Structure.new bytes strings) () e ()) : Explained strings bytes e := by
  obtain ⟨-, r', h⟩ := fails_onLocal.mp h
  rw [fails_bind] at h
  rcases h with h | ⟨⟨o, t⟩, r₁, h₁, h⟩
  · exact explained_readNonNopToken h
  dsimp only at h
  split at h
  · obtain ⟨rfl, -⟩ := fails_fail_iff.mp h
    trivial
  obtain rfl : t = .beginNode := not_not.mp ‹_›
  simp only [fails_bind, fails_get, false_or, returns_get, fails_mapError, returns_mapError] at h
  obtain ⟨_, r₁, ⟨rfl, rfl⟩, ⟨e', -, rfl⟩ | ⟨b, r₂, h₂, h⟩⟩ := h
  · trivial
  split at h
  · obtain ⟨rfl, -⟩ := fails_fail_iff.mp h
    trivial
  obtain rfl : b = 0 := not_not.mp ‹_›
  simp only [fails_bind, fails_get, false_or, returns_get, fails_mapError, returns_mapError] at h
  obtain ⟨e', -, rfl⟩ | ⟨pad, _, h₃, _, r₃, ⟨rfl, rfl⟩, h⟩ := h
  · trivial
  obtain ⟨k, hstart, htr⟩ := tracks_start strings h₁ h₂ h₃
  have hroot : Steps strings .start (List.replicate k .nop ++ [.beginNode [] pad])
      (.inside ⟨[], [], []⟩ []) :=
    (steps_nops .startNop (symbols_replicate_nop k)).snoc (.root pad)
  rw [hstart] at h htr
  rcases h with h | ⟨_, r₄, h₄, h⟩
  · obtain ⟨j, st, r₄, hrounds, hf⟩ := exists_rounds_of_fails h
    obtain ⟨ls, s, -, ⟨n, outer, rfl⟩ | ⟨t, rfl⟩, htr', -⟩ :=
      Tracks.rounds hrounds (.inl ⟨_, _, rfl⟩) htr
    · exact explained_structureRound hroot htr' hf
    · exact absurd hf ((returns_structureRound_closed htr').mpr ⟨rfl, rfl⟩).not_fails
  obtain ⟨ls, t, st', htr'⟩ := structureLoop_sound (.inl ⟨_, _, rfl⟩) htr h₄
  rcases h with h | ⟨⟨o', t'⟩, r₅, h₅, h⟩
  · exact explained_readNonNopToken h
  dsimp only at h
  split at h
  · obtain ⟨rfl, -⟩ := fails_fail_iff.mp h
    trivial
  obtain rfl : t' = .fdtEnd := not_not.mp ‹_›
  simp only [fails_bind, fails_get, false_or, returns_get] at h
  obtain ⟨_, r₅, ⟨rfl, rfl⟩, h⟩ := h
  split at h
  · rename_i hrem
    obtain ⟨rfl, -⟩ := fails_fail_iff.mp h
    obtain ⟨ls', hwf, hc, hs⟩ := tracks_end htr' h₅
    have hb : bytes = encodeAll (ls' ++ [.fdtEnd]) ++ r₅.remainingBytes := hc.rest
    have hpos : r₅.position = (encodeAll (ls' ++ [.fdtEnd])).length := by
      rw [Reader.position, hc.offset]
      simp [Reader.new]
    refine ⟨?_, ?_, Nat.pos_of_ne_zero hrem⟩
    · rw [returns_structureNew]
      refine ⟨rfl, rfl, ls', t, hwf, ?_, hs⟩
      rw [hpos, hb, List.take_left]
    · rw [Reader.remaining, hc.bytes]
      rfl
  · simp at h

/-- **Structure diagnostics name the real violation.** Of the errors that `Structure::new` reports,
those about duplicates, about a property after a child, about an early `FDT_END` and about data
after it are true of the block, and what stands before the reported offset breaks no rule. -/
theorem structure_diagnostics (bytes : List UInt8) (strings : Strings) :
    (∀ f d p, Fails (Structure.new bytes strings) () (.duplicateNodeName f d p) () →
      DuplicateNode strings bytes f d p) ∧
    (∀ f d nameOffset depth,
      Fails (Structure.new bytes strings) () (.duplicatePropertyName f d nameOffset depth) () →
      DuplicateProperty strings bytes f d nameOffset depth) ∧
    (∀ offset depth, Fails (Structure.new bytes strings) () (.propertyAfterChild offset depth) () →
      ∃ ls n outer, ReadTo strings bytes offset ls n outer ∧ outer.length + 1 = depth ∧
        n.children ≠ [] ∧ TokenAt bytes offset .property) ∧
    (∀ offset depth, Fails (Structure.new bytes strings) () (.prematureEnd offset depth) () →
      ∃ ls n outer, ReadTo strings bytes offset ls n outer ∧ outer.length + 1 = depth ∧
        TokenAt bytes offset .fdtEnd) ∧
    (∀ offset remaining,
      Fails (Structure.new bytes strings) () (.trailingData offset remaining) () →
      Returns (Structure.new (bytes.take offset) strings) () ⟨bytes.take offset⟩ () ∧
        remaining = bytes.length - offset ∧ 0 < remaining) :=
  ⟨fun _ _ _ h => explained_structureNew h, fun _ _ _ _ h => explained_structureNew h,
    fun _ _ h => explained_structureNew h, fun _ _ h => explained_structureNew h,
    fun _ _ h => explained_structureNew h⟩

/-- The second child of `twinBlock` is reported, and the first. -/
theorem structure_diagnostics_twins : DuplicateNode ⟨[]⟩ twinBlock 8 20 1 :=
  (structure_diagnostics twinBlock ⟨[]⟩).1 8 20 1 (by rfl)

end Barebone.Devicetree

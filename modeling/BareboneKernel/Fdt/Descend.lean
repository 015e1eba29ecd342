import BareboneKernel.Fdt.Navigate

/-!
# Descendants and children

`Children` and `Descendants` read the same lexemes with the same depth counter and differ in the
depths at which they yield.

* `Closes d ls`: from depth `d` below a node the lexemes `ls` lead to the end of the node;
* `scan yields strings rest d ls`: the nodes that begin among them at the depths that `yields`
  selects; `NodeIter.yields_scan`: an iterator yields its scan;
* `behind d ls`: what follows the end of the node entered last. A scan from a depth splits there
  (`scan_all_add`, `scan_direct_add`);
* `preorder`: the nodes below a node, by its children, their children and so on;
* `Reached`: the nodes obtained from the root of a block by the views;
* **`descendants_eq_preorder`**: from each of them `Descendants` yields that flattening.
-/

set_option autoImplicit false

namespace Barebone.Devicetree

open Exec

variable {σ ε : Type}

/-! ## The lexemes of a node -/

/-- From depth `d` below a node the lexemes lead to the end of the node. -/
def Closes : ℕ → List Lexeme → Prop
  | _, [] => False
  | d, .beginNode _ _ :: ls => Closes (d + 1) ls
  | 0, .endNode :: _ => True
  | d + 1, .endNode :: ls => Closes d ls
  | d, .property _ _ _ :: ls => Closes d ls
  | d, .nop :: ls => Closes d ls
  | _, .fdtEnd :: _ => False

/-- The nodes that begin among the lexemes of a node at the depths that `yields` selects; `rest`
follows the lexemes. -/
def scan (yields : ℕ → Bool) (strings : Strings) (rest : List UInt8) : ℕ → List Lexeme → List Node
  | _, [] => []
  | d, .beginNode name _ :: ls =>
    if yields d then ⟨name, encodeAll ls ++ rest, strings⟩ :: scan yields strings rest (d + 1) ls
    else scan yields strings rest (d + 1) ls
  | 0, .endNode :: _ => []
  | d + 1, .endNode :: ls => scan yields strings rest d ls
  | d, .property _ _ _ :: ls => scan yields strings rest d ls
  | d, .nop :: ls => scan yields strings rest d ls
  | _, .fdtEnd :: _ => []

/-- What follows the end of the node that lies `d` levels up. -/
def behind : ℕ → List Lexeme → List Lexeme
  | _, [] => []
  | d, .beginNode _ _ :: ls => behind (d + 1) ls
  | 0, .endNode :: ls => ls
  | d + 1, .endNode :: ls => behind d ls
  | d, .property _ _ _ :: ls => behind d ls
  | d, .nop :: ls => behind d ls
  | _, .fdtEnd :: _ => []

theorem behind_suffix (ls : List Lexeme) : ∀ d : ℕ, behind d ls <:+ ls := by
  induction ls with
  | nil => exact fun d => List.nil_suffix
  | cons l ls ih =>
    have hcons := List.suffix_cons l ls
    intro d
    cases l with
    | beginNode name pad => exact (ih (d + 1)).trans hcons
    | endNode =>
      cases d with
      | zero => exact hcons
      | succ d => exact (ih d).trans hcons
    | fdtEnd => exact List.nil_suffix
    | _ => exact (ih d).trans hcons

theorem length_scan_le (yields : ℕ → Bool) (strings : Strings) (rest : List UInt8)
    (ls : List Lexeme) : ∀ d : ℕ, (scan yields strings rest d ls).length ≤ ls.length := by
  induction ls with
  | nil => exact fun d => Nat.le_refl 0
  | cons l ls ih =>
    intro d
    rw [List.length_cons]
    cases l with
    | beginNode name pad =>
      have := ih (d + 1)
      rw [scan]
      split
      · rw [List.length_cons]
        omega
      · omega
    | endNode =>
      cases d with
      | zero => exact Nat.zero_le _
      | succ d => exact Nat.le_succ_of_le (ih d)
    | fdtEnd => exact Nat.zero_le _
    | _ => exact Nat.le_succ_of_le (ih d)

/-! ## Splitting at the end of a node -/

theorem Closes.behind (ls : List Lexeme) : ∀ {k d : ℕ}, Closes (k + 1 + d) ls →
    Closes d (behind k ls) := by
  induction ls with
  | nil => exact fun h => h.elim
  | cons l ls ih =>
    intro k d h
    cases l with
    | beginNode name pad =>
      refine ih (k := k + 1) ?_
      rw [show k + 1 + 1 + d = k + 1 + d + 1 by omega]
      exact h
    | endNode =>
      rw [show k + 1 + d = k + d + 1 by omega] at h
      cases k with
      | zero => rwa [Closes, Nat.zero_add] at h
      | succ k => exact ih h
    | fdtEnd => exact h.elim
    | _ => exact ih h

/-- Lexemes that lead out of a node lead out of every node inside it. -/
theorem Closes.inner (ls : List Lexeme) : ∀ {k d : ℕ}, Closes (k + d) ls → Closes k ls := by
  induction ls with
  | nil => exact fun h => h.elim
  | cons l ls ih =>
    intro k d h
    cases l with
    | beginNode name pad =>
      refine ih (d := d) ?_
      rw [show k + 1 + d = k + d + 1 by omega]
      exact h
    | endNode =>
      cases k with
      | zero => trivial
      | succ k =>
        rw [show k + 1 + d = k + d + 1 by omega] at h
        exact ih h
    | fdtEnd => exact h.elim
    | _ => exact ih h

variable (strings : Strings) (rest : List UInt8)

/-- Among all nodes those inside a node come before those behind it. -/
theorem scan_all_add (ls : List Lexeme) : ∀ k d : ℕ,
    scan (fun _ => true) strings rest (k + 1 + d) ls =
      scan (fun _ => true) strings rest k ls ++ scan (fun _ => true) strings rest d (behind k ls) := by
  induction ls with
  | nil => exact fun k d => rfl
  | cons l ls ih =>
    intro k d
    cases l with
    | beginNode name pad =>
      have := ih (k + 1) d
      rw [show k + 1 + 1 + d = k + 1 + d + 1 by omega] at this
      simp only [scan, behind, if_true, this, List.cons_append]
    | endNode =>
      rw [show k + 1 + d = k + d + 1 by omega]
      cases k with
      | zero => simp only [scan, behind, Nat.zero_add, List.nil_append]
      | succ k =>
        have := ih k d
        rw [show k + 1 + d = k + 1 + d by omega] at this
        simpa only [scan, behind] using this
    | fdtEnd => rfl
    | _ => exact ih k d

/-- Inside a node no direct child of an outer one begins. -/
theorem scan_direct_add (ls : List Lexeme) : ∀ k d : ℕ,
    scan (· == 0) strings rest (k + 1 + d) ls = scan (· == 0) strings rest d (behind k ls) := by
  induction ls with
  | nil => exact fun k d => rfl
  | cons l ls ih =>
    intro k d
    cases l with
    | beginNode name pad =>
      have := ih (k + 1) d
      rw [show k + 1 + 1 + d = k + 1 + d + 1 by omega] at this
      rw [scan, if_neg (by simp), this, behind]
    | endNode =>
      rw [show k + 1 + d = k + d + 1 by omega]
      cases k with
      | zero => simp only [scan, behind, Nat.zero_add]
      | succ k => exact ih k d
    | fdtEnd => rfl
    | _ => exact ih k d

/-! ## Iterators -/

namespace NodeIter

variable (yields : ℕ → Bool) (message : String) {rest}

/-- The invariant of the loop of one call: from `it₀` it has made `k` rounds. -/
theorem yields_of_rounds (ls : List Lexeme) : ∀ {k : ℕ} (it₀ it : NodeIter),
    it₀.finished = false → it.finished = false → k + ls.length ≤ it₀.reader.bytes.length →
    Rounds (nextRound (ε := ε) yields message) k () it₀ () it → it.reader.At ls rest →
    Closes it.depth ls →
    Yields (next (ε := ε) yields message) (scan yields it.strings rest it.depth ls) it₀ := by
  induction ls with
  | nil => exact fun _ _ _ _ _ _ _ h => h.elim
  | cons l ls ih =>
    intro k it₀ it hf₀ hf hk hrounds hat hcloses
    rw [List.length_cons] at hk
    obtain ⟨r, hc, hat'⟩ := hat.cons
    have hwl := hat.wf l List.mem_cons_self
    -- a lexeme that is passed over makes one more round of the same call
    have hpass : ∀ d : ℕ, Returns (nextRound (ε := ε) yields message ()) it (.inl ())
        { it with reader := r, depth := d } → Closes d ls →
        Yields (next (ε := ε) yields message) (scan yields it.strings rest d ls) it₀ :=
      fun d hr hd => ih it₀ { it with reader := r, depth := d } hf₀ hf (by omega)
        (hrounds.snoc hr) hat' hd
    cases l with
    | nop => exact hpass it.depth (returns_nop yields message hc) hcloses
    | property nameOffset value pad =>
      exact hpass it.depth (returns_property yields message hat.aligned hwl hc) hcloses
    | beginNode name pad =>
      have hbegin := returns_beginNode (ε := ε) yields message it hat.aligned hwl hc
      rw [scan]
      split at hbegin
      case isTrue hy =>
        rw [if_pos hy, ← hat'.unread]
        refine ⟨_, returns_next yields message hf₀ (by omega) hrounds hbegin, ?_⟩
        exact ih _ { it with reader := r, depth := it.depth + 1 } hf hf
          (by rw [Nat.zero_add]; exact hat'.length_le) (.zero _ _) hat' hcloses
      case isFalse hy =>
        rw [if_neg hy]
        exact hpass _ hbegin hcloses
    | endNode =>
      have hend := returns_endNode (ε := ε) yields message it hc
      cases hd : it.depth with
      | zero =>
        rw [if_pos hd, if_pos hd] at hend
        exact ⟨_, returns_next yields message hf₀ (by omega) hrounds hend,
          returns_next_of_finished yields message rfl⟩
      | succ d =>
        rw [if_neg (by omega), if_neg (by omega), hd] at hend
        rw [hd] at hcloses
        exact hpass d hend hcloses
    | fdtEnd => exact hcloses.elim

end NodeIter

/-- The content of the view is a sequence of lexemes that leads to the end of the node. -/
structure Node.Spans (node : Node) (ls : List Lexeme) (rest : List UInt8) : Prop where
  wf : ∀ l ∈ ls, l.WF
  closes : Closes 0 ls
  content : node.content = encodeAll ls ++ rest

/-- An iterator over the nodes below a view yields the scan of its content. -/
theorem Node.Spans.yields {node : Node} {ls : List Lexeme} {rest : List UInt8}
    (h : node.Spans ls rest) (yields : ℕ → Bool) (message : String) :
    Yields (NodeIter.next (ε := ε) yields message) (scan yields node.strings rest 0 ls)
      (.new node.content node.strings) := by
  have hat : (Reader.new node.content).At ls rest := Reader.at_new h.wf h.content
  exact NodeIter.yields_of_rounds yields message ls _ (.new node.content node.strings) rfl rfl
    (by rw [Nat.zero_add]; exact hat.length_le) (.zero _ _) hat h.closes

theorem Node.Spans.length_lt {node : Node} {ls : List Lexeme} {rest : List UInt8}
    (h : node.Spans ls rest) : ls.length < node.bound := by
  have := length_le_length_encodeAll ls
  rw [Node.bound, h.content, List.length_append]
  omega

/-- The nodes of a scan begin inside the node and end inside it. -/
theorem Node.Spans.of_mem_scan {yields : ℕ → Bool} {m : Node} (ls : List Lexeme) : ∀ {d : ℕ},
    (∀ l ∈ ls, l.WF) → Closes d ls → m ∈ scan yields strings rest d ls →
    m.strings = strings ∧ ∃ ls', ls' <:+ ls ∧ m.Spans ls' rest := by
  induction ls with
  | nil => exact fun _ h => h.elim
  | cons l ls ih =>
    intro d hwf hcloses hm
    have hwf' : ∀ l' ∈ ls, l'.WF := fun l' h => hwf l' (List.mem_cons_of_mem l h)
    have hnext : ∀ {d' : ℕ}, Closes d' ls → m ∈ scan yields strings rest d' ls →
        m.strings = strings ∧ ∃ ls', ls' <:+ l :: ls ∧ m.Spans ls' rest := by
      intro d' hc hm
      obtain ⟨hs, ls', hsuffix, hspans⟩ := ih hwf' hc hm
      exact ⟨hs, ls', hsuffix.trans (List.suffix_cons l ls), hspans⟩
    cases l with
    | beginNode name pad =>
      rw [scan] at hm
      split at hm
      · rcases List.mem_cons.mp hm with rfl | hm
        · refine ⟨rfl, ls, List.suffix_cons _ _, hwf', ?_, rfl⟩
          refine Closes.inner ls (k := 0) (d := d + 1) ?_
          rw [Nat.zero_add]
          exact hcloses
        · exact hnext hcloses hm
      · exact hnext hcloses hm
    | endNode =>
      cases d with
      | zero => cases hm
      | succ d => exact hnext hcloses hm
    | fdtEnd => exact hcloses.elim
    | _ => exact hnext hcloses hm

theorem Node.Spans.of_pulled {node m : Node} {ls : List Lexeme} {yields : ℕ → Bool}
    {message : String} (h : node.Spans ls rest)
    (step : Pulled (NodeIter.next (ε := ε) yields message) (.new node.content node.strings) m) :
    m.strings = node.strings ∧ ∃ ls', m.Spans ls' rest := by
  obtain ⟨hs, ls', -, hspans⟩ :=
    of_mem_scan _ _ ls h.wf h.closes ((h.yields yields message).mem_of_pulled step)
  exact ⟨hs, ls', hspans⟩

/-! ## The flattening of repeated `children` -/

/-- The nodes below a node in depth-first pre-order, from `Children` alone. -/
def preorder : ℕ → Node → Exec σ ε (List Node)
  | 0, _ => abort .exhausted
  | n + 1, node => foldIter Children.next (fun ns child => do
      let below ← preorder n child
      pure (ns ++ child :: below)) node.bound node.children []

/-- The flattenings of the children make up the scan of the node. -/
theorem returns_foldlM_children {f : Node → Exec σ ε (List Node)} {s : σ} {n : ℕ}
    (hf : ∀ {m : Node} {ls : List Lexeme}, m.strings = strings → ls.length < n → m.Spans ls rest →
      Returns (f m) s (scan (fun _ => true) strings rest 0 ls) s) (k : ℕ) :
    ∀ (ls : List Lexeme) (acc : List Node), ls.length ≤ k → ls.length ≤ n → (∀ l ∈ ls, l.WF) →
      Closes 0 ls →
      Returns ((scan (· == 0) strings rest 0 ls).foldlM (fun ns child => do
        let below ← f child
        pure (ns ++ child :: below)) acc) s (acc ++ scan (fun _ => true) strings rest 0 ls) s := by
  induction k with
  | zero =>
    intro ls acc hk
    obtain rfl := List.eq_nil_of_length_eq_zero (Nat.le_zero.mp hk)
    exact fun _ _ h => h.elim
  | succ k ih =>
    intro ls acc hk hn hwf hcloses
    cases ls with
    | nil => exact hcloses.elim
    | cons l ls =>
      rw [List.length_cons] at hk hn
      have hwf' : ∀ l' ∈ ls, l'.WF := fun l' h => hwf l' (List.mem_cons_of_mem l h)
      cases l with
      | beginNode name pad =>
        -- the child, and behind it the other children
        have hlen := (behind_suffix ls 0).length_le
        have hin : Closes 0 ls := Closes.inner ls (d := 1) hcloses
        have hchild := hf (m := ⟨name, encodeAll ls ++ rest, strings⟩) rfl (by omega) ⟨hwf', hin, rfl⟩
        have hother := ih (behind 0 ls)
          (acc ++ ⟨name, encodeAll ls ++ rest, strings⟩ :: scan (fun _ => true) strings rest 0 ls)
          (by omega) (by omega) (fun l hl => hwf' l ((behind_suffix ls 0).subset hl))
          (Closes.behind ls hcloses)
        simp only [scan, beq_self_eq_true, if_true]
        rw [scan_direct_add strings rest ls 0 0, scan_all_add strings rest ls 0 0, List.foldlM_cons,
          returns_bind]
        refine ⟨_, s, returns_bind.mpr ⟨_, s, hchild, returns_pure.mpr ⟨rfl, rfl⟩⟩, ?_⟩
        rw [List.append_assoc, List.cons_append] at hother
        exact hother
      | endNode => exact returns_pure.mpr ⟨List.append_nil acc, rfl⟩
      | fdtEnd => exact hcloses.elim
      | _ => exact ih ls acc (by omega) (by omega) hwf' hcloses

/-- The flattening of a view is the scan of its content at all depths. -/
theorem Node.Spans.returns_preorder (s : σ) (n : ℕ) : ∀ {node : Node} {ls : List Lexeme},
    node.strings = strings → ls.length < n → node.Spans ls rest →
    Returns (preorder n node : Exec σ ε _) s (scan (fun _ => true) strings rest 0 ls) s := by
  induction n with
  | zero => exact fun _ h => absurd h (Nat.not_lt_zero _)
  | succ n ih =>
    intro node ls hstrings hn h
    have hyields : Yields (Children.next : Exec NodeIter ε _)
        (scan (· == 0) strings rest 0 ls) node.children := by
      rw [← hstrings]
      exact h.yields _ _
    have hbound : (scan (· == 0) strings rest 0 ls).length < node.bound :=
      Nat.lt_of_le_of_lt (length_scan_le _ strings rest ls 0) h.length_lt
    rw [preorder, foldIter_eq hyields hbound]
    exact returns_foldlM_children strings rest ih ls.length ls [] (Nat.le_refl _) (by omega) h.wf
      h.closes

/-! ## The nodes of a block -/

/-- The nodes obtained from the root of a block by any sequence of the views of nodes. -/
inductive Reached (structure_ : Structure) (strings : Strings) : Node → Prop
  | root {node : Node}
      (step : Returns (structure_.root strings : Exec Unit Empty Node) () node ()) :
      Reached structure_ strings node
  | children {node m : Node} (from_ : Reached structure_ strings node)
      (step : Pulled (Children.next : Exec NodeIter Empty _) node.children m) :
      Reached structure_ strings m
  | child {node m : Node} {name : List UInt8} (from_ : Reached structure_ strings node)
      (step : Returns (node.child name : Exec Unit Empty _) () (some m) ()) :
      Reached structure_ strings m
  | descendants {node m : Node} (from_ : Reached structure_ strings node)
      (step : Pulled (Descendants.next : Exec NodeIter Empty _) node.descendants m) :
      Reached structure_ strings m

/-- The body of a node leads to its end. -/
theorem closes_of_skip (ls : List Lexeme) : ∀ {d : ℕ}, skip (d + 1) (symbols ls) = some 0 →
    Closes d ls := by
  induction ls with
  | nil => exact fun h => by simp [symbols, skip] at h
  | cons l ls ih =>
    intro d h
    cases l with
    | endNode =>
      cases d with
      | zero => trivial
      | succ d => exact ih h
    | fdtEnd => simp [symbols, Lexeme.symbol, skip] at h
    | property nameOffset value pad =>
      refine ih (d := d) ?_
      rw [symbols_cons rfl, skip] at h
      exact h
    | _ => exact ih h

theorem Reached.spans {bytes : List UInt8} {strings : Strings} {node : Node}
    (haccepted : Returns (Structure.new bytes strings) () ⟨bytes⟩ ())
    (h : Reached ⟨bytes⟩ strings node) :
    node.strings = strings ∧ ∃ ls rest, node.Spans ls rest := by
  induction h with
  | root step =>
    obtain ⟨-, -, t, hname, -, ht⟩ := returns_structureNew_iff.mp haccepted
    obtain ⟨root, hroot, hview⟩ := returns_root (σ := Unit) (ε := Empty) strings hname ht
    obtain ⟨rfl, -⟩ := step.unique (hroot ())
    obtain ⟨ls, rest, hwf, hs, hc⟩ := hview.content
    refine ⟨hview.strings, ls, rest, hwf, closes_of_skip ls ?_, hc⟩
    rw [hs]
    exact skip_body t
  | children _ step ih =>
    obtain ⟨rfl, ls, rest, hspans⟩ := ih
    obtain ⟨hs, ls', h⟩ := hspans.of_pulled rest step
    exact ⟨hs, ls', rest, h⟩
  | child _ step ih =>
    obtain ⟨rfl, ls, rest, hspans⟩ := ih
    have hyields := hspans.yields (ε := Empty) (· == 0)
      "validated node must end before the structure block terminator"
    obtain ⟨it', hr, -, -⟩ := hyields.findNext
      (Nat.lt_of_le_of_lt (length_scan_le _ _ rest ls 0) hspans.length_lt)
    obtain ⟨-, it'', hr'⟩ := returns_onLocal.mp step
    obtain ⟨hs, ls', -, h⟩ := Node.Spans.of_mem_scan _ _ ls hspans.wf hspans.closes
      (List.mem_of_find?_eq_some (hr.unique hr').1)
    exact ⟨hs, ls', rest, h⟩
  | descendants _ step ih =>
    obtain ⟨rfl, ls, rest, hspans⟩ := ih
    obtain ⟨hs, ls', h⟩ := hspans.of_pulled rest step
    exact ⟨hs, ls', rest, h⟩

/-- A node of a scan holds the bytes from its name on, to the end of those of the view. -/
theorem Node.Spans.content_suffix {node m : Node} {ls ls' : List Lexeme} {rest : List UInt8}
    (h : node.Spans ls rest) (hm : m.Spans ls' rest) (hsuffix : ls' <:+ ls) :
    m.content <:+ node.content := by
  obtain ⟨pre, rfl⟩ := hsuffix
  refine ⟨encodeAll pre, ?_⟩
  rw [h.content, hm.content, encodeAll_append, List.append_assoc]

/-- **Descendants and children agree.** In a block that `Structure::new` accepts, from every node
that the views reach `Descendants` yields the depth-first pre-order flattening of `Children`: the
same names and contents in the same order. A content is a final piece of the content of the node, so
equal contents are the same slice. -/
theorem descendants_eq_preorder {bytes : List UInt8} {strings : Strings}
    (haccepted : Returns (Structure.new bytes strings) () ⟨bytes⟩ ()) {node : Node}
    (h : Reached ⟨bytes⟩ strings node) :
    ∃ ns, Yields (Descendants.next : Exec NodeIter Empty _) ns node.descendants ∧
      (∀ m ∈ ns, m.content <:+ node.content) ∧
      ∀ fuel ≥ node.bound, Returns (preorder fuel node : Exec Unit Empty _) () ns () := by
  obtain ⟨rfl, ls, rest, hspans⟩ := h.spans haccepted
  have hyields : Yields (Descendants.next : Exec NodeIter Empty _)
      (scan (fun _ => true) node.strings rest 0 ls) node.descendants := hspans.yields _ _
  refine ⟨_, hyields, fun m hm => ?_, fun fuel hfuel => ?_⟩
  · obtain ⟨-, ls', hsuffix, hm⟩ :=
      Node.Spans.of_mem_scan _ _ ls hspans.wf hspans.closes hm
    exact hspans.content_suffix hm hsuffix
  · have := hspans.length_lt
    exact hspans.returns_preorder _ rest () fuel rfl (by omega)

/-- A root with the children `a` and `c`, and a node `b` below `a`. -/
def nestedBlock : List UInt8 :=
  [0, 0, 0, 1, 0, 0, 0, 0, 0, 0, 0, 1, 97, 0, 0, 0, 0, 0, 0, 1, 98, 0, 0, 0, 0, 0, 0, 2,
    0, 0, 0, 2, 0, 0, 0, 1, 99, 0, 0, 0, 0, 0, 0, 2, 0, 0, 0, 2, 0, 0, 0, 9]

def nestedRoot : Node := ⟨[], nestedBlock.drop 8, ⟨[]⟩⟩

/-- The node `b` comes between its parent and the sibling of its parent. -/
theorem descendants_eq_preorder_sample : ∃ ns,
    Yields (Descendants.next : Exec NodeIter Empty _) ns nestedRoot.descendants ∧
      Returns (preorder nestedRoot.bound nestedRoot : Exec Unit Empty _) () ns () ∧
      ns.map (·.name) = [[97], [98], [99]] := by
  have haccepted : Returns (Structure.new nestedBlock ⟨[]⟩) () ⟨nestedBlock⟩ () := by
    unfold Returns
    decide +kernel
  have hroot : Returns (Structure.root ⟨nestedBlock⟩ ⟨[]⟩ : Exec Unit Empty Node) () nestedRoot () := rfl
  obtain ⟨ns, hyields, -, hpreorder⟩ := descendants_eq_preorder haccepted (.root hroot)
  have hreturns := hpreorder nestedRoot.bound le_rfl
  have hnames : ((preorder nestedRoot.bound nestedRoot : Exec Unit Empty _) ()).map
      (fun x => x.1.map (List.map Node.name)) = .ok (.ok [[97], [98], [99]]) := by
    decide +kernel
  rw [hreturns] at hnames
  exact ⟨ns, hyields, hreturns, Except.ok.inj (Except.ok.inj hnames)⟩

end Barebone.Devicetree

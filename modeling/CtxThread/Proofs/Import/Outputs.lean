import CtxThread.Proofs.Import.Added

/-!
# Imports of new texts

A text and the text that edits make of it are cut into atoms from their first bytes on. A byte
order mark in front of all else does not count, and one behind the import group is a stray byte.

## Main statements

- `Edit.grows_weave`: applying edits lets the atoms of a text grow
- `Edit.sort_eq_cons`: an edit in front of all others is applied first
- `Edit.base_of_front`: where an import group in front of all else may stand
-/

namespace CtxThread

open Code (Tree Token Kind Atom)
open Code.Token (Cuts EndsName)
open Import (Mode Written Plain Grows ReadTo addedAtoms)

namespace Code.Token

/-- A byte order mark is a stray byte wherever it is not the first of all. -/
theorem next_mark (t : Bytes) : (next (byteOrderMark ++ t)).lexeme = .stray := by
  have hstart : isNameStart (Char.ofNat 0xFEFF) = false := by decide +kernel
  change (next (0xEF :: 0xBB :: 0xBF :: t)).lexeme = .stray
  rw [next_of_isFrank (by decide)]
  have hname : nameLength (0xEF :: 0xBB :: 0xBF :: t) = 0 := by
    have hfirst : (Utf8.first 0xEF (0xBB :: 0xBF :: t)).char = some (Char.ofNat 0xFEFF) := rfl
    simp [nameLength, hfirst, hstart]
  rw [hname]
  rfl

theorem atoms_scan (src : Bytes) : atoms (scan src) = atomsOf (src.drop (base src)) := by
  rw [scan_eq_scanFrom, atoms_scanFrom]
  rw [List.length_drop]
  omega

/-- No token starts in front of the first byte that counts. -/
theorem le_start_of_mem_scan {src : Bytes} {t : Token} (ht : t ∈ scan src) :
    base src ≤ t.start := by
  rw [scan_eq_scanFrom] at ht
  exact le_start_of_mem ht

theorem clear_base (src : Bytes) : Clear src (base src) :=
  fun _ ht _ => .inl (le_start_of_mem_scan ht)

theorem atomsTo_base (src : Bytes) : atomsTo src (base src) = [] := by
  rw [atomsTo, List.filter_eq_nil_iff.mpr fun t ht => ?_]
  · rfl
  · have := le_start_of_mem_scan ht
    simpa using this

/-- A text that is cut into atoms starts with no byte order mark. -/
theorem base_of_cuts {src : Bytes} {ws : List Atom} (h : Cuts [] src ws) : base src = 0 := by
  unfold base
  split
  · next hmark =>
    obtain ⟨t, rfl⟩ := List.isPrefixOf_iff_prefix.mp hmark
    exact absurd (next_mark (t ++ [])) (by
      rw [← List.append_assoc]
      exact h.not_stray rfl rfl)
  · rfl

/-- What is in front of the first byte that counts may stand in front of another text. -/
theorem drop_base (src : Bytes) {tail : Bytes} {ws : List Atom} (h : Cuts [] tail ws) :
    (src.slice 0 (base src) ++ tail).drop (base (src.slice 0 (base src) ++ tail)) = tail := by
  cases hmark : byteOrderMark.isPrefixOf src with
  | false =>
    have hnone : base src = 0 := if_neg (by simp [hmark])
    rw [hnone, Bytes.slice_self, List.nil_append, base_of_cuts h]
    rfl
  | true =>
    have hsome : base src = 3 := if_pos hmark
    obtain ⟨t, rfl⟩ := List.isPrefixOf_iff_prefix.mp hmark
    have hslice : Bytes.slice (byteOrderMark ++ t) 0 3 = byteOrderMark := rfl
    have hbehind : base (byteOrderMark ++ tail) = 3 :=
      if_pos (List.isPrefixOf_iff_prefix.mpr (List.prefix_append _ _))
    rw [hsome, hslice, hbehind]
    rfl

/-- A byte order mark that is not in front of all else makes a text fail to parse. -/
theorem parse?_mark {x t : Bytes} {ws : List Atom} (hx : Cuts (byteOrderMark ++ t) x ws)
    (hfirst : base (x ++ (byteOrderMark ++ t)) = 0) :
    parse? (x ++ (byteOrderMark ++ t)) = none := by
  by_contra hparse
  obtain ⟨root, hparse⟩ := Option.ne_none_iff_exists'.mp hparse
  have hatoms := atoms_scan (x ++ (byteOrderMark ++ t))
  have hmark : atomsOf (byteOrderMark ++ t) =
      atomOf (next (byteOrderMark ++ t)).lexeme
        ((byteOrderMark ++ t).take (next (byteOrderMark ++ t)).length) ++
        atomsOf ((byteOrderMark ++ t).drop (next (byteOrderMark ++ t)).length) :=
    atomsOf_cons (by decide)
  rw [hfirst, List.drop_zero, hx.atomsOf_eq, hmark, next_mark] at hatoms
  have hmem : (Lexeme.stray, (byteOrderMark ++ t).take (next (byteOrderMark ++ t)).length) ∈
      atoms (scan (x ++ (byteOrderMark ++ t))) := by
    rw [hatoms]
    simp [atomOf, Lexeme.isLoose]
  obtain ⟨tok, htok, hl⟩ := mem_atoms hmem
  exact (parse?_leaf hparse htok).1 hl

end Code.Token

namespace Edit

variable {src out : Bytes} {root : Tree} {es : List Edit}

/-- Where a fine edit starts, the text has started. -/
theorem Fine.bounds {e : Edit} (h : Fine src e) :
    (Token.base src : Int) ≤ e.start ∧ e.start ≤ src.length := by
  obtain ⟨-, -, p, q, hstart, -, hp, hplace⟩ := h
  refine ⟨by omega, ?_⟩
  rcases hplace with ⟨htame, -⟩ | ⟨-, -, hburied⟩
  · have := htame.le.trans htame.stop_le
    omega
  · obtain ⟨t, ht, -, -, hpt⟩ := hburied.comment
    have := ((Token.scan_stream src).laid_of_mem ht).stop_le
    omega

/-- Applying edits in order lets the atoms of a text grow. -/
theorem grows_weave (hparse : Code.parse? src = some root) (hfine : ∀ e ∈ es, Fine src e)
    (hmeets : es.Pairwise Meets) (h : weave src 0 es = .ok out) :
    Grows (es.countP isGroup) .idle (Token.atoms (Token.scan src))
      (Token.atoms (Token.scan out)) := by
  have hbase := Token.base_le_length src
  obtain ⟨out', hout', rfl⟩ : ∃ out', weave src (Token.base src : Nat) es = .ok out' ∧
      out = src.slice 0 (Token.base src) ++ out' := by
    exact weave_jump (Nat.zero_le _) hbase
      (fun e he => (hfine e (List.mem_of_mem_head? he)).bounds) h
  obtain ⟨ws, hws, hcuts⟩ := Code.cuts_from hparse (Token.clear_base src) le_rfl hbase
  rw [Token.atomsTo_base, Token.atomsTo_length, List.nil_append] at hws
  have hidle : ReadTo src (Token.base src) .idle := ⟨[], by rw [Token.atomsTo_base]; rfl⟩
  obtain ⟨⟨ws', hcuts', hgrows⟩, -⟩ := (weaves hparse hfine hmeets).1 _ _ _ _ le_rfl hbase
    (Token.clear_base src) hidle hcuts hout'
  have hatoms := hcuts'.atomsOf_eq
  rw [List.append_nil, show Token.atomsOf [] = [] from rfl, List.append_nil] at hatoms
  rw [Token.atoms_scan (_ ++ _), Token.drop_base src hcuts', hatoms, hws]
  exact hgrows

/-- Edits that share no place meet where they should, also in order. -/
theorem meets_sort {src : Bytes} {es : List Edit} (hfine : ∀ e ∈ Order.sort le es, Fine src e)
    (hes : es.Pairwise Unshared) : (Order.sort le es).Pairwise Meets := by
  have hunshared := (sorted_edits es).1.symm.pairwise hes fun h => Std.Symm.symm _ _ h
  refine (List.Pairwise.and_mem.mp hunshared).imp ?_
  rintro a b ⟨ha, hb, hshare⟩
  exact (hfine a ha).manner.meets (hfine b hb).manner hshare

/-- An edit in front of all others is applied first, and the others as without it. -/
theorem sort_eq_cons {e : Edit} {front back : List Edit}
    (h : ∀ a ∈ front ++ back, e.start < a.start) :
    Order.sort le (front ++ e :: back) = e :: Order.sort le (front ++ back) := by
  have hle : ∀ {a : Edit}, e.start < a.start → le e a = true ∧ le a e = false := by
    intro a ha
    simp only [le, Bool.or_eq_true, decide_eq_true_eq, Bool.or_eq_false_iff,
      decide_eq_false_iff_not, Bool.and_eq_false_iff]
    omega
  induction front with
  | nil =>
    change Order.place le e (Order.sort le back) = e :: Order.sort le back
    cases hsort : Order.sort le back with
    | nil => rfl
    | cons b bs =>
      have hb : b ∈ back := mem_sort.mp (hsort ▸ List.mem_cons_self)
      rw [Order.place, if_pos (hle (h b hb)).1]
  | cons a front ih =>
    obtain ⟨ha, h⟩ := List.forall_mem_cons.mp h
    change Order.place le a (Order.sort le (front ++ e :: back)) =
      e :: Order.place le a (Order.sort le (front ++ back))
    rw [ih h, Order.place, if_neg (by simp [(hle ha).2])]

/-- An import group in front of a byte order mark makes a text fail to parse. -/
theorem base_of_front {front back : List Edit} (hfine : ∀ e ∈ front ++ back, Fine src e)
    (h : splice src (front ++ .insertion 0 (ContextImport.group ++ "\n\n") :: back) = .ok out)
    (hparse : Code.parse? out ≠ none) : Token.base src = 0 := by
  by_contra hbase
  -- all other edits start behind the byte order mark
  rw [splice, sort_eq_cons (e := .insertion 0 (ContextImport.group ++ "\n\n")) fun a ha => by
    have := (hfine a ha).bounds
    change (0 : Int) < a.start
    omega] at h
  obtain ⟨-, tail, htail, rfl⟩ := weave_cons_eq_ok h
  obtain ⟨out', hout', rfl⟩ : ∃ out',
      weave src (Token.base src : Nat) (Order.sort le (front ++ back)) = .ok out' ∧
        tail = src.slice 0 (Token.base src) ++ out' :=
    weave_jump (Nat.zero_le _) (Token.base_le_length src)
      (fun e he => (hfine e (mem_sort.mp (List.mem_of_mem_head? he))).bounds) htail
  have hmark : src.slice 0 (Token.base src) = Token.byteOrderMark := by
    unfold Token.base at hbase ⊢
    split
    · next hprefix =>
      obtain ⟨t, rfl⟩ := List.isPrefixOf_iff_prefix.mp hprefix
      rfl
    · next hprefix => exact absurd (if_neg hprefix) hbase
  have hzero : src.between 0 (insertion 0 (ContextImport.group ++ "\n\n")).start = [] :=
    Bytes.between_self ..
  have hcuts : Cuts (Token.byteOrderMark ++ out')
      (Bytes.ofString (insertion 0 (ContextImport.group ++ "\n\n")).text) (addedAtoms ++ []) := by
    change Cuts _ (Bytes.ofString (ContextImport.group ++ "\n\n")) _
    rw [Bytes.ofString_append]
    exact (cuts_group _).append (cuts_lineFeeds (n := 2) _)
  have hhead : (Bytes.ofString (insertion 0 (ContextImport.group ++ "\n\n")).text).head? =
      some 0x69 := by
    decide +kernel
  rw [hzero, hmark, List.nil_append] at hparse
  refine hparse (Token.parse?_mark hcuts ?_)
  obtain ⟨y, hy⟩ := List.head?_eq_some_iff.mp hhead
  rw [hy]
  rfl

end Edit

end CtxThread

import CtxThread.Code.Outline
import CtxThread.Proofs.Code.Reread

/-!
# Lists in parentheses

A list of parameters or arguments either has an element or holds nothing but comments and line
ends between its parentheses. So where the tree of a file shows an empty list, the text has no
token there that the tree has left out.

## Main definitions

- `Tree.elements`: the declarations or the arguments in a list
- `Filled`: a list that has an element, or its parentheses with nothing but comments and line ends
- `Grammar.isParens`: the rules of lists of which that holds

## Main statements

- `filled_of_mem_walk`: the lists of a file are filled so
-/

namespace CtxThread.Code

open Rule Grammar

/-- A comment or a line end. -/
def Token.IsGap (t : Token) : Prop := t.lexeme = .comment ∨ t.lexeme = .newline

namespace Rule

/-- Only comments and line ends are passed over. -/
theorem skipBlanks_gap (out : List Tree) (ts : List Token) :
    ∃ gap, ts = gap ++ (skipBlanks out ts).rest ∧ ∀ g ∈ gap, g.IsGap := by
  induction ts generalizing out with
  | nil => exact ⟨[], rfl, fun g hg => by cases hg⟩
  | cons t ts ih =>
    rw [skipBlanks]
    have hcons : ∀ out', t.IsGap → ∃ gap, t :: ts = gap ++ (skipBlanks out' ts).rest ∧
        ∀ g ∈ gap, g.IsGap := by
      intro out' ht
      obtain ⟨gap, hgap, hall⟩ := ih out'
      exact ⟨t :: gap, congrArg (t :: ·) hgap, List.forall_mem_cons.mpr ⟨ht, hall⟩⟩
    by_cases hcomment : t.lexeme = .comment
    · rw [if_pos hcomment]
      exact hcons _ (.inl hcomment)
    · rw [if_neg hcomment]
      by_cases hnewline : t.lexeme = .newline
      · rw [if_pos hnewline]
        exact hcons _ (.inr hnewline)
      · rw [if_neg hnewline]
        exact ⟨[], rfl, fun g hg => by cases hg⟩

/-- A sign is taken behind comments and line ends. -/
theorem takeToken_gap {g : Sign} {s m : State} (h : takeToken (.sign g) s = some m) :
    ∃ cs gap tok, (∀ c ∈ cs, c.kind = .comment) ∧ (∀ x ∈ gap, x.IsGap) ∧
      tok.lexeme = .sign g ∧ s.rest = gap ++ tok :: m.rest ∧
      m.out = s.out ++ cs ++ [tok.tree (.sign g)] := by
  obtain ⟨cs, hout, hcs⟩ := skipBlanks_out s.out s.rest
  obtain ⟨gap, hgap, hall⟩ := skipBlanks_gap s.out s.rest
  unfold takeToken at h
  dsimp only at h
  split at h
  · cases h
  · next tok rest hrest =>
    obtain ⟨k, hk, rfl⟩ := Option.map_eq_some_iff.mp h
    have hlexeme : tok.lexeme = .sign g ∧ k = .sign g := by
      obtain ⟨rfl, ⟨s, hs, hl⟩ | ⟨k', hs⟩ | ⟨_, hs⟩⟩ := Terminal.accept?_cases hk
      · cases hs
        exact ⟨hl, rfl⟩
      · cases hs
      · exact absurd rfl (hs g)
    obtain ⟨hl, rfl⟩ := hlexeme
    refine ⟨cs, gap, tok, hcs, hall, hl, ?_, by rw [hout]⟩
    rw [← hrest]
    exact hgap

end Rule

/-! ## Elements -/

/-- What counts as an element of a list in parentheses: a declaration among parameters, else
whatever is neither a sign nor a comment. -/
def Kind.isElement (list k : Kind) : Bool :=
  if list = .parameterList then k.isParamDecl else k.isNamed && k ≠ .comment

namespace Tree

/-- The elements of a list in parentheses: the declarations of parameters, or the arguments. -/
def elements (list : Tree) : List Tree :=
  if list.kind = .parameterList then list.paramDecls else list.items

theorem mem_elements {list c : Tree} :
    c ∈ list.elements ↔ c ∈ list.children ∧ Kind.isElement list.kind c.kind = true := by
  unfold elements Kind.isElement
  split
  · rw [paramDecls, List.mem_filter]
  · rw [items, List.mem_filter, isItem]

end Tree

/-- The elements of a list stand behind its opening parenthesis. -/
theorem start_lt_of_mem_elements {src : Bytes} {list item : Tree} (h : Tree.Laid src list)
    (hk : list.kind = .parameterList ∨ list.kind = .argumentList) (hitem : item ∈ list.elements) :
    list.start < item.stop := by
  obtain ⟨x, mid, y, hchildren, hx, hy, hstart, -⟩ := h.shaped.parens hk
  have hopening := (h.of_mem_children (by rw [hchildren]; exact List.mem_cons_self)).bracket hx rfl
  have hrow := h.row
  rw [hchildren] at hrow
  obtain ⟨hmem, helement⟩ := Tree.mem_elements.mp hitem
  have hsign : ∀ g, item.kind ≠ .sign g := by
    intro g hg
    rw [hg, Kind.isElement] at helement
    split at helement <;> cases helement
  rw [hchildren, List.mem_cons, List.mem_append, List.mem_singleton] at hmem
  rcases hmem with rfl | hmid | rfl
  · exact absurd hx (hsign _)
  · have hbehind := hrow.2.2.bounds_of_mem (List.mem_append_left [y] hmid)
    omega
  · exact absurd hy (hsign _)

/-! ## Rules of lists in parentheses -/

/-- A list in parentheses has an element, or only comments and line ends stand between its
parentheses. -/
def Filled (ts : List Token) (list : Tree) : Prop :=
  (∃ c ∈ list.children, Kind.isElement list.kind c.kind = true) ∨
    ∃ lp gap rp rest, lp :: (gap ++ rp :: rest) <:+ ts ∧ lp.lexeme = .sign .lparen ∧
      rp.lexeme = .sign .rparen ∧ (∀ g ∈ gap, g.IsGap) ∧ list.start = lp.start ∧
      list.stop = rp.stop

namespace Grammar

/-- The rule of an opening parenthesis. -/
def opensParen : Production → Bool
  | .token (.sign .lparen) | .seq .sameLine (.token (.sign .lparen))
  | .seq .done (.token (.sign .lparen)) => true
  | _ => false

/-- The rule leaves a node whose kind has the property `p`, and then only adds to it. -/
def leads (p : Kind → Bool) : Production → Bool
  | .seq a b => leads p a && decide b.Appends
  | .group a => a.leaves (fun n => n ≠ .sourceFile) false && (a.after marks []).all fun m => p m.kind
  | a => a.surely marks (fun n => n ≠ .sourceFile) fun m => p m.kind

/-- The rule of a list in parentheses, which has an element unless nothing stands in it. -/
def isParens (list : Kind) : Production → Bool
  | .seq a (.seq (.alt x .done) (.token (.sign .rparen))) =>
    opensParen a && leads (Kind.isElement list) x
  | _ => false

theorem exists_of_leads {p : Kind → Bool} {fuel : Nat} {a : Production} (ha : leads p a = true)
    {s m : State} (h : run (derive grammar fuel) a s = some m) :
    ∃ t ∈ m.out, ¬ isFree t ∧ p t.kind = true := by
  have hmarked := grammar_describes.marked fuel
  induction a generalizing s m with
  | seq a b iha _ =>
    obtain ⟨m₁, hm₁, hb⟩ := Option.bind_eq_some_iff.mp h
    obtain ⟨ha, happends⟩ := Bool.and_eq_true_iff.mp ha
    obtain ⟨t, ht, hp⟩ := iha ha hm₁
    exact ⟨t, (run_appends (of_decide_eq_true happends) hb).subset ht, hp⟩
  | group a _ =>
    obtain ⟨m₁, hm₁, rfl⟩ := Option.map_eq_some_iff.mp h
    obtain ⟨hleaves, hafter⟩ := Bool.and_eq_true_iff.mp ha
    obtain ⟨t, ht, hfree, _⟩ := run_leaves
      (fun n us s hn hs => derive_holds fuel n (of_decide_eq_true hn) us s hs) hleaves
      (fun hb => by cases hb) hm₁
    have hmark := (run_marked hmarked (.nil []) hm₁ t ht).resolve_left hfree
    exact ⟨t, List.mem_append_right _ ht, hfree, List.all_eq_true.mp hafter _ hmark⟩
  | _ =>
    obtain ⟨t, ht, hfree, hp⟩ := run_surely hmarked
      (fun n us s hn hs => by
        obtain ⟨t, ht, hfree, _⟩ := derive_holds fuel n (of_decide_eq_true hn) us s hs
        exact ⟨t, ht, hfree⟩) ha h
    exact ⟨t, ht, hfree, hp⟩

theorem takeToken_of_opensParen {call : Nonterminal → List Token → Option State} {a : Production}
    (ha : opensParen a = true) {s m : State} (h : run call a s = some m) :
    takeToken (.sign .lparen) s = some m := by
  unfold opensParen at ha
  split at ha
  · exact h
  · obtain ⟨s', hs', h⟩ := Option.bind_eq_some_iff.mp h
    rw [run, Option.ite_none_right_eq_some, Option.some.injEq] at hs'
    exact hs'.2 ▸ h
  · exact h
  · cases ha

/-- The rule of a list in parentheses leaves an element, or the parentheses with nothing but
comments and line ends between them. -/
theorem cases_of_isParens {list : Kind} {b : Production} (hb : isParens list b = true) {fuel : Nat}
    {us : List Token} {m : State} (h : run (derive grammar fuel) b ⟨[], us⟩ = some m) :
    (∃ t ∈ m.out, ¬ isFree t ∧ Kind.isElement list t.kind = true) ∨
      ∃ cs cs' lp gap rp, (∀ c ∈ cs, c.kind = .comment) ∧ (∀ c ∈ cs', c.kind = .comment) ∧
        (∀ g ∈ gap, g.IsGap) ∧ lp.lexeme = .sign .lparen ∧ rp.lexeme = .sign .rparen ∧
        lp :: (gap ++ rp :: m.rest) <:+ us ∧
        m.out = cs ++ lp.tree (.sign .lparen) :: (cs' ++ [rp.tree (.sign .rparen)]) := by
  unfold isParens at hb
  split at hb
  · next a x =>
    obtain ⟨ha, hx⟩ := Bool.and_eq_true_iff.mp hb
    obtain ⟨m₁, hopen, h⟩ := Option.bind_eq_some_iff.mp h
    obtain ⟨m₂, hinside, hclose⟩ := Option.bind_eq_some_iff.mp h
    simp only [run] at hinside
    split at hinside
    · next m' hm' =>
      cases hinside
      obtain ⟨t, ht, hfree, hk⟩ := exists_of_leads hx hm'
      obtain ⟨cs, y, hout, _⟩ := takeToken_out hclose
      refine .inl ⟨t, ?_, hfree, hk⟩
      rw [hout]
      exact List.mem_append_left _ (List.mem_append_left _ ht)
    · cases hinside
      obtain ⟨cs, gap₀, lp, hcs, _, hlp, hrest, hout⟩ :=
        takeToken_gap (takeToken_of_opensParen ha hopen)
      obtain ⟨cs', gap, rp, hcs', hgap, hrp, hrest', hout'⟩ := takeToken_gap hclose
      refine .inr ⟨cs, cs', lp, gap, rp, hcs, hcs', hgap, hlp, hrp, ⟨gap₀, ?_⟩, ?_⟩
      · rw [← hrest']
        exact hrest.symm
      · rw [hout', hout]
        simp
  · cases hb

/-- Such a rule builds lists of which that holds. -/
theorem filled_of_isParens {list : Kind} (hlist : list ≠ .comment) {b : Production}
    (hb : isParens list b = true) {fuel : Nat} {us ts : List Token} {m : State} (hus : us <:+ ts)
    (h : run (derive grammar fuel) b ⟨[], us⟩ = some m) {t : Tree} (ht : t ∈ build list m.out)
    (hk : t.kind = list) : Filled ts t := by
  rcases cases_of_isParens hb h with ⟨c, hc, hfree, hck⟩ |
    ⟨cs, cs', lp, gap, rp, hcs, hcs', hgap, hlp, hrp, hsuffix, hout⟩
  · refine .inl ⟨c, ?_, hk ▸ hck⟩
    have hown := mem_own hc hfree
    unfold build at ht
    dsimp only at ht
    have hbefore : t ∉ m.out.takeWhile (·.kind = .comment) := by
      intro hmem
      exact hlist (hk.symm.trans (by simpa using List.mem_takeWhile_imp hmem))
    split at ht
    · have ht := (List.mem_append.mp ht).resolve_left hbefore
      rw [List.mem_singleton.mp ht]
      exact hown
    · exact absurd ht hbefore
  · refine .inr ⟨lp, gap, rp, m.rest, hsuffix.trans hus, hlp, hrp, hgap, ?_⟩
    have hnode := build_cons list (t := lp.tree (.sign .lparen)) (by simp [Token.tree])
      (cs' ++ [rp.tree (.sign .rparen)])
    rw [hout, build_comments list hcs, hnode] at ht
    rcases List.mem_append.mp ht with ht | ht
    · exact absurd (hk.symm.trans (hcs t ht)) hlist
    · rw [List.mem_singleton.mp ht]
      exact ⟨rfl, by simp [Token.tree]⟩

theorem isParens_bodies {list : Kind} (hlist : list = .parameterList ∨ list = .argumentList)
    (n : Nonterminal) : (grammar n).encloses list = true ∧
      ∀ b ∈ (grammar n).bodies list, isParens list b = true := by
  have hall : ∀ list ∈ [Kind.parameterList, Kind.argumentList], ∀ n ∈ nonterminals,
      (grammar n).encloses list = true ∧ ((grammar n).bodies list).all (isParens list) = true := by
    decide +kernel
  obtain ⟨m, hm, hgrammar, _⟩ := exists_mem_nonterminals n
  obtain ⟨hencloses, hbodies⟩ := hall list (by simpa using hlist) m hm
  rw [hgrammar] at hencloses hbodies
  exact ⟨hencloses, List.all_eq_true.mp hbodies⟩

end Grammar

/-- A list of parameters or arguments of a file has an element, or only comments and line ends stand
between its parentheses. -/
theorem filled_of_mem_walk {src : Bytes} {root list : Tree} (h : parse? src = some root)
    (hlist : list ∈ root.walk) (hk : list.kind = .parameterList ∨ list.kind = .argumentList) :
    Filled (Token.scan src) list := by
  have hbuilt : IsBuilt list.kind := by
    rcases hk with hk | hk <;> rw [hk] <;> exact ⟨by decide, by decide, rfl⟩
  have hfile : list.kind ≠ .sourceFile := by
    rcases hk with hk | hk <;> rw [hk] <;> decide
  have hbodies := fun n => isParens_bodies hk n
  refine parse?_every (P := Filled (Token.scan src)) hbuilt hfile h (fun s hs => ?_) hlist rfl
  refine derive_every_bodies hbuilt (fun _ _ ht => ht) (fun n => (hbodies n).1)
    (fun tok htok => Token.scan_whole htok) (fun n b hb fuel us m hus hm t ht htk => ?_)
    List.suffix_rfl hs
  exact filled_of_isParens hbuilt.comment ((hbodies n).2 b hb) hus hm ht htk

end CtxThread.Code

import CtxThread.Proofs.Code.Preamble
import CtxThread.Proofs.Import.Marks

/-!
# The nodes in front of the declarations

A file opens with its package clause if up to some offset nothing else stands in it but comments and
semicolons. Then the tokens up to that offset are a preamble.

## Main definitions

- `Tree.Opens`: up to an offset the file holds its package clause only

## Main statements

- `Tree.Opens.clear`: the offset is outside of all tokens
- `Tree.Opens.le_start`: calls and functions stand behind the offset
- `Tree.Opens.preamble`: the tokens up to the offset
-/

namespace CtxThread.Code

open Rule Grammar

/-! ## Package clauses -/

/-- The tokens that a package clause is read from. -/
def ClauseOf (ts : List Token) (t : Tree) : Prop :=
  ∃ (kw nm : Token) (gap rest : List Token) (w : Word),
    kw :: (gap ++ nm :: rest) <:+ ts ∧ kw.lexeme = .sign .kwPackage ∧
      (∀ g ∈ gap, g.lexeme.isGap = true) ∧ nm.lexeme = .word w ∧
      t.start = kw.start ∧ t.stop = nm.stop

/-- The rule reads what a package clause is built by. -/
def isClause : Production → Bool
  | .seq (.token (.sign s)) (.token (.name k)) => s = .kwPackage && k = .packageIdentifier
  | _ => false

theorem clauseOf_of_isClause {b : Production} (hb : isClause b = true)
    {call : Nonterminal → List Token → Option State} {us ts : List Token} {m : State}
    (hus : us <:+ ts) (h : run call b ⟨[], us⟩ = some m) {t : Tree}
    (ht : t ∈ build .packageClause m.out) (hk : t.kind = .packageClause) : ClauseOf ts t := by
  unfold isClause at hb
  split at hb
  · next s k =>
    obtain ⟨hs, -⟩ := Bool.and_eq_true_iff.mp hb
    obtain rfl : s = .kwPackage := of_decide_eq_true hs
    simp only [run] at h
    obtain ⟨q, hq, hm⟩ := Option.bind_eq_some_iff.mp h
    obtain ⟨gap₀, kw, hkwRest, -, hkw, hkwOut⟩ := takeToken_split hq
    obtain ⟨gap, nm, hnmRest, hgap, hnm, hnmOut⟩ := takeToken_split hm
    obtain ⟨w, hw⟩ := Terminal.eq_word_of_accept? hnm
    obtain ⟨d, hbuild, -, hstart, hstop⟩ := build_of_sign .kwPackage .packageClause gap₀ kw
      (commentTrees gap) (nm.tree (Terminal.name k).kind)
    have hout : m.out = commentTrees gap₀ ++ [kw.tree (.sign .kwPackage)] ++
        (commentTrees gap ++ [nm.tree (Terminal.name k).kind]) := by
      rw [hnmOut, hkwOut]
      rfl
    rw [hout, hbuild] at ht
    rcases List.mem_append.mp ht with ht | ht
    · exact absurd (hk.symm.trans (kind_of_mem_commentTrees ht)) (by decide)
    · obtain rfl := List.mem_singleton.mp ht
      refine ⟨kw, nm, gap, m.rest, w, ?_, Terminal.eq_sign_of_accept? hkw, hgap, hw, hstart, hstop⟩
      rw [← hnmRest]
      exact List.IsSuffix.trans ⟨gap₀, hkwRest.symm⟩ hus
  · cases hb

theorem isClause_bodies (n : Nonterminal) : (grammar n).encloses .packageClause = true ∧
    ∀ b ∈ (grammar n).bodies .packageClause, isClause b = true := by
  have hall : ∀ n ∈ nonterminals, (grammar n).encloses .packageClause = true ∧
      ((grammar n).bodies .packageClause).all isClause = true := by
    decide +kernel
  obtain ⟨m, hm, hgrammar, -⟩ := exists_mem_nonterminals n
  obtain ⟨hencloses, hbodies⟩ := hall m hm
  rw [hgrammar] at hencloses hbodies
  exact ⟨hencloses, List.all_eq_true.mp hbodies⟩

/-- A package clause is read from the keyword and a name. -/
theorem clauseOf_of_mem_walk {src : Bytes} {root clause : Tree} (h : parse? src = some root)
    (hclause : clause ∈ root.walk) (hk : clause.kind = .packageClause) :
    ClauseOf (Token.scan src) clause := by
  have hbuilt : IsBuilt .packageClause := ⟨by decide, by decide, rfl⟩
  refine parse?_every hbuilt (by decide) h (fun s hs => ?_) hclause hk
  exact derive_every_bodies hbuilt (fun _ _ ht => ht) (fun n => (isClause_bodies n).1)
    (fun tok htok => Token.scan_whole htok)
    (fun n b hb fuel us m hus hm t ht htk => clauseOf_of_isClause ((isClause_bodies n).2 b hb) hus
      hm ht htk) List.suffix_rfl hs

/-- A package clause does not end with a line feed. -/
theorem getElem?_ne_lineFeed {src : Bytes} {root clause : Tree} (h : parse? src = some root)
    (hclause : clause ∈ root.walk) (hk : clause.kind = .packageClause) {i : Nat}
    (hi : i + 1 = clause.stop) : src[i]? ≠ some Bytes.lineFeed := by
  intro hfeed
  obtain ⟨kw, nm, gap, rest, w, hsuffix, -, -, hnm, -, hstop⟩ := clauseOf_of_mem_walk h hclause hk
  have hmem : nm ∈ Token.scan src := hsuffix.subset (by simp)
  have hlaid := (Token.scan_stream src).laid_of_mem hmem
  have hspan := hlaid.start_lt
  refine (Token.scan_whole hmem).line (by rw [hnm]; rfl) ?_
  rw [hlaid.bytes]
  exact Bytes.mem_slice_of_getElem? (by omega) (by omega) hfeed

/-- Comments, line ends and semicolons may stand in front. -/
theorem Preamble.append {ts us : List Token} (hts : ∀ tok ∈ ts, tok.lexeme.isLoose = true)
    (hus : Preamble us) : Preamble (ts ++ us) := by
  induction ts with
  | nil => exact hus
  | cons tok ts ih =>
    obtain ⟨htok, hts⟩ := List.forall_mem_cons.mp hts
    exact .loose htok (ih hts)

/-! ## The nodes in front of an offset -/

/-- At the top level the only tokens that are nodes of their own are comments and semicolons. There
are only semicolons in an empty statement and only tokens in a package clause. -/
def heading : Table where
  admits
    | .sourceFile, m => !m.kind.isToken || m.kind = .sign .semicolon
    | .emptyStatement, m => m.kind = .sign .semicolon
    | .packageClause, m => m.kind.isToken
    | _, _ => true
  requires _ := none

theorem heading_agrees : Grammar.Agrees heading :=
  ⟨by decide +kernel, by decide, rfl⟩

/-- Up to `p` the file holds the package clause and otherwise only comments and semicolons. -/
structure Tree.Opens (root clause : Tree) (p : Nat) : Prop where
  mem : clause ∈ root.children
  kind : clause.kind = .packageClause
  stop : clause.stop ≤ p
  others : ∀ t ∈ root.children, t.start < p → t = clause ∨ t.isMute = true ∧ t.stop ≤ p

section Parsed

variable {src : Bytes} {root : Tree} (hparse : parse? src = some root)

include hparse

/-- A mute node is a comment or a semicolon, or is built of such. -/
theorem kind_of_isMute {c y : Tree} (hc : c ∈ root.children) (hmute : c.isMute = true)
    (hy : y ∈ c.walk) (htoken : y.kind.isToken = true) :
    y.kind = .comment ∨ y.kind = .sign .semicolon := by
  have hmem := Tree.mem_walk_of_mem_children root.mem_walk_self hc
  have hlaid := (parse?_laid hparse).of_mem_children hc
  rcases Bool.or_eq_true_iff.mp hmute with hitem | hempty
  · have hitem : c.isItem = false := by simpa using hitem
    obtain rfl := hlaid.eq_of_isItem_eq_false hitem hy
    have hform := parse?_formed heading_agrees hparse root.mem_walk_self
    refine (hform.admits (by rw [kind_of_parse? hparse]; rfl) y hc).imp_right fun hadmits => ?_
    rw [kind_of_parse? hparse] at hadmits
    simpa [heading, Tree.mark, htoken] using hadmits
  · have hempty : c.kind = .emptyStatement := of_decide_eq_true hempty
    have hform := parse?_formed heading_agrees hparse hmem
    rcases Tree.mem_walk_iff.mp hy with rfl | ⟨e, he, hye⟩
    · rw [hempty] at htoken
      cases htoken
    · have hemem := Tree.mem_walk_of_mem_children hmem he
      have hkind : e.kind = .comment ∨ e.kind = .sign .semicolon := by
        refine (hform.admits (by rw [hempty]; rfl) e he).imp_right fun hadmits => ?_
        rw [hempty] at hadmits
        simpa [heading, Tree.mark] using hadmits
      suffices hye : y = e by rwa [hye]
      have hitem : e.isItem = false := by
        rcases hkind with hkind | hkind <;> simp [Tree.isItem, hkind, Kind.isNamed]
      exact (hlaid.of_mem_children he).eq_of_isItem_eq_false hitem hye

/-- Only tokens and their parts stand below a mute node or a package clause. -/
theorem isBuilt_eq_false_of_below {c n : Tree} (hc : c ∈ root.children)
    (hfront : c.isMute = true ∨ c.kind = .packageClause) (hn : n ∈ c.walk) (hne : n ≠ c) :
    n.kind.isBuilt = false := by
  have hmem := Tree.mem_walk_of_mem_children root.mem_walk_self hc
  have hlaid := (parse?_laid hparse).of_mem_children hc
  obtain ⟨e, he, hne'⟩ := (Tree.mem_walk_iff.mp hn).resolve_left hne
  have hemem := Tree.mem_walk_of_mem_children hmem he
  have hform := parse?_formed heading_agrees hparse hmem
  have htoken : e.kind.isToken = true := by
    rcases hfront with hmute | hk
    · rcases Bool.or_eq_true_iff.mp hmute with hitem | hempty
      · exact absurd (hlaid.eq_of_isItem_eq_false (by simpa using hitem) hn) hne
      · have hempty : c.kind = .emptyStatement := of_decide_eq_true hempty
        rcases hform.admits (by rw [hempty]; rfl) e he with hcomment | hadmits
        · rw [hcomment]
          rfl
        · rw [hempty] at hadmits
          rw [show e.kind = .sign .semicolon by simpa [heading, Tree.mark] using hadmits]
          rfl
    · rcases hform.admits (by rw [hk]; rfl) e he with hcomment | hadmits
      · rw [hcomment]
        rfl
      · rwa [hk] at hadmits
  rcases Tree.mem_walk_iff.mp hne' with rfl | hbelow
  · simp [Kind.isBuilt, htoken]
  · simp [Kind.isBuilt, isInner_of_below hparse hemem htoken hbelow]

namespace Tree.Opens

variable {clause : Tree} {p : Nat} (h : root.Opens clause p)

include h

/-- The offset is outside of all tokens. -/
theorem clear : root.Clear p := by
  intro t ht htoken
  have hne : t ≠ root := by
    rintro rfl
    rw [kind_of_parse? hparse] at htoken
    cases htoken
  obtain ⟨c, hc, htc⟩ := (Tree.mem_walk_iff.mp ht).resolve_left hne
  obtain ⟨hstart, hstop⟩ := ((parse?_laid hparse).of_mem_children hc).span_le_of_mem_walk htc
  by_cases hp : c.start < p
  · right
    rcases h.others c hc hp with rfl | ⟨-, hcp⟩
    · have := h.stop
      omega
    · omega
  · left
    omega

/-- Where the line of the clause ends, there is no other line feed in front. -/
theorem getLast?_take_ne (hp : src.lineEnd? clause.stop = some p) :
    (src.take p).getLast? ≠ some Bytes.lineFeed := by
  intro hlast
  have hlt : p < src.length :=
    (List.getElem?_eq_some_iff.mp (Bytes.getElem?_of_lineEnd? hp).2).1
  have hpos : p ≠ 0 := by
    rintro rfl
    cases hlast
  have hprev : src[p - 1]? = some Bytes.lineFeed := by
    rwa [List.getLast?_eq_getElem?, List.length_take, Nat.min_eq_left hlt.le,
      List.getElem?_take_of_lt (by omega)] at hlast
  have hstop := h.stop
  by_cases heq : p = clause.stop
  · exact getElem?_ne_lineFeed hparse (Tree.mem_walk_of_mem_children root.mem_walk_self h.mem)
      h.kind (by omega) hprev
  · have := Bytes.lineEnd?_le hp (by omega) hprev
    omega

/-- Calls and functions stand behind the offset. -/
theorem le_start {n : Tree} (hn : n ∈ root.walk) (howner : Edit.isOwner n.kind = true) :
    p ≤ n.start := by
  have hkinds : n.kind.isBuilt = true ∧ n.kind ≠ .sourceFile ∧ n.kind ≠ .packageClause ∧
      n.isMute = false := by
    simp only [Edit.isOwner, Kind.isFunc, Kind.isFuncDecl, Bool.or_eq_true,
      decide_eq_true_eq] at howner
    rcases howner with hk | (hk | hk) | hk <;>
      simp [Tree.isMute, Tree.isItem, hk, Kind.isNamed, Kind.isBuilt, Kind.isToken, Kind.isSolid,
        Kind.isPart, Token.isInner]
  obtain ⟨hbuilt, hfile, hclause, hmute⟩ := hkinds
  have hne : n ≠ root := by
    rintro rfl
    exact hfile (kind_of_parse? hparse)
  obtain ⟨c, hc, hnc⟩ := (Tree.mem_walk_iff.mp hn).resolve_left hne
  have hspan := ((parse?_laid hparse).of_mem_children hc).span_le_of_mem_walk hnc
  by_contra hlt
  have hfront : c.isMute = true ∨ c.kind = .packageClause := by
    rcases h.others c hc (by omega) with rfl | ⟨hmute, -⟩
    · exact .inr h.kind
    · exact .inl hmute
  have hnc' : n = c := by
    by_contra hne
    have := isBuilt_eq_false_of_below hparse hc hfront hnc hne
    rw [hbuilt] at this
    cases this
  subst hnc'
  rcases hfront with hfront | hk
  · rw [hmute] at hfront
    cases hfront
  · exact hclause hk

/-- The tokens up to the offset that do not belong to the package clause tell nothing. -/
theorem isLoose {tok : Token} (htok : tok ∈ Token.scan src) (hp : tok.start < p)
    (hout : tok.stop ≤ clause.start ∨ clause.stop ≤ tok.start) : tok.lexeme.isLoose = true := by
  by_cases hnewline : tok.lexeme = .newline
  · rw [hnewline]
    rfl
  obtain ⟨y, hy, hbecomes⟩ := (parse?_leaf hparse htok).2 hnewline
  have htoken := Lexeme.isToken_of_suits hbecomes.suits
  have hspan := ((Token.scan_stream src).laid_of_mem htok).start_lt
  have hne : y ≠ root := by
    rintro rfl
    rw [kind_of_parse? hparse] at htoken
    cases htoken
  obtain ⟨c, hc, hyc⟩ := (Tree.mem_walk_iff.mp hy).resolve_left hne
  have hyspan := ((parse?_laid hparse).of_mem_children hc).span_le_of_mem_walk hyc
  rw [hbecomes.start, hbecomes.stop] at hyspan
  rcases h.others c hc (by omega) with rfl | ⟨hmute, -⟩
  · omega
  · rcases kind_of_isMute hparse hc hmute hyc htoken with hk | hk
    · rw [hbecomes.comment hk]
      rfl
    · rw [hbecomes.sign _ hk]
      rfl

/-- The tokens up to the offset: those of the package clause, and others that tell nothing. -/
theorem exists_split : ∃ (pre gap post : List Token) (kw nm : Token) (w : Word),
    (Token.scan src).filter (·.start < p) = pre ++ kw :: (gap ++ nm :: post) ∧
      kw.lexeme = .sign .kwPackage ∧ (∀ g ∈ gap, g.lexeme.isGap = true) ∧ nm.lexeme = .word w ∧
      (∀ tok ∈ pre, tok.lexeme.isLoose = true) ∧ ∀ tok ∈ post, tok.lexeme.isLoose = true := by
  obtain ⟨kw, nm, gap, rest, w, ⟨pre, hscan⟩, hkw, hgap, hnm, hstart, hstop⟩ :=
    clauseOf_of_mem_walk hparse (Tree.mem_walk_of_mem_children root.mem_walk_self h.mem) h.kind
  have hlaid : ∀ tok ∈ Token.scan src, tok.start < tok.stop := fun tok htok =>
    ((Token.scan_stream src).laid_of_mem htok).start_lt
  have hpairwise := (Token.scan_stream src).pairwise
  have hclause := h.stop
  have hisLoose := fun tok (htok : tok ∈ Token.scan src) => h.isLoose hparse htok
  rw [← hscan] at hlaid hpairwise hisLoose ⊢
  obtain ⟨-, hinner, hbefore⟩ := List.pairwise_append.mp hpairwise
  obtain ⟨hkwAll, hinner⟩ := List.pairwise_cons.mp hinner
  obtain ⟨-, hinner, hgapAll⟩ := List.pairwise_append.mp hinner
  have hnmAll := (List.pairwise_cons.mp hinner).1
  have hkwSpan := hlaid kw (by simp)
  have hnmSpan := hlaid nm (by simp)
  have hkwnm := hkwAll nm (by simp)
  have hpre : ∀ tok ∈ pre, tok.start < p ∧ tok.lexeme.isLoose = true := by
    intro tok htok
    have hstop := hbefore tok htok kw List.mem_cons_self
    have hspan := hlaid tok (by simp [htok])
    exact ⟨by omega, hisLoose tok (by simp [htok]) (by omega) (.inl (by omega))⟩
  have hgapStart : ∀ g ∈ gap, g.start < p := by
    intro g hg
    have := hgapAll g hg nm List.mem_cons_self
    have := hlaid g (by simp [hg])
    omega
  refine ⟨pre, gap, rest.filter (·.start < p), kw, nm, w, ?_, hkw, hgap, hnm,
    fun tok htok => (hpre tok htok).2, fun tok htok => ?_⟩
  · rw [List.filter_append, List.filter_cons_of_pos (by simp; omega), List.filter_append,
      List.filter_cons_of_pos (by simp; omega),
      List.filter_eq_self.mpr fun tok htok => decide_eq_true (hpre tok htok).1,
      List.filter_eq_self.mpr fun tok htok => decide_eq_true (hgapStart tok htok)]
  · obtain ⟨htok, hlt⟩ := List.mem_filter.mp htok
    have := hnmAll tok htok
    exact hisLoose tok (by simp [htok]) (of_decide_eq_true hlt) (.inr (by omega))

/-- The tokens up to the offset are those in front of the declarations, and one of them opens the
package clause. -/
theorem preamble : Preamble ((Token.scan src).filter (·.start < p)) ∧
    ((Token.scan src).filter (·.start < p)).countP (·.lexeme = .sign .kwPackage) = 1 := by
  obtain ⟨pre, gap, post, kw, nm, w, hfilter, hkw, hgap, hnm, hpre, hpost⟩ :=
    h.exists_split hparse
  have hnone : ∀ {ts : List Token}, (∀ tok ∈ ts, tok.lexeme.isLoose = true) →
      ts.countP (·.lexeme = .sign .kwPackage) = 0 := fun hts =>
    List.countP_eq_zero.mpr fun tok htok hl => by
      have := hts tok htok
      rw [of_decide_eq_true hl] at this
      cases this
  rw [hfilter]
  refine ⟨.append hpre (.clause hkw hgap hnm ?_), ?_⟩
  · rw [← List.append_nil post]
    exact .append hpost .nil
  · rw [List.countP_append, hnone hpre, List.countP_cons_of_pos (by simp [hkw]),
      List.countP_append, hnone fun g hg => Lexeme.isLoose_iff.mpr (.inl (hgap g hg)),
      List.countP_cons_of_neg (by simp [hnm]), hnone hpost]

end Tree.Opens

end Parsed

end CtxThread.Code

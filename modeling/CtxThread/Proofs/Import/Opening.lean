import CtxThread.Proofs.Code.Heading
import CtxThread.Proofs.Code.Pieces
import CtxThread.Proofs.Import.Resolved

/-!
# The import in front of the declarations

The text of the import is read as a declaration. Inserted in front of a line feed, where the file
holds its package clause only, it is the first of all declarations, and the others stay.

## Main definitions

- `groupText`: what an import is inserted as
- `Tree.PutFirst`: a tree with one more declaration, in front of all others

## Main statements

- `exists_scan_groupText`: the tokens of the import and of what comes behind it
- `scan_take_append`: the tokens up to a line feed stay
- `exists_putFirst`: the tree with the import
-/

namespace CtxThread

namespace Code

open Rule Grammar

/-! ## The tokens of the import -/

section Group

variable {kw lp nl lit nl' rp : Token} (hkw : kw.lexeme = .sign .kwImport)
  (hlp : lp.lexeme = .sign .lparen) (hnl : nl.lexeme = .newline)
  (hlit : lit.lexeme = .literal .interpretedStringLiteral) (hnl' : nl'.lexeme = .newline)
  (hrp : rp.lexeme = .sign .rparen)

include hnl hlit in
/-- A path on a line of its own is an import. -/
theorem exists_run_importSpec : ∃ spec : Tree,
    ∀ (call : Nonterminal → List Token → Option State) (out : List Tree) (rest : List Token),
      run call importSpec ⟨out, nl :: lit :: rest⟩ = some ⟨out ++ [spec], rest⟩ := by
  have hnext : ∀ rest,
      nextLexeme? (nl :: lit :: rest) = some (.literal .interpretedStringLiteral) := fun rest => by
    have hgap : ∀ g ∈ [nl], g.IsGap :=
      List.forall_mem_singleton.mpr (.inr hnl)
    rw [← hlit]
    exact Token.nextLexeme?_gap hgap (by simp [hlit]) (by simp [hlit])
  have hname : ∀ (t : Terminal) rest, t.accept? (.literal .interpretedStringLiteral) = none →
      takeToken t ⟨[], nl :: lit :: rest⟩ = none := fun t rest ht =>
    takeToken_eq_none (s := ⟨[], nl :: lit :: rest⟩) (hnext rest) ht
  have hpath : ∀ rest,
      takeToken (.literal .interpretedStringLiteral) ⟨[], nl :: lit :: rest⟩ =
        some ⟨[lit.tree .interpretedStringLiteral], rest⟩ := fun rest => by
    have hgap : ∀ g ∈ [nl], g.lexeme.isGap = true :=
      List.forall_mem_singleton.mpr (by rw [hnl]; rfl)
    have haccept : (Terminal.literal .interpretedStringLiteral).accept? lit.lexeme =
        some .interpretedStringLiteral := by
      rw [hlit]
      rfl
    simpa [commentTrees, hnl] using takeToken_behind hgap haccept [] rest
  obtain ⟨spec, hspec⟩ : ∃ spec, build .importSpec
      (mark .path [lit.tree .interpretedStringLiteral]) = [spec] :=
    ⟨_, build_cons .importSpec (by simp [Token.tree]) []⟩
  refine ⟨spec, fun call out rest => ?_⟩
  simp only [importSpec, string, name, sign, opt, choice, run, hname (.sign .dot) rest rfl,
    hname (.word .blank .blankIdentifier) rest rfl, hname (.name .packageIdentifier) rest rfl,
    hpath, hspec, Option.map_none, Option.map_some, Option.bind_some, List.nil_append]

include hlp hnl hlit hnl' hrp in
/-- On lines of their own in parentheses, imports are a list. -/
theorem exists_run_importSpecList : ∃ list : Tree, list.stop = rp.stop ∧
    ∀ (call : Nonterminal → List Token → Option State) (out : List Tree) (rest : List Token),
      run call (.node .importSpecList (chain [sign .lparen, separated importSpec, sign .rparen]))
        ⟨out, lp :: nl :: lit :: nl' :: rp :: rest⟩ = some ⟨out ++ [list], rest⟩ := by
  obtain ⟨spec, hspec⟩ := exists_run_importSpec hnl hlit
  obtain ⟨list, hbuild, -, -, hstop⟩ := build_of_sign .lparen .importSpecList [] lp
    [spec, nl'.tree .newline] (rp.tree (.sign .rparen))
  refine ⟨list, hstop, fun call out rest => ?_⟩
  have hopen : takeToken (.sign .lparen) ⟨[], lp :: nl :: lit :: nl' :: rp :: rest⟩ =
      some ⟨[lp.tree (.sign .lparen)], nl :: lit :: nl' :: rp :: rest⟩ :=
    takeToken_cons (by rw [hlp]; rfl) [] _
  have hending : ∀ out, run call ending ⟨out, nl' :: rp :: rest⟩ =
      some ⟨out ++ [nl'.tree .newline], rp :: rest⟩ := fun out => by
    have hend := run_ending_newline call (List.forall_mem_nil _) out (rp :: rest) hnl'
    rwa [commentTrees, List.filter_nil, List.map_nil, List.append_nil, List.nil_append] at hend
  have hno : ∀ out, run call importSpec ⟨out, rp :: rest⟩ = none := fun out =>
    run_eq_none_of_sign hrp (by decide +kernel) out rest
  have hclose : ∀ out, takeToken (.sign .rparen) ⟨out, rp :: rest⟩ =
      some ⟨out ++ [rp.tree (.sign .rparen)], rest⟩ := fun out =>
    takeToken_cons (by rw [hrp]; rfl) out rest
  have hmany : ∀ out fuel,
      iterate (fun s => (run call ending s).bind (run call importSpec)) fuel
        ⟨out, nl' :: rp :: rest⟩ = ⟨out, nl' :: rp :: rest⟩ := fun out fuel =>
    iterate_of_none (by rw [hending, Option.bind_some, hno]) fuel
  have hlist : build .importSpecList ([lp.tree (.sign .lparen)] ++ [spec] ++
      [nl'.tree .newline] ++ [rp.tree (.sign .rparen)]) = [list] := hbuild
  simp only [separated, opt, chain, sign, run, hopen, hspec, hmany, hending, hclose, hlist,
    Option.bind_some, Option.map_some]

include hkw hlp hnl hlit hnl' hrp in
/-- The import of one path in parentheses is read as a declaration. -/
theorem exists_opening_import : ∃ d, Opening [kw, lp, nl, lit, nl', rp] d ∧
    d.kind = .importDeclaration ∧ d.start = kw.start ∧ d.stop = rp.stop := by
  obtain ⟨list, hstop, hlist⟩ := exists_run_importSpecList hlp hnl hlit hnl' hrp
  obtain ⟨d, hbuild, hk, hstart, hend⟩ := build_of_sign .kwImport .importDeclaration [] kw [] list
  refine ⟨d, fun fuel rest => ?_, hk, hstart, hend.trans hstop⟩
  have hothers : ∀ a ∈ [functionDeclaration, methodDeclaration],
      run (derive grammar fuel) a ⟨[], [kw, lp, nl, lit, nl', rp] ++ rest⟩ = none := by
    have hlisted : ∀ a ∈ [functionDeclaration, methodDeclaration],
        a.response (fun _ => false) (.sign .kwImport) = .refuses := by
      decide +kernel
    exact fun a ha => run_eq_none_of_sign hkw (hlisted a ha) [] _
  have hsign : takeToken (.sign .kwImport) ⟨[], [kw, lp, nl, lit, nl', rp] ++ rest⟩ =
      some ⟨[kw.tree (.sign .kwImport)], lp :: nl :: lit :: nl' :: rp :: rest⟩ :=
    takeToken_cons (by rw [hkw]; rfl) [] _
  have hno : run (derive grammar fuel) importSpec ⟨[kw.tree (.sign .kwImport)],
      lp :: nl :: lit :: nl' :: rp :: rest⟩ = none :=
    run_eq_none_of_sign hlp (by decide +kernel) _ _
  have himport : run (derive grammar fuel) importDeclaration
      ⟨[], [kw, lp, nl, lit, nl', rp] ++ rest⟩ = some ⟨[d], rest⟩ := by
    have hd : build .importDeclaration ([kw.tree (.sign .kwImport)] ++ [list]) = [d] := hbuild
    have hinside : run (derive grammar fuel) (.seq (sign .kwImport) (.alt importSpec
        (.node .importSpecList (chain [sign .lparen, separated importSpec, sign .rparen]))))
        ⟨[], [kw, lp, nl, lit, nl', rp] ++ rest⟩ =
          some ⟨[kw.tree (.sign .kwImport)] ++ [list], rest⟩ := by
      rw [run, sign, run, hsign, Option.bind_some, run, hno]
      exact hlist _ _ rest
    rw [importDeclaration, run, hinside, Option.map_some, hd, List.nil_append]
  have htop : derive grammar (fuel + 1) .top ([kw, lp, nl, lit, nl', rp] ++ rest) =
      some ⟨[d], rest⟩ :=
    (run_choice_append hothers (List.cons_ne_nil importDeclaration [packageClause])).trans
      (run_choice_of_first himport [packageClause])
  simp only [run, htop, Option.map_some, List.nil_append]

end Group

/-! ## Texts up to a line feed -/

/-- Whether a text starts with a byte order mark does not depend on what comes behind a line
feed. -/
theorem Token.base_append {x y : Bytes} (hy : y.head? = some Bytes.lineFeed) :
    Token.base (x ++ y) = Token.base x := by
  obtain ⟨z, rfl⟩ := List.head?_eq_some_iff.mp hy
  have hmark : Token.byteOrderMark.isPrefixOf (x ++ Bytes.lineFeed :: z) =
      Token.byteOrderMark.isPrefixOf x := by
    rcases x with _ | ⟨a, _ | ⟨b, _ | ⟨c, x⟩⟩⟩ <;>
      simp [Token.byteOrderMark, List.isPrefixOf, Bytes.lineFeed]
  rw [Token.base, Token.base, hmark]

/-- The tokens up to a line feed stay, whatever comes behind it. -/
theorem scan_take_append {src : Bytes} {root : Tree} (hparse : parse? src = some root) {p : Nat}
    (hclear : Token.Clear src p) (hfeed : src[p]? = some Bytes.lineFeed)
    (hlast : (src.take p).getLast? ≠ some Bytes.lineFeed) {y : Bytes}
    (hy : y.head? = some Bytes.lineFeed)
    (hclose : Token.commentClose? (src.drop p) = none → Token.commentClose? y = none) :
    Token.scan (src.take p ++ y) =
      (Token.scan src).filter (·.start < p) ++ Token.scanFrom y.length p y := by
  have hlt : p < src.length := (List.getElem?_eq_some_iff.mp hfeed).1
  have hbase : Token.base src ≤ p := Token.base_le hfeed (by decide)
  have hhead : (src.drop p).head? = some Bytes.lineFeed := by rw [List.head?_drop, hfeed]
  have hcuts := cuts_to hparse hclear hbase hlt.le
  have hfront : src.slice (Token.base src) p = (src.take p).drop (Token.base src) := rfl
  have hlen : Token.base src + (src.slice (Token.base src) p).length = p := by
    rw [Bytes.length_slice]
    omega
  obtain ⟨ts, hts, hall⟩ := hcuts.exists_scanFrom hhead (fun hslice => hlast (by
    rw [hfront, List.getLast?_drop] at hslice
    split at hslice
    · cases hslice
    · exact hslice)) (Token.base src)
  rw [hlen] at hts hall
  have hscan : ∀ {z : Bytes}, z.head? = some Bytes.lineFeed →
      (Token.commentClose? (src.drop p) = none → Token.commentClose? z = none) →
      Token.scan (src.take p ++ z) = ts ++ Token.scanFrom z.length p z := by
    intro z hz hclose
    have hmark : Token.base (src.take p ++ z) = Token.base src := by
      rw [Token.base_append hz, ← Token.base_append (x := src.take p) hhead, List.take_append_drop]
    have hdrop : (src.take p ++ z).drop (Token.base src) =
        src.slice (Token.base src) p ++ z := by
      rw [List.drop_append_of_le_length (by rw [List.length_take]; omega), hfront]
    rw [← hall z hz fun _ => hclose, Token.scan_eq_scanFrom, hmark, hdrop]
    refine Token.scanFrom_stable ?_ le_rfl
    rw [← hdrop, List.length_drop]
    omega
  have hsrc := hscan hhead id
  rw [List.take_append_drop] at hsrc
  have hfilter : (Token.scan src).filter (·.start < p) = ts := by
    have hbefore : ∀ t ∈ ts, t.start < p := fun t ht => by
      have := hts t ht
      have := ((Token.scan_stream src).laid_of_mem (hsrc ▸ List.mem_append_left _ ht)).start_lt
      omega
    have hbehind : ∀ t ∈ Token.scanFrom (src.drop p).length p (src.drop p), ¬ t.start < p :=
      fun t ht => not_lt.mpr (Token.le_start_of_mem ht)
    rw [hsrc, List.filter_append, List.filter_eq_self.mpr (by simpa using hbefore),
      List.filter_eq_nil_iff.mpr (by simpa using hbehind), List.append_nil]
  rw [hfilter, hscan hy hclose]

/-! ## The text of the import -/

/-- What an import is inserted as. -/
def groupText : Bytes := Bytes.ofString ("\n\n" ++ ContextImport.group)

/-- Behind its two line feeds the text is the group of the import. -/
theorem slice_groupText (a y : Bytes) :
    (a ++ (groupText ++ y)).slice (a.length + 2) (a.length + groupText.length) =
      Bytes.ofString ContextImport.group := by
  have hgroup : groupText.drop 2 = Bytes.ofString ContextImport.group := by decide +kernel
  rw [Bytes.slice, ← List.append_assoc, ← List.length_append, List.take_left, ← List.drop_drop,
    List.drop_left, hgroup]

/-- In front of a line feed, the text is the tokens of an import on lines of its own. -/
theorem exists_groupText_tokens : ∃ nl kw lp nl' lit nl'' rp : Token,
    nl.lexeme = .newline ∧ (kw.lexeme = .sign .kwImport ∧ kw.start = 2) ∧
      lp.lexeme = .sign .lparen ∧ nl'.lexeme = .newline ∧
      lit.lexeme = .literal .interpretedStringLiteral ∧ nl''.lexeme = .newline ∧
      (rp.lexeme = .sign .rparen ∧ rp.stop = groupText.length) ∧
      ∀ y : Bytes, y.head? = some Bytes.lineFeed →
        Token.scanFrom (groupText ++ y).length 0 (groupText ++ y) =
          [nl, kw, lp, nl', lit, nl'', rp] ++ Token.scanFrom y.length groupText.length y := by
  have hcuts : Token.Cuts [Bytes.lineFeed] groupText ([] ++ Import.addedAtoms) := by
    rw [groupText, Bytes.ofString_append]
    exact (Edit.cuts_lineFeeds (n := 2) _).append (Edit.cuts_group _)
  have hlast : groupText.getLast? ≠ some Bytes.lineFeed := by decide +kernel
  have hstarless : (0x2A : UInt8) ∉ groupText := by decide +kernel
  obtain ⟨ts, -, hall⟩ := hcuts.exists_scanFrom rfl hlast 0
  let place (t : Token) : Lexeme × Nat × Nat := (t.lexeme, t.start, t.stop)
  -- what the tokens are is seen in front of a single line feed
  have hts : ts.map place = [(.newline, 0, 2), (.sign .kwImport, 2, 8), (.sign .lparen, 9, 10),
      (.newline, 10, 11), (.literal .interpretedStringLiteral, 12, 21), (.newline, 21, 22),
      (.sign .rparen, 22, 23)] := by
    have hone := congrArg (List.map place)
      (hall [Bytes.lineFeed] rfl fun hstar => absurd hstar hstarless)
    have hscan : (Token.scanFrom (groupText ++ [Bytes.lineFeed]).length 0
        (groupText ++ [Bytes.lineFeed])).map place =
        [(.newline, 0, 2), (.sign .kwImport, 2, 8), (.sign .lparen, 9, 10), (.newline, 10, 11),
          (.literal .interpretedStringLiteral, 12, 21), (.newline, 21, 22), (.sign .rparen, 22, 23)]
          ++ (Token.scanFrom [Bytes.lineFeed].length (0 + groupText.length)
            [Bytes.lineFeed]).map place := by
      decide +kernel
    rw [hscan, List.map_append] at hone
    exact (List.append_cancel_right hone).symm
  simp only [List.map_eq_cons_iff, List.map_eq_nil_iff, place, Prod.mk.injEq] at hts
  obtain ⟨nl, _, rfl, ⟨hnl, -, -⟩, kw, _, rfl, ⟨hkw, hkwStart, -⟩, lp, _, rfl, ⟨hlp, -, -⟩,
    nl', _, rfl, ⟨hnl', -, -⟩, lit, _, rfl, ⟨hlit, -, -⟩, nl'', _, rfl, ⟨hnl'', -, -⟩,
    rp, _, rfl, ⟨hrp, -, hrpStop⟩, rfl⟩ := hts
  have hlen : groupText.length = 23 := by decide +kernel
  refine ⟨nl, kw, lp, nl', lit, nl'', rp, hnl, ⟨hkw, hkwStart⟩, hlp, hnl', hlit, hnl'',
    ⟨hrp, hrpStop.trans hlen.symm⟩, fun y hy => ?_⟩
  rw [hall y hy fun hstar => absurd hstar hstarless, Nat.zero_add]

/-- Behind the inserted text all tokens are moved, and the text itself is a declaration. -/
theorem exists_scan_groupText (p : Nat) : ∃ (nl : Token) (us : List Token) (x : Tree),
    nl.lexeme = .newline ∧ Opening us x ∧ x.kind = .importDeclaration ∧ x.start = p + 2 ∧
      x.stop = p + groupText.length ∧ ∀ y : Bytes, y.head? = some Bytes.lineFeed →
        Token.scanFrom (groupText ++ y).length p (groupText ++ y) =
          nl :: (us ++ (Token.scanFrom y.length p y).map (Token.shift groupText.length)) := by
  obtain ⟨nl, kw, lp, nl', lit, nl'', rp, hnl, ⟨hkw, hkwStart⟩, hlp, hnl', hlit, hnl'',
    ⟨hrp, hrpStop⟩, hscan⟩ := exists_groupText_tokens
  obtain ⟨x, hx, hk, hstart, hstop⟩ := @exists_opening_import (kw.shift p) (lp.shift p)
    (nl'.shift p) (lit.shift p) (nl''.shift p) (rp.shift p) hkw hlp hnl' hlit hnl'' hrp
  refine ⟨nl.shift p, _, x, hnl, hx, hk, ?_, ?_, fun y hy => ?_⟩
  · rw [hstart, Token.shift, hkwStart, Nat.add_comm]
  · rw [hstop, ← hrpStop, Nat.add_comm p]
    exact Nat.add_right_comm ..
  · have hmoved := Token.scanFrom_shift p (groupText ++ y).length 0 (groupText ++ y)
    have hbehind := Token.scanFrom_shift groupText.length y.length p y
    have hbehind' := Token.scanFrom_shift p y.length groupText.length y
    rw [Nat.zero_add] at hmoved
    rw [Nat.add_comm, hbehind'] at hbehind
    rw [hmoved, hscan y hy, List.map_append, hbehind]
    rfl

/-! ## The tree with the import -/

/-- The second tree is the first with `x` put behind the package clause, in front of all other
declarations. What comes behind it is moved by `d` bytes. -/
def Tree.PutFirst (x : Tree) (d : Nat) (root root' : Tree) : Prop :=
  ∃ front back, root.children = front ++ back ∧
    root'.children = front ++ x :: back.map (Tree.shift d) ∧
    (∀ t ∈ front, t.isMute = true ∨ t.kind = .packageClause) ∧
    front.countP (·.kind = .packageClause) = 1

/-- Where the file holds its package clause only, up to a line feed, the import can be inserted
there: it is the first declaration then, and the others are read as before. -/
theorem exists_putFirst {src : Bytes} {root clause root₁ : Tree}
    (hparse : parse? src = some root) {p : Nat} (hopens : root.Opens clause p)
    (hfeed : src[p]? = some Bytes.lineFeed)
    (hlast : (src.take p).getLast? ≠ some Bytes.lineFeed) {y : Bytes}
    (hy : y.head? = some Bytes.lineFeed)
    (hclose : Token.commentClose? (src.drop p) = none → Token.commentClose? y = none)
    (hplain : parse? (src.take p ++ y) = some root₁) :
    ∃ root₂ x : Tree, parse? (src.take p ++ (groupText ++ y)) = some root₂ ∧
      x.PutFirst groupText.length root₁ root₂ ∧ x.kind = .importDeclaration ∧
      x.start = p + 2 ∧ x.stop = p + groupText.length := by
  obtain ⟨nl₂, us, x, hnl₂, hx, hk, hstart, hstop, hscan⟩ := exists_scan_groupText p
  obtain ⟨hpreamble, hcount⟩ := hopens.preamble hparse
  have hscan₁ := scan_take_append hparse ((hopens.clear hparse).scanned hparse) hfeed hlast hy
    hclose
  have hscan₂ := scan_take_append hparse ((hopens.clear hparse).scanned hparse) hfeed hlast
    (y := groupText ++ y) (by rfl) fun hnone =>
      Token.commentClose?_append_eq_none_of_not_mem (by decide +kernel) (hclose hnone)
  obtain ⟨nl, B, hnl, hrest⟩ : ∃ nl B, nl.lexeme = .newline ∧
      Token.scanFrom y.length p y = nl :: B := by
    obtain ⟨z, rfl⟩ := List.head?_eq_some_iff.mp hy
    exact ⟨_, _, rfl, rfl⟩
  rw [hscan y hy, hrest, List.map_cons] at hscan₂
  rw [hrest] at hscan₁
  rw [parse?_eq, hscan₁] at hplain
  obtain ⟨o, ho, rfl⟩ := Option.map_eq_some_iff.mp hplain
  have hmoved : (nl.shift groupText.length).lexeme = .newline := hnl
  obtain ⟨o', ho', front, back, hfront, hback, hmute, hone⟩ :=
    hpreamble.nodes?_insert hx (by rw [hk]; decide) hnl hnl₂ hmoved groupText.length ho
  refine ⟨fileTree (src.take p ++ (groupText ++ y)).length o', x, ?_,
    ⟨front, back, hfront, hback, hmute, hone.trans hcount⟩, hk, hstart, hstop⟩
  rw [parse?_eq, hscan₂, ho']
  rfl

end Code

end CtxThread

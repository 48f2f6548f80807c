import CtxThread.Proofs.Code.Ahead
import CtxThread.Proofs.Code.Separator

/-!
# The items of a file

A file is read item by item: a statement or declaration and its ending. What stands behind an item
is read like a file of its own, wherever it stands and whatever comments and line ends are in front
of it.

## Main definitions

- `nodes?`: the nodes of a file over its tokens
- `Grammar.item`: a statement or declaration at the top level, with its ending

## Main statements

- `parse?_eq`: a file is parsed by way of its nodes
- `nodes?_gap`: comments and line ends in front of the tokens
- `nodes?_shift`: moved tokens give moved nodes
- `nodes?_item`: an item in front of the tokens
-/

namespace CtxThread.Code

open Rule Grammar

namespace Grammar

/-! ## Nonterminals below the file -/

/-- A category of which a file is made. -/
def isPart (n : Nonterminal) : Bool := n ≠ .sourceFile

theorem grammar_advances {n : Nonterminal} (hn : isPart n = true) :
    (grammar n).advances isPart = true := by
  have hlisted : ∀ n ∈ nonterminals, isPart n = true → (grammar n).advances isPart = true := by
    decide +kernel
  rcases mem_nonterminals_or n with hmem | ⟨p, m, rfl⟩
  · exact hlisted n hmem hn
  · simp [grammar, tierRule, tiers, advances, isPart]

theorem grammar_passes (n : Nonterminal) : (grammar n).passes isPart = true := by
  have hlisted : ∀ n ∈ nonterminals, (grammar n).passes isPart = true := by
    decide +kernel
  rcases mem_nonterminals_or n with hmem | ⟨p, m, rfl⟩
  · exact hlisted n hmem
  · simp [grammar, tierRule, tiers, passes, isPart]

/-- A part of a file takes a token. -/
theorem derive_shorter (fuel : Nat) (n : Nonterminal) (us : List Token) (s : State)
    (hn : isPart n = true) (h : derive grammar fuel n us = some s) :
    s.rest.length < us.length := by
  induction fuel generalizing n us s with
  | zero => cases h
  | succ fuel ih => exact run_advances (derive_suffix fuel) ih (grammar_advances hn) h

/-- Comments and line ends in front of a part of a file. -/
theorem derive_gap {gap : List Token} (hgap : ∀ g ∈ gap, g.lexeme.isGap = true) (fuel : Nat)
    (n : Nonterminal) (us : List Token) (hn : isPart n = true) :
    derive grammar fuel n (gap ++ us) =
      (derive grammar fuel n us).map (State.after (commentTrees gap)) := by
  induction fuel generalizing n us with
  | zero => rfl
  | succ fuel ih =>
    exact run_gap (derive_suffix fuel) (derive_shorter fuel) hgap (fun m us hm => ih m us hm)
      (grammar_passes n) (grammar_advances hn) us

/-- A category that a semicolon does not open. -/
def isOpener (n : Nonterminal) : Bool := isPart n && n ≠ .statement

theorem grammar_refuses_semicolon {n : Nonterminal} (hn : isOpener n = true) :
    (grammar n).response isOpener (.sign .semicolon) = .refuses := by
  have hlisted : ∀ n ∈ nonterminals, isOpener n = true →
      (grammar n).response isOpener (.sign .semicolon) = .refuses := by
    decide +kernel
  rcases mem_nonterminals_or n with hmem | ⟨p, m, rfl⟩
  · exact hlisted n hmem hn
  · simp [grammar, tierRule, tiers, response, isOpener, isPart]

section Semicolon

variable {tok : Token} (htok : tok.lexeme = .sign .semicolon) (ts : List Token)

include htok

theorem derive_semicolon (fuel : Nat) (n : Nonterminal) (hn : isOpener n = true) :
    derive grammar fuel n (tok :: ts) = none := by
  induction fuel generalizing n with
  | zero => rfl
  | succ fuel ih =>
    have hresponse := run_response (by rw [htok]; rfl) ih (grammar n) (s := ⟨[], tok :: ts⟩) rfl
    rw [htok, grammar_refuses_semicolon hn] at hresponse
    exact hresponse

/-- A semicolon on its own is an empty statement. -/
theorem derive_statement_semicolon (fuel : Nat) :
    derive grammar (fuel + 1) .statement (tok :: ts) =
      some ⟨build .emptyStatement [tok.tree (.sign .semicolon)], ts⟩ := by
  have hrefuses : ∀ {a : Production}, a.response isOpener (.sign .semicolon) = .refuses →
      run (derive grammar fuel) a ⟨[], tok :: ts⟩ = none := by
    intro a ha
    have hresponse := run_response (by rw [htok]; rfl) (derive_semicolon htok ts fuel) a
      (s := ⟨[], tok :: ts⟩) rfl
    rw [htok, ha] at hresponse
    exact hresponse
  have hlast : run (derive grammar fuel) (.node .emptyStatement (sign .semicolon))
      ⟨[], tok :: ts⟩ = some ⟨build .emptyStatement [tok.tree (.sign .semicolon)], ts⟩ := by
    rw [sign, run, run, takeToken_cons (k := .sign .semicolon) (by rw [htok]; rfl)]
    rfl
  have hothers : ∀ a ∈ [keywordStatement, varDeclaration .statement, constDeclaration,
      typeDeclaration, block, .node .labeledStatement (.seq label (.call .statement)),
      simpleStatement .statement], run (derive grammar fuel) a ⟨[], tok :: ts⟩ = none := by
    have hlisted : ∀ a ∈ [keywordStatement, varDeclaration .statement, constDeclaration,
        typeDeclaration, block, .node .labeledStatement (.seq label (.call .statement)),
        simpleStatement .statement],
        a.response isOpener (.sign .semicolon) = .refuses := by
      decide +kernel
    exact fun a ha => hrefuses (hlisted a ha)
  exact (run_choice_append hothers (List.cons_ne_nil _ [])).trans hlast

end Semicolon

/-! ## Endings -/

section Ending

variable (call : Nonterminal → List Token → Option State) {cs : List Token}
  (hcs : ∀ c ∈ cs, c.lexeme = .comment) {tok : Token} (out : List Tree) (rest : List Token)

include hcs

theorem skipComments_behind (hcomment : tok.lexeme ≠ .comment) :
    skipComments out (cs ++ tok :: rest) = ⟨out ++ commentTrees cs, tok :: rest⟩ := by
  have hall : ∀ c ∈ cs, decide (c.lexeme = .comment) = true := fun c hc => decide_eq_true (hcs c hc)
  rw [skipComments_eq, List.takeWhile_append_of_pos hall, List.dropWhile_append_of_pos hall,
    List.takeWhile_cons_of_neg (by simpa using hcomment),
    List.dropWhile_cons_of_neg (by simpa using hcomment), List.append_nil]

/-- The next line end is an ending. -/
theorem run_ending_newline (htok : tok.lexeme = .newline) :
    run call ending ⟨out, cs ++ tok :: rest⟩ =
      some ⟨out ++ commentTrees cs ++ [tok.tree .newline], rest⟩ := by
  have htake : takeNewline ⟨out, cs ++ tok :: rest⟩ =
      some ⟨out ++ commentTrees cs ++ [tok.tree .newline], rest⟩ := by
    have hcomment : tok.lexeme ≠ .comment := by simp [htok]
    simp only [takeNewline, skipComments_behind hcs out rest hcomment, htok, if_true]
  simp only [ending, run, htake]

/-- A semicolon before the next line end is one. -/
theorem run_ending_semicolon (htok : tok.lexeme = .sign .semicolon) :
    run call ending ⟨out, cs ++ tok :: rest⟩ =
      some ⟨out ++ commentTrees cs ++ [tok.tree (.sign .semicolon)], rest⟩ := by
  have hnewline : takeNewline ⟨out, cs ++ tok :: rest⟩ = none := by
    simp [takeNewline, skipComments_behind hcs out rest (by simp [htok] : tok.lexeme ≠ .comment),
      htok]
  have hgap : ∀ c ∈ cs, c.lexeme.isGap = true := fun c hc => by rw [hcs c hc]; rfl
  rw [ending, run, run, hnewline, sign, run,
    takeToken_behind hgap (k := .sign .semicolon) (by rw [htok]; rfl), List.append_assoc]

/-- Nothing else is. -/
theorem run_ending_eq_none (hgap : tok.lexeme.isGap = false)
    (hsemicolon : tok.lexeme ≠ .sign .semicolon) :
    run call ending ⟨out, cs ++ tok :: rest⟩ = none := by
  have hcomment : tok.lexeme ≠ .comment := by rintro hl; rw [hl] at hgap; cases hgap
  have hnewline : tok.lexeme ≠ .newline := by rintro hl; rw [hl] at hgap; cases hgap
  have hnone : takeNewline ⟨out, cs ++ tok :: rest⟩ = none := by
    simp [takeNewline, skipComments_behind hcs out rest hcomment, hnewline]
  have haccept : (Terminal.sign .semicolon).accept? tok.lexeme = none := by
    cases hl : tok.lexeme with
    | sign g =>
      refine if_neg fun h => hsemicolon ?_
      rw [hl, h]
    | _ => rfl
  rw [ending, run, run, hnone, sign, run]
  refine takeToken_eq_none (l := tok.lexeme) ?_ haccept
  exact Token.nextLexeme?_gap (fun c hc => .inl (hcs c hc)) hcomment hnewline

end Ending

/-- A statement or declaration at the top level, with its ending. -/
def item : Production := .seq (.alt (.call .top) (.call .statement)) ending

end Grammar

/-! ## The nodes of a file -/

/-- The nodes of a file whose items have been read, if only comments and line ends are left. -/
def close? (s : State) : Option (List Tree) :=
  let s := skipBlanks s.out s.rest
  if s.rest.isEmpty then some s.out else none

/-- The nodes of a file over its tokens. -/
def nodes? (ts : List Token) : Option (List Tree) :=
  (derive grammar (nestingBound ts) .sourceFile ts).bind close?

/-- A file is parsed by way of its nodes. -/
theorem parse?_eq (src : Bytes) :
    parse? src = (nodes? (Token.scan src)).map (fileTree src.length) := by
  unfold parse? nodes?
  dsimp only
  cases derive grammar (nestingBound (Token.scan src)) .sourceFile (Token.scan src) with
  | none => rfl
  | some s =>
    simp only [Option.bind_some, close?]
    split <;> rfl

theorem close?_after (front : List Tree) (s : State) :
    close? (s.after front) = (close? s).map (front ++ ·) := by
  simp only [close?, State.after, skipBlanks_append]
  split <;> rfl

theorem close?_shift (d : Nat) (s : State) :
    close? (s.shift d) = (close? s).map (List.map (Tree.shift d)) := by
  simp only [close?, State.shift, skipBlanks_shift, List.isEmpty_map]
  split <;> rfl

theorem close?_gap {gap : List Token} (hgap : ∀ g ∈ gap, g.lexeme.isGap = true)
    (ts : List Token) :
    close? ⟨[], gap ++ ts⟩ = (close? ⟨[], ts⟩).map (commentTrees gap ++ ·) := by
  simp only [close?, skipBlanks_eq, List.takeWhile_append_of_pos hgap,
    List.dropWhile_append_of_pos hgap, List.nil_append]
  split
  · simp [commentTrees]
  · rfl

theorem close?_eq_none {s : State} {tok : Token} (htok : tok ∈ s.rest)
    (hgap : tok.lexeme.isGap = false) : close? s = none := by
  have hne : s.rest.dropWhile (·.lexeme.isGap) ≠ [] := fun hnil => by
    have := List.dropWhile_eq_nil_iff.mp hnil tok htok
    rw [hgap] at this
    cases this
  simp [close?, skipBlanks_eq, hne]

/-- Beyond the bound that parsing takes, the bound does not matter to the nodes of a file. -/
theorem nodes?_eq {ts : List Token} {fuel : Nat} (h : nestingBound ts ≤ fuel) :
    nodes? ts = (run (derive grammar fuel) sourceFileRule ⟨[], ts⟩).bind close? := by
  rw [nodes?, ← derive_eq_derive .sourceFile (h.trans (Nat.le_succ fuel))]
  rfl

/-- Comments and line ends in front of the tokens: the comments are nodes of the file. -/
theorem nodes?_gap {gap : List Token} (hgap : ∀ g ∈ gap, g.lexeme.isGap = true)
    (ts : List Token) : nodes? (gap ++ ts) = (nodes? ts).map (commentTrees gap ++ ·) := by
  have hle : nestingBound ts ≤ nestingBound (gap ++ ts) :=
    Nat.mul_le_mul_left 16 (by simp)
  rw [nodes?_eq le_rfl, nodes?_eq hle]
  have hrel : Option.Rel (Ahead gap ts)
      (run (derive grammar (nestingBound (gap ++ ts))) sourceFileRule ⟨[], gap ++ ts⟩)
      (run (derive grammar (nestingBound (gap ++ ts))) sourceFileRule ⟨[], ts⟩) :=
    run_ahead (derive_suffix _) (derive_shorter _) hgap
      (fun m us hm => derive_gap hgap _ m us hm) (grammar_passes .sourceFile)
  generalize run _ sourceFileRule ⟨[], gap ++ ts⟩ = l at hrel ⊢
  generalize run _ sourceFileRule ⟨[], ts⟩ = r at hrel ⊢
  cases hrel with
  | none => rfl
  | some h =>
    cases h with
    | still => exact close?_gap hgap ts
    | moved => exact close?_after _ _

/-- Moved tokens give moved nodes. -/
theorem nodes?_shift (d : Nat) (ts : List Token) :
    nodes? (ts.map (Token.shift d)) = (nodes? ts).map (List.map (Tree.shift d)) := by
  have hbound : nestingBound (ts.map (Token.shift d)) = nestingBound ts := by
    rw [nestingBound, List.length_map, nestingBound]
  rw [nodes?, nodes?, hbound, derive_shift]
  cases derive grammar (nestingBound ts) .sourceFile ts with
  | none => rfl
  | some s => exact close?_shift d s

/-- An item in front of the tokens. -/
theorem nodes?_item {ts rest : List Token} {out : List Tree}
    (h : run (derive grammar (nestingBound ts)) item ⟨[], ts⟩ = some ⟨out, rest⟩) :
    nodes? ts = (nodes? rest).map (out ++ ·) := by
  have hshorter : rest.length < ts.length :=
    run_advances (n := isPart) (derive_suffix _) (derive_shorter _) (by decide) h
  have hle : nestingBound rest ≤ nestingBound ts := by
    unfold nestingBound
    omega
  have happends : item.Appends := ⟨⟨trivial, trivial⟩, trivial, trivial⟩
  have hopt : (opt (.call .top) : Production).Appends := ⟨trivial, trivial⟩
  let step := run (derive grammar (nestingBound ts)) item
  have hiterate : iterate step ts.length ⟨[], ts⟩ =
      (iterate step rest.length ⟨[], rest⟩).after out := by
    obtain ⟨n, hn⟩ := Nat.exists_eq_succ_of_ne_zero (Nat.ne_zero_of_lt hshorter)
    rw [← iterate_append (run_append _ out happends), hn, iterate]
    simp only [step, h]
    rw [if_pos hshorter, State.after, List.append_nil]
    exact iterate_stable (s := ⟨out, rest⟩) (by dsimp only; omega) le_rfl
  rw [nodes?_eq le_rfl, nodes?_eq hle]
  change (run _ (opt (.call Nonterminal.top)) (iterate step ts.length ⟨[], ts⟩)).bind close? =
    ((run _ (opt (.call Nonterminal.top)) (iterate step rest.length ⟨[], rest⟩)).bind close?).map _
  rw [hiterate, run_append _ out hopt]
  cases run _ (opt (.call Nonterminal.top)) (iterate step rest.length ⟨[], rest⟩) with
  | none => rfl
  | some m => exact close?_after out m

/-- Where no item can be read, a declaration without an ending may still end the file. -/
theorem nodes?_of_item_eq_none {ts : List Token}
    (h : run (derive grammar (nestingBound ts)) item ⟨[], ts⟩ = none) :
    nodes? ts =
      (run (derive grammar (nestingBound ts)) (opt (.call .top)) ⟨[], ts⟩).bind close? := by
  rw [nodes?_eq le_rfl]
  change (run _ (opt (.call Nonterminal.top)) (iterate (run _ item) ts.length ⟨[], ts⟩)).bind
    close? = _
  rw [iterate_of_none h]

end CtxThread.Code

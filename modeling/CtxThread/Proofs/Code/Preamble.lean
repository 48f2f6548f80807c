import CtxThread.Proofs.Code.Cuts
import CtxThread.Proofs.Code.Items

/-!
# In front of the declarations

Comments, line ends, semicolons and package clauses may stand in front of the declarations of a
file. Another declaration with its ending can be put behind them: the others are read as before.

## Main definitions

- `Tree.isMute`: what says nothing at the top level of a file
- `Preamble`: tokens in front of the declarations
- `Opening`: tokens that are read as one node at the top level
- `Inserted`: nodes with one more behind those of the preamble

## Main statements

- `exists_opening_semicolon`, `exists_opening_clause`: semicolons and package clauses
- `Preamble.nodes?_insert`: a declaration is put behind the preamble
-/

namespace CtxThread.Code

open Rule Grammar

/-- The node says nothing at the top level of a file: a comment, a semicolon or an empty
statement. -/
def Tree.isMute (t : Tree) : Bool := !t.isItem || t.kind = .emptyStatement

theorem Lexeme.isLoose_iff {l : Lexeme} :
    l.isLoose = true ↔ l.isGap = true ∨ l = .sign .semicolon := by
  cases l with
  | sign g => cases g <;> simp [Lexeme.isLoose, Lexeme.isGap]
  | _ => simp [Lexeme.isLoose, Lexeme.isGap]

/-- The tokens in front of the declarations of a file. -/
inductive Preamble : List Token → Prop
  | nil : Preamble []
  | loose {tok : Token} {ts : List Token} (htok : tok.lexeme.isLoose = true) (h : Preamble ts) :
    Preamble (tok :: ts)
  | clause {kw nm : Token} {gap ts : List Token} (hkw : kw.lexeme = .sign .kwPackage)
    (hgap : ∀ g ∈ gap, g.lexeme.isGap = true) {w : Word} (hnm : nm.lexeme = .word w)
    (h : Preamble ts) : Preamble (kw :: (gap ++ nm :: ts))

/-! ## The nodes of the preamble -/

/-- The tokens are read as the node `t`, whatever comes behind them. -/
def Opening (us : List Token) (t : Tree) : Prop :=
  ∀ fuel rest, run (derive grammar (fuel + 1)) (.alt (.call .top) (.call .statement))
    ⟨[], us ++ rest⟩ = some ⟨[t], rest⟩

theorem exists_nestingBound (ts : List Token) : ∃ fuel, nestingBound ts = fuel + 1 :=
  Nat.exists_eq_succ_of_ne_zero (by unfold nestingBound; omega)

namespace Opening

variable {us rest : List Token} {t : Tree} (h : Opening us t)

include h

theorem run_item : run (derive grammar (nestingBound (us ++ rest))) item ⟨[], us ++ rest⟩ =
    run (derive grammar (nestingBound (us ++ rest))) ending ⟨[t], rest⟩ := by
  obtain ⟨fuel, hfuel⟩ := exists_nestingBound (us ++ rest)
  rw [hfuel, item, run, h fuel rest, Option.bind_some]

/-- With an ending they are an item of a file. -/
theorem nodes?_of_ending {rest' : List Token} {out : List Tree}
    (hend : ∀ call : Nonterminal → List Token → Option State,
      run call ending ⟨[t], rest⟩ = some ⟨out, rest'⟩) :
    nodes? (us ++ rest) = (nodes? rest').map (out ++ ·) :=
  nodes?_item (h.run_item.trans (hend _))

end Opening

/-- In front of a sign the rule does not fit. -/
theorem run_eq_none_of_sign {call : Nonterminal → List Token → Option State} {g : Sign}
    {tok : Token} (htok : tok.lexeme = .sign g) {a : Production}
    (ha : a.response (fun _ => false) (.sign g) = .refuses) (out : List Tree)
    (ts : List Token) : run call a ⟨out, tok :: ts⟩ = none := by
  have hresponse : (a.response (fun _ => false) tok.lexeme).Holds ⟨out, tok :: ts⟩
      (run call a ⟨out, tok :: ts⟩) :=
    run_response (by rw [htok]; rfl) (fun m hm => by cases hm) a rfl
  rw [htok, ha] at hresponse
  exact hresponse

/-- A semicolon is an empty statement. -/
theorem exists_opening_semicolon {tok : Token} (htok : tok.lexeme = .sign .semicolon) :
    ∃ t, Opening [tok] t ∧ t.kind = .emptyStatement := by
  obtain ⟨t, hbuild, hk⟩ : ∃ t, build .emptyStatement [tok.tree (.sign .semicolon)] = [t] ∧
      t.kind = .emptyStatement :=
    ⟨_, build_cons .emptyStatement (by simp [Token.tree]) [], rfl⟩
  refine ⟨t, fun fuel rest => ?_, hk⟩
  simp only [run, List.singleton_append, derive_semicolon htok rest (fuel + 1) .top rfl,
    derive_statement_semicolon htok rest fuel, hbuild, Option.map_none, Option.map_some,
    List.nil_append]

/-- A package clause is one. -/
theorem derive_top_clause {kw nm : Token} {gap : List Token}
    (hkw : kw.lexeme = .sign .kwPackage) (hgap : ∀ g ∈ gap, g.lexeme.isGap = true) {w : Word}
    (hnm : nm.lexeme = .word w) (fuel : Nat) (rest : List Token) :
    derive grammar (fuel + 1) .top (kw :: (gap ++ nm :: rest)) =
      some ⟨build .packageClause (kw.tree (.sign .kwPackage) ::
        (commentTrees gap ++ [nm.tree .packageIdentifier])), rest⟩ := by
  have hothers : ∀ a ∈ [functionDeclaration, methodDeclaration, importDeclaration],
      run (derive grammar fuel) a ⟨[], kw :: (gap ++ nm :: rest)⟩ = none := by
    have hlisted : ∀ a ∈ [functionDeclaration, methodDeclaration, importDeclaration],
        a.response (fun _ => false) (.sign .kwPackage) = .refuses := by
      decide +kernel
    exact fun a ha => run_eq_none_of_sign hkw (hlisted a ha) [] _
  refine (run_choice_append hothers (List.cons_ne_nil packageClause [])).trans ?_
  have hsign : takeToken (.sign .kwPackage) ⟨[], kw :: (gap ++ nm :: rest)⟩ =
      some ⟨[kw.tree (.sign .kwPackage)], gap ++ nm :: rest⟩ :=
    takeToken_cons (by rw [hkw]; rfl) [] _
  have hname : takeToken (.name .packageIdentifier)
      ⟨[kw.tree (.sign .kwPackage)], gap ++ nm :: rest⟩ =
        some ⟨[kw.tree (.sign .kwPackage)] ++
          (commentTrees gap ++ [nm.tree .packageIdentifier]), rest⟩ :=
    takeToken_behind hgap (by rw [hnm]; rfl) _ rest
  simp only [choice, packageClause, sign, name, run, hsign, hname, Option.bind_some,
    Option.map_some, List.nil_append, List.singleton_append]

theorem exists_opening_clause {kw nm : Token} {gap : List Token}
    (hkw : kw.lexeme = .sign .kwPackage) (hgap : ∀ g ∈ gap, g.lexeme.isGap = true) {w : Word}
    (hnm : nm.lexeme = .word w) :
    ∃ t, Opening (kw :: (gap ++ [nm])) t ∧ t.kind = .packageClause ∧
      ∀ fuel rest, derive grammar (fuel + 1) .top (kw :: (gap ++ nm :: rest)) =
        some ⟨[t], rest⟩ := by
  obtain ⟨t, hbuild, hk⟩ : ∃ t, build .packageClause (kw.tree (.sign .kwPackage) ::
      (commentTrees gap ++ [nm.tree .packageIdentifier])) = [t] ∧ t.kind = .packageClause :=
    ⟨_, build_cons .packageClause (by simp [Token.tree]) _, rfl⟩
  have htop := fun fuel rest =>
    hbuild ▸ derive_top_clause hkw hgap hnm fuel rest
  refine ⟨t, fun fuel rest => ?_, hk, htop⟩
  simp only [run, List.cons_append, List.append_assoc, List.nil_append, htop fuel rest,
    Option.map_some]

/-! ## Items without an ending -/

/-- Without an ending the tokens, which are read as `t`, are no item of a file. -/
def Stuck (us : List Token) (t : Tree) : Prop :=
  ∀ rest, (∃ tok ∈ rest, tok.lexeme.isGap = false) →
    (∀ call : Nonterminal → List Token → Option State, run call ending ⟨[t], rest⟩ = none) →
    nodes? (us ++ rest) = none

theorem stuck_semicolon {tok : Token} (htok : tok.lexeme = .sign .semicolon) {t : Tree}
    (ht : Opening [tok] t) : Stuck [tok] t := by
  intro rest _ hend
  rw [nodes?_of_item_eq_none (ht.run_item.trans (hend _))]
  have htop : run (derive grammar (nestingBound ([tok] ++ rest))) (opt (.call .top))
      ⟨[], [tok] ++ rest⟩ = some ⟨[], [tok] ++ rest⟩ := by
    simp only [opt, run, List.singleton_append, derive_semicolon htok rest _ .top rfl,
      Option.map_none]
  rw [htop]
  exact close?_eq_none (List.mem_cons_self (a := tok)) (by rw [htok]; rfl)

theorem stuck_of_top {us : List Token} {t : Tree} (ht : Opening us t)
    (htop : ∀ fuel rest, derive grammar (fuel + 1) .top (us ++ rest) = some ⟨[t], rest⟩) :
    Stuck us t := by
  rintro rest ⟨tok, htok, hgap⟩ hend
  rw [nodes?_of_item_eq_none (ht.run_item.trans (hend _))]
  obtain ⟨fuel, hfuel⟩ := exists_nestingBound (us ++ rest)
  have hlast : run (derive grammar (nestingBound (us ++ rest))) (opt (.call .top))
      ⟨[], us ++ rest⟩ = some ⟨[t], rest⟩ := by
    simp only [opt, run, hfuel, htop fuel rest, Option.map_some, List.nil_append]
  rw [hlast]
  exact close?_eq_none htok hgap

/-! ## Endings in the preamble -/

/-- What stands in front of the next ending: comments up to the end of the preamble, comments and an
ending, or something that cannot be passed over. -/
theorem Preamble.cases {A : List Token} (hA : Preamble A) :
    (∀ c ∈ A, c.lexeme = .comment) ∨
    ∃ cs tok ts, A = cs ++ tok :: ts ∧ (∀ c ∈ cs, c.lexeme = .comment) ∧
      ((tok.lexeme = .newline ∨ tok.lexeme = .sign .semicolon) ∧ Preamble ts ∨
        tok.lexeme.isGap = false ∧ tok.lexeme ≠ .sign .semicolon) := by
  induction hA with
  | nil => exact .inl (List.forall_mem_nil _)
  | @loose tok ts htok hts ih =>
    by_cases hcomment : tok.lexeme = .comment
    · rcases ih with hall | ⟨cs, tok', ts', rfl, hcs, hrest⟩
      · exact .inl (List.forall_mem_cons.mpr ⟨hcomment, hall⟩)
      · exact .inr ⟨tok :: cs, tok', ts', rfl, List.forall_mem_cons.mpr ⟨hcomment, hcs⟩, hrest⟩
    · refine .inr ⟨[], tok, ts, rfl, List.forall_mem_nil _, .inl ⟨?_, hts⟩⟩
      refine (Lexeme.isLoose_iff.mp htok).imp_left fun hgap => ?_
      simpa [Lexeme.isGap, hcomment] using hgap
  | @clause kw nm gap ts hkw _ _ _ _ _ =>
    exact .inr ⟨[], kw, gap ++ nm :: ts, rfl, List.forall_mem_nil _,
      .inr ⟨by rw [hkw]; rfl, by simp [hkw]⟩⟩

/-! ## One more declaration -/

/-- The nodes `us` of a file are the nodes `ts` with `x` behind those in front, and those behind it
are moved by `d` bytes. Of the nodes in front, `n` are package clauses and the others are mute. -/
def Inserted (d : Nat) (x : Tree) (n : Nat) (ts us : List Tree) : Prop :=
  ∃ front back, ts.filter (·.kind ≠ .newline) = front ++ back ∧
    us.filter (·.kind ≠ .newline) = front ++ x :: back.map (Tree.shift d) ∧
    (∀ t ∈ front, t.isMute = true ∨ t.kind = .packageClause) ∧
    front.countP (·.kind = .packageClause) = n

namespace Inserted

variable {d n : Nat} {x : Tree} {ts us : List Tree}

theorem here (hx : x.kind ≠ .newline) (nl : Token) (ts : List Tree) :
    Inserted d x 0 ts ([x] ++ [nl.tree .newline] ++ ts.map (Tree.shift d)) := by
  refine ⟨[], ts.filter (·.kind ≠ .newline), rfl, ?_, List.forall_mem_nil _, rfl⟩
  have hshift : (ts.map (Tree.shift d)).filter (·.kind ≠ .newline) =
      (ts.filter (·.kind ≠ .newline)).map (Tree.shift d) := by
    simp [List.filter_map, Function.comp_def]
  rw [List.filter_append, List.filter_append, hshift, List.filter_cons_of_pos (by simpa using hx),
    List.filter_cons_of_neg (by simp [Token.tree])]
  rfl

/-- More nodes in front, which may differ by hidden ones. -/
theorem behind (h : Inserted d x n ts us) {ws ws' : List Tree}
    (heq : ws'.filter (·.kind ≠ .newline) = ws.filter (·.kind ≠ .newline))
    (hmute : ∀ t ∈ ws, t.isMute = true ∨ t.kind = .packageClause) :
    Inserted d x (ws.countP (·.kind = .packageClause) + n) (ws ++ ts) (ws' ++ us) := by
  obtain ⟨front, back, hts, hus, hfront, hcount⟩ := h
  refine ⟨ws.filter (·.kind ≠ .newline) ++ front, back, ?_, ?_, ?_, ?_⟩
  · rw [List.filter_append, hts, List.append_assoc]
  · rw [List.filter_append, hus, heq, List.append_assoc]
  · exact List.forall_mem_append.mpr ⟨fun t ht => hmute t (List.mem_of_mem_filter ht), hfront⟩
  · rw [List.countP_append, hcount, List.countP_filter]
    congr 1
    refine List.countP_congr fun t _ => ?_
    by_cases hk : t.kind = .packageClause <;> simp [hk]

end Inserted

/-- A node at the top level, comments and what its ending leaves. -/
def ended (t : Tree) (cs : List Token) (tok : Token) (k : Kind) : List Tree :=
  [t] ++ commentTrees cs ++ [tok.tree k]

section Ended

variable {t : Tree} (ht : t.isMute = true ∨ t.kind = .packageClause) (cs : List Token)
  (tok : Token) {k : Kind} (hk : k.isNamed = false)

include ht hk in
theorem ended_mute : ∀ u ∈ ended t cs tok k, u.isMute = true ∨ u.kind = .packageClause := by
  intro u hu
  rcases List.mem_append.mp hu with hu | hu
  · rcases List.mem_append.mp hu with hu | hu
    · rwa [List.mem_singleton.mp hu]
    · exact .inl (by simp [Tree.isMute, Tree.isItem, kind_of_mem_commentTrees hu])
  · rw [List.mem_singleton.mp hu]
    exact .inl (by simp [Tree.isMute, Tree.isItem, Token.tree, hk])

include hk in
theorem countP_ended : (ended t cs tok k).countP (·.kind = .packageClause) =
    [t].countP (·.kind = .packageClause) := by
  have hcomments : (commentTrees cs).countP (·.kind = .packageClause) = 0 :=
    List.countP_eq_zero.mpr fun c hc => by simp [kind_of_mem_commentTrees hc]
  have hlast : [tok.tree k].countP (·.kind = .packageClause) = 0 := by
    refine List.countP_eq_zero.mpr fun c hc => ?_
    rw [List.mem_singleton.mp hc]
    intro h
    rw [show k = .packageClause from of_decide_eq_true h] at hk
    cases hk
  rw [ended, List.countP_append, List.countP_append, hcomments, hlast]
  rfl

end Ended

/-- The next line end or semicolon is an ending, whatever comes behind it. -/
theorem exists_run_ending {cs : List Token} (hcs : ∀ c ∈ cs, c.lexeme = .comment) {tok : Token}
    (htok : tok.lexeme = .newline ∨ tok.lexeme = .sign .semicolon) :
    ∃ k : Kind, k.isNamed = false ∧ ∀ call t rest,
      run (ν := Nonterminal) call ending ⟨[t], cs ++ tok :: rest⟩ =
        some ⟨ended t cs tok k, rest⟩ := by
  rcases htok with htok | htok
  · exact ⟨.newline, rfl, fun call t rest => run_ending_newline call hcs [t] rest htok⟩
  · exact ⟨.sign .semicolon, rfl, fun call t rest => run_ending_semicolon call hcs [t] rest htok⟩

section Insert

variable {us B : List Token} {x : Tree} (hus : Opening us x) (hx : x.kind ≠ .newline)
  {nl nl₂ nl₃ : Token} (hnl : nl.lexeme = .newline) (hnl₂ : nl₂.lexeme = .newline)
  (hnl₃ : nl₃.lexeme = .newline) (d : Nat)

include hus hnl₃ in
/-- A declaration in front of tokens that are moved. -/
theorem nodes?_declaration : nodes? (us ++ nl₃ :: B.map (Token.shift d)) =
    (nodes? B).map fun r => [x] ++ [nl₃.tree .newline] ++ r.map (Tree.shift d) := by
  have hend : ∀ call : Nonterminal → List Token → Option State,
      run call ending ⟨[x], nl₃ :: B.map (Token.shift d)⟩ =
        some ⟨[x] ++ [nl₃.tree .newline], B.map (Token.shift d)⟩ := fun call =>
    run_ending_newline call (List.forall_mem_nil _) [x] (B.map (Token.shift d)) hnl₃
  rw [hus.nodes?_of_ending hend, nodes?_shift, Option.map_map]
  rfl

include hus hx hnl hnl₂ hnl₃ in
/-- A declaration is put behind an item of the preamble and what follows it there. -/
theorem nodes?_insert_item {vs A : List Token} {t : Tree} (hvs : Opening vs t)
    (ht : t.isMute = true ∨ t.kind = .packageClause)
    (hstuck : Stuck vs t) (hA : Preamble A)
    (ih : ∀ ts o, ts.length < A.length → Preamble ts → nodes? (ts ++ nl :: B) = some o →
      ∃ o', nodes? (ts ++ nl₂ :: (us ++ nl₃ :: B.map (Token.shift d))) = some o' ∧
        Inserted d x (ts.countP (·.lexeme = .sign .kwPackage)) o o')
    {o : List Tree} (h : nodes? (vs ++ (A ++ nl :: B)) = some o) :
    ∃ o', nodes? (vs ++ (A ++ nl₂ :: (us ++ nl₃ :: B.map (Token.shift d)))) = some o' ∧
      Inserted d x ([t].countP (·.kind = .packageClause) +
        A.countP (·.lexeme = .sign .kwPackage)) o o' := by
  have hnone : ∀ {cs : List Token}, (∀ c ∈ cs, c.lexeme = .comment) →
      cs.countP (·.lexeme = .sign .kwPackage) = 0 := fun hcs =>
    List.countP_eq_zero.mpr fun c hc => by simp [hcs c hc]
  rcases hA.cases with hall | ⟨cs, tok, ts, rfl, hcs, ⟨htok, hts⟩ | ⟨hgap, hsemicolon⟩⟩
  · -- the line end behind the preamble is the ending
    rw [hvs.nodes?_of_ending fun call => run_ending_newline call hall [t] B hnl] at h
    obtain ⟨r, hr, rfl⟩ := Option.map_eq_some_iff.mp h
    have hout : nodes? (vs ++ (A ++ nl₂ :: (us ++ nl₃ :: B.map (Token.shift d)))) =
        some (ended t A nl₂ .newline ++ ([x] ++ [nl₃.tree .newline] ++ r.map (Tree.shift d))) := by
      rw [hvs.nodes?_of_ending fun call => run_ending_newline call hall [t] _ hnl₂,
        nodes?_declaration hus hnl₃ d, hr]
      rfl
    have hhidden : ∀ tok, (ended t A tok .newline).filter (·.kind ≠ .newline) =
        ([t] ++ commentTrees A).filter (·.kind ≠ .newline) := fun tok => by
      rw [ended, List.filter_append, List.filter_cons_of_neg (by simp [Token.tree]),
        List.filter_nil, List.append_nil]
    refine ⟨_, hout, ?_⟩
    rw [hnone hall, ← countP_ended (k := .newline) A nl rfl]
    exact (Inserted.here hx nl₃ r).behind ((hhidden nl₂).trans (hhidden nl).symm)
      (ended_mute ht A nl rfl)
  · obtain ⟨k, hk, hend⟩ := exists_run_ending hcs htok
    have happ : ∀ ws, cs ++ tok :: ts ++ ws = cs ++ tok :: (ts ++ ws) := fun ws => by simp
    rw [happ, hvs.nodes?_of_ending fun call => hend call t _] at h
    obtain ⟨r, hr, rfl⟩ := Option.map_eq_some_iff.mp h
    obtain ⟨o', ho', hinserted⟩ := ih ts r (by simp; omega) hts hr
    refine ⟨ended t cs tok k ++ o', ?_, ?_⟩
    · rw [happ, hvs.nodes?_of_ending fun call => hend call t _, ho']
      rfl
    · have hcount : (cs ++ tok :: ts).countP (·.lexeme = .sign .kwPackage) =
          ts.countP (·.lexeme = .sign .kwPackage) := by
        rw [List.countP_append, hnone hcs, List.countP_cons_of_neg, Nat.zero_add]
        rcases htok with htok | htok <;> simp [htok]
      rw [hcount, ← countP_ended cs tok hk]
      exact hinserted.behind rfl (ended_mute ht cs tok hk)
  · -- something else stands where the ending should
    exfalso
    have happ : cs ++ tok :: ts ++ nl :: B = cs ++ tok :: (ts ++ nl :: B) := by simp
    rw [happ, hstuck _ ⟨tok, by simp, hgap⟩ fun call =>
      run_ending_eq_none call hcs [t] _ hgap hsemicolon] at h
    cases h

include hus hx hnl hnl₂ hnl₃ in
/-- A declaration is put behind the preamble, in front of the line end there. -/
theorem Preamble.nodes?_insert {A : List Token} (hA : Preamble A) {o : List Tree}
    (h : nodes? (A ++ nl :: B) = some o) :
    ∃ o', nodes? (A ++ nl₂ :: (us ++ nl₃ :: B.map (Token.shift d))) = some o' ∧
      Inserted d x (A.countP (·.lexeme = .sign .kwPackage)) o o' := by
  induction hn : A.length using Nat.strong_induction_on generalizing A o with
  | _ n ih =>
    subst hn
    have hgap : ∀ {tok : Token}, tok.lexeme.isGap = true → ∀ ts : List Token,
        nodes? (tok :: ts) = (nodes? ts).map (commentTrees [tok] ++ ·) := fun htok ts =>
      nodes?_gap (List.forall_mem_singleton.mpr htok) ts
    have hfeed : ∀ {tok : Token}, tok.lexeme = .newline → ∀ ts : List Token,
        nodes? (tok :: ts) = nodes? ts := fun htok ts => by
      rw [hgap (by rw [htok]; rfl)]
      simp [commentTrees, htok]
    cases hA with
    | nil =>
      rw [List.nil_append, hfeed hnl] at h
      refine ⟨[x] ++ [nl₃.tree .newline] ++ o.map (Tree.shift d), ?_, .here hx nl₃ o⟩
      rw [List.nil_append, hfeed hnl₂, nodes?_declaration hus hnl₃ d, h]
      rfl
    | @loose tok ts htok hts =>
      by_cases hsemicolon : tok.lexeme = .sign .semicolon
      · obtain ⟨t, ht, hk⟩ := exists_opening_semicolon hsemicolon
        obtain ⟨o', ho', hinserted⟩ := nodes?_insert_item hus hx hnl hnl₂ hnl₃ d ht
          (.inl (by simp [Tree.isMute, hk])) (stuck_semicolon hsemicolon ht) hts
          (fun ws o hws hw h => ih _ (hws.trans (Nat.lt_succ_self _)) hw h rfl) h
        exact ⟨o', ho', by simpa [hk, hsemicolon] using hinserted⟩
      · have htok' : tok.lexeme.isGap = true :=
          (Lexeme.isLoose_iff.mp htok).resolve_right hsemicolon
        rw [List.cons_append, hgap htok'] at h
        obtain ⟨r, hr, rfl⟩ := Option.map_eq_some_iff.mp h
        obtain ⟨o', ho', hinserted⟩ := ih _ (Nat.lt_succ_self _) hts hr rfl
        refine ⟨commentTrees [tok] ++ o', ?_, ?_⟩
        · rw [List.cons_append, hgap htok', ho']
          rfl
        · have hnone : (commentTrees [tok]).countP (·.kind = .packageClause) = 0 :=
            List.countP_eq_zero.mpr fun c hc => by simp [kind_of_mem_commentTrees hc]
          have hmute : ∀ c ∈ commentTrees [tok], c.isMute = true ∨ c.kind = .packageClause :=
            fun c hc => .inl (by simp [Tree.isMute, Tree.isItem, kind_of_mem_commentTrees hc])
          have hbehind := hinserted.behind rfl hmute
          have hne : tok.lexeme ≠ .sign .kwPackage := fun hl => by rw [hl] at htok'; cases htok'
          rw [hnone, Nat.zero_add] at hbehind
          rwa [List.countP_cons_of_neg (by simpa using hne)]
    | @clause kw nm gap ts hkw hgap' w hnm hts =>
      obtain ⟨t, ht, hk, htop⟩ := exists_opening_clause hkw hgap' hnm
      have happ : ∀ ws, kw :: (gap ++ nm :: ts) ++ ws = kw :: (gap ++ [nm]) ++ (ts ++ ws) :=
        fun ws => by simp
      have hstuck : Stuck (kw :: (gap ++ [nm])) t :=
        stuck_of_top ht fun fuel rest => by simpa using htop fuel rest
      rw [happ] at h
      obtain ⟨o', ho', hinserted⟩ := nodes?_insert_item hus hx hnl hnl₂ hnl₃ d ht (.inr hk) hstuck
        hts (fun ws o hws hw h => ih _ (by simp; omega) hw h rfl) h
      refine ⟨o', by rw [happ, ho'], ?_⟩
      have hcount : (kw :: (gap ++ nm :: ts)).countP (·.lexeme = .sign .kwPackage) =
          1 + ts.countP (·.lexeme = .sign .kwPackage) := by
        have hgaps : gap.countP (·.lexeme = .sign .kwPackage) = 0 :=
          List.countP_eq_zero.mpr fun g hg hl => by
            have := hgap' g hg
            rw [of_decide_eq_true hl] at this
            cases this
        rw [List.countP_cons_of_pos (by simpa using hkw), List.countP_append, hgaps,
          List.countP_cons_of_neg (by simp [hnm]), Nat.zero_add, Nat.add_comm]
      rw [hcount]
      simpa [hk] using hinserted

end Insert

end CtxThread.Code

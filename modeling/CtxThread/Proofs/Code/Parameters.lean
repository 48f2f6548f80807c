import CtxThread.Code.Outline
import CtxThread.Naming
import CtxThread.Proofs.Code.Front
import CtxThread.Proofs.Code.Reread

/-!
# Reading a list of parameters

A list of parameters can be read off the text at its opening parenthesis. For the lists of a parsed
file this gives the lists of its tree. Where a list is read, it is read as well with the context
parameter in front, followed by a comma unless the list is empty, and the declarations behind it
are the same.

## Main definitions

- `listAt?`: the list of parameters that stands at an offset
- `contextTokens`, `contextDecl`: the context parameter as tokens and as a node

## Main statements

- `listAt?_of_mem_walk`: the lists of parameters of a file are read at their places
- `exists_listAt?_prepend`: so are those lists with the context parameter in front
-/

namespace CtxThread.Code

open Rule

namespace Grammar

theorem avoids_parameterList (n : Nonterminal) (hn : n ≠ .parameterList) :
    (grammar n).avoids .parameterList = true := by
  have hlisted : ∀ n ∈ nonterminals, n ≠ .parameterList →
      (grammar n).avoids .parameterList = true := by
    decide +kernel
  rcases mem_nonterminals_or n with hmem | ⟨p, m, rfl⟩
  · exact hlisted n hmem hn
  · simp [grammar, tierRule, tiers, avoids]

/-- What stands in a list of parameters behind its opening parenthesis. -/
def listInside : Production := .seq (opt (commaList parameter)) (sign .rparen)

theorem appends_listInside : listInside.Appends := ⟨appends_parameters, trivial⟩

theorem grammar_parameterList :
    grammar .parameterList = .node .parameterList (.seq (sign .lparen) listInside) := rfl

/-- What the tokens behind an opening parenthesis are read as. -/
def readInside (ts : List Token) : Option State :=
  run (derive grammar (nestingBound ts)) listInside ⟨[], ts⟩

end Grammar

open Grammar

/-- The list of parameters with the opening parenthesis `lp` and the nodes `out` behind it. -/
def listNode (lp : Token) (out : List Tree) : Tree :=
  let nodes := lp.tree (.sign .lparen) :: out
  ⟨.parameterList, none, lp.start, (nodes.getLast (List.cons_ne_nil _ _)).stop, [],
    nodes.filter (·.kind ≠ .newline)⟩

theorem build_listNode (lp : Token) (out : List Tree) :
    build .parameterList (lp.tree (.sign .lparen) :: out) = [listNode lp out] :=
  build_cons .parameterList (by simp [Token.tree]) out

theorem paramDecls_listNode (lp : Token) (out : List Tree) :
    (listNode lp out).paramDecls = out.filter (·.kind.isParamDecl) := by
  have hnewline : ∀ t : Tree, t.kind.isParamDecl = true → t.kind ≠ .newline := by
    rintro t ht hk
    rw [hk] at ht
    cases ht
  rw [Tree.paramDecls, listNode, List.filter_filter]
  refine (List.filter_congr fun t _ => ?_).trans
    (List.filter_cons_of_neg (by simp [Token.tree, Kind.isParamDecl]))
  cases ht : t.kind.isParamDecl with
  | false => rfl
  | true => simpa using hnewline t ht

/-! ## Lists at their places -/

/-- From an opening parenthesis on, a list of parameters is read by what stands inside. -/
theorem derive_parameterList {fuel : Nat} {lp : Token} {rest : List Token}
    (hlp : lp.lexeme = .sign .lparen) (hfuel : nestingBound rest ≤ fuel) :
    derive grammar (fuel + 1) .parameterList (lp :: rest) =
      (readInside rest).map fun m => ⟨[listNode lp m.out], m.rest⟩ := by
  have htake : takeToken (.sign .lparen) ⟨[], lp :: rest⟩ =
      some (State.after [lp.tree (.sign .lparen)] ⟨[], rest⟩) :=
    takeToken_cons (by rw [hlp]; rfl) [] rest
  rw [derive, grammar_parameterList, run, run, sign, run, htake, Option.bind_some,
    run_append _ _ appends_listInside, run_derive_eq (s := ⟨[], rest⟩) hfuel, Option.map_map,
    readInside]
  refine congrArg (Option.map · _) (funext fun m => ?_)
  simp only [Function.comp_apply, State.after, List.singleton_append, build_listNode,
    List.nil_append]

/-- A list of parameters is read from its opening parenthesis on, and comments stay in front. -/
theorem exists_of_derive_parameterList {fuel : Nat} {us : List Token} {s : State}
    (hfuel : nestingBound us ≤ fuel + 1)
    (h : derive grammar (fuel + 1) .parameterList us = some s) :
    ∃ cs lp rest m, lp :: rest <:+ us ∧ lp.lexeme = .sign .lparen ∧
      (∀ c ∈ cs, c.kind = .comment) ∧ readInside rest = some m ∧
      s.out = cs ++ [listNode lp m.out] := by
  rw [derive, grammar_parameterList, run] at h
  obtain ⟨m, hm, rfl⟩ := Option.map_eq_some_iff.mp h
  obtain ⟨m₀, hfirst, hinside⟩ := Option.bind_eq_some_iff.mp hm
  obtain ⟨cs, hcs, hcomments⟩ := skipBlanks_out [] us
  have hsuffix := skipBlanks_suffix [] us
  have hnext := nextLexeme?_of_takeToken hfirst
  rw [sign, run, takeToken] at hfirst
  dsimp only at hfirst
  split at hfirst
  · cases hfirst
  · next lp rest hrest =>
    obtain ⟨k, hk, rfl⟩ := Option.map_eq_some_iff.mp hfirst
    have hlp : lp.lexeme = .sign .lparen := by
      rw [nextLexeme?, hrest, List.head?_cons, Option.map_some] at hnext
      exact Option.some.inj hnext
    obtain rfl : k = .sign .lparen := (Terminal.accept?_cases hk).1
    rw [hrest] at hsuffix
    have hle : nestingBound rest ≤ fuel := by
      have := hsuffix.length_le
      rw [List.length_cons] at this
      unfold nestingBound at hfuel ⊢
      omega
    -- what comes behind the comments and the parenthesis does not depend on them
    have happend := run_append (derive grammar fuel) (cs ++ [lp.tree (.sign .lparen)])
      appends_listInside ⟨[], rest⟩
    rw [State.after, List.append_nil] at happend
    rw [hcs, List.nil_append, happend, run_derive_eq (s := ⟨[], rest⟩) hle] at hinside
    obtain ⟨m', hm', rfl⟩ := Option.map_eq_some_iff.mp hinside
    refine ⟨cs, lp, rest, m', hsuffix, hlp, hcomments, hm', ?_⟩
    rw [State.after, List.append_assoc, List.singleton_append]
    exact (build_comments .parameterList hcomments _).trans
      (congrArg (cs ++ ·) (build_listNode lp m'.out))

/-- The list of parameters that is read at the offset `pos` of a text. -/
def listAt? (src : Bytes) (pos : Nat) : Option Tree :=
  let ts := Token.scanAt src pos
  (derive grammar (nestingBound ts) .parameterList ts).bind (·.out.head?)

/-- At an opening parenthesis a list is read by what stands inside. -/
theorem listAt?_eq {src : Bytes} {pos : Nat} {lp : Token} {rest : List Token}
    (h : Token.scanAt src pos = lp :: rest) (hlp : lp.lexeme = .sign .lparen) :
    listAt? src pos = (readInside rest).map fun m => listNode lp m.out := by
  have hbound : nestingBound (lp :: rest) = nestingBound rest + 15 + 1 := by
    simp only [nestingBound, List.length_cons]
    omega
  rw [listAt?, h, hbound, derive_parameterList hlp (Nat.le_add_right _ 15), Option.bind_map]
  cases readInside rest <;> rfl

/-- The list of parameters is what is read behind one of the opening parentheses among the
tokens. -/
def ReadFrom (ts : List Token) (list : Tree) : Prop :=
  ∃ lp rest m, lp :: rest <:+ ts ∧ lp.lexeme = .sign .lparen ∧ readInside rest = some m ∧
    { list with role := none } = listNode lp m.out

theorem ReadFrom.of_derive {ts us : List Token} {s : State} (hus : us <:+ ts)
    (h : derive grammar (nestingBound us) .parameterList us = some s) {t : Tree} (ht : t ∈ s.out)
    (hk : t.kind = .parameterList) : ReadFrom ts t := by
  have hbound : nestingBound us = 16 * us.length + 15 + 1 := by
    unfold nestingBound
    omega
  rw [hbound] at h
  obtain ⟨cs, lp, rest, m, hsuffix, hlp, hcomments, hm, hout⟩ :=
    exists_of_derive_parameterList hbound.le h
  refine ⟨lp, rest, m, hsuffix.trans hus, hlp, hm, ?_⟩
  rw [hout] at ht
  rcases List.mem_append.mp ht with ht | ht
  · rw [hcomments t ht] at hk
    cases hk
  · rw [List.mem_singleton.mp ht]
    rfl

/-- A list of parameters in the tree of a file is what is read behind its opening parenthesis. -/
theorem readFrom_of_mem_walk {src : Bytes} {root list : Tree} (h : parse? src = some root)
    (hlist : list ∈ root.walk) (hk : list.kind = .parameterList) :
    ReadFrom (Token.scan src) list := by
  have hkind : IsBuilt .parameterList := ⟨by decide, by decide, rfl⟩
  have hfuel : 16 * (Token.scan src).length + rank .sourceFile < nestingBound (Token.scan src) := by
    have := rank_lt .sourceFile
    unfold nestingBound
    omega
  refine parse?_every hkind (by decide) h (fun s hs => ?_) hlist hk
  exact derive_every (P := ReadFrom (Token.scan src)) hkind (fun _ _ ht => ht)
    grammar_parameterList (by decide) avoids_parameterList (fun tok htok => Token.scan_whole htok)
    (fun us s hus hs t ht hk => .of_derive hus hs ht hk) List.suffix_rfl hfuel hs

/-- The tokens from the start of a list on are its parenthesis and what it is read from. -/
theorem exists_scanAt_of_mem_walk {src : Bytes} {root list : Tree} (h : parse? src = some root)
    (hlist : list ∈ root.walk) (hk : list.kind = .parameterList) :
    ∃ lp rest m, Token.scanAt src list.start = lp :: rest ∧ lp.lexeme = .sign .lparen ∧
      readInside rest = some m ∧ { list with role := none } = listNode lp m.out := by
  obtain ⟨lp, rest, m, hsuffix, hlp, hm, hnode⟩ := readFrom_of_mem_walk h hlist hk
  have hstart : list.start = lp.start := congrArg Tree.start hnode
  exact ⟨lp, rest, m, hstart ▸ (Token.scan_suffix hsuffix).symm, hlp, hm, hnode⟩

/-- The lists of parameters of a file are read again at their places. -/
theorem listAt?_of_mem_walk {src : Bytes} {root list : Tree} (h : parse? src = some root)
    (hlist : list ∈ root.walk) (hk : list.kind = .parameterList) :
    listAt? src list.start = some { list with role := none } := by
  obtain ⟨lp, rest, m, hscan, hlp, hm, hnode⟩ := exists_scanAt_of_mem_walk h hlist hk
  rw [listAt?_eq hscan hlp, hm, Option.map_some, hnode]

/-! ## The context parameter -/

/-- The tokens of the type of the context parameter, where the parameter starts at `p`. -/
def contextTypeTokens (p : Nat) : List Token :=
  [⟨.word .plain, p + 4, Bytes.ofString "context", []⟩, ⟨.sign .dot, p + 11, [0x2E], []⟩,
    ⟨.word .plain, p + 12, Bytes.ofString "Context", []⟩]

/-- The tokens of the context parameter at `p`. -/
def contextTokens (p : Nat) : List Token :=
  ⟨.word .plain, p, Bytes.ofString "ctx", []⟩ :: contextTypeTokens p

/-- The type of the context parameter as a node. -/
def contextType (p : Nat) : Tree :=
  ⟨.qualifiedType, none, p + 4, p + 19, [],
    [⟨.packageIdentifier, some .package, p + 4, p + 11, Bytes.ofString "context", []⟩,
      ⟨.sign .dot, none, p + 11, p + 12, [0x2E], []⟩,
      ⟨.typeIdentifier, some .name, p + 12, p + 19, Bytes.ofString "Context", []⟩]⟩

/-- The context parameter at `p` as a node. -/
def contextDecl (p : Nat) : Tree :=
  ⟨.parameterDeclaration, none, p, p + 19, [],
    [⟨.identifier, some .name, p, p + 3, Bytes.ofString "ctx", []⟩,
      { contextType p with role := some .type }]⟩

namespace Grammar

/-- The type of the context parameter is read as one, if no type arguments follow. -/
theorem run_typeName (call : Nonterminal → List Token → Option State) (p : Nat) {ts : List Token}
    {g : Sign} (hts : nextLexeme? ts = some (.sign g)) (hg : g ≠ .lbracket) :
    run call (typeName name false) ⟨[], contextTypeTokens p ++ ts⟩ =
      some ⟨[contextType p], ts⟩ := by
  have hplain : run call (plainTypeName name false) ⟨[], contextTypeTokens p ++ ts⟩ =
      some ⟨[contextType p], ts⟩ := rfl
  have hbracket : takeToken (.sign .lbracket) ⟨[], ts⟩ = none :=
    takeToken_eq_none hts (if_neg hg.symm)
  have hinstantiate : run call (instantiate false) ⟨[contextType p], ts⟩ = none := by
    simp [instantiate, here, typeArguments, chain, run, sign, hbracket]
  rw [typeName, run, run, hplain, Option.bind_some, opt, run, hinstantiate]
  rfl

/-- The context parameter is read as one. -/
theorem run_parameter {fuel : Nat} (p : Nat) {ts : List Token} {g : Sign}
    (hts : nextLexeme? ts = some (.sign g)) (hg : g ≠ .lbracket) :
    run (derive grammar (fuel + 2)) parameter ⟨[], contextTokens p ++ ts⟩ =
      some ⟨[contextDecl p], ts⟩ := by
  have htype : derive grammar (fuel + 2) (.type false) (contextTypeTokens p ++ ts) =
      some ⟨[contextType p], ts⟩ := by
    have hsimple : derive grammar (fuel + 1) (.simpleType false) (contextTypeTokens p ++ ts) =
        some ⟨[contextType p], ts⟩ :=
      run_choice_of_first (run_typeName _ p hts hg) _
    change run (derive grammar (fuel + 1)) (.alt (.call (.simpleType false)) parenthesizedType)
      ⟨[], _⟩ = _
    rw [run, run, hsimple]
    rfl
  have hnames : run (derive grammar (fuel + 2)) (list variableName)
      ⟨[], contextTokens p ++ ts⟩ =
        some ⟨[⟨.identifier, some .name, p, p + 3, Bytes.ofString "ctx", []⟩],
          contextTypeTokens p ++ ts⟩ := rfl
  refine run_choice_of_first ?_ _
  rw [run, run, hnames, Option.bind_some, run, Grammar.type, run, htype]
  rfl

/-! ## Lists with one more parameter -/

/-- A list of parameters holds some, or its end comes next. -/
theorem run_listInside_cases {call : Nonterminal → List Token → Option State} {ts : List Token}
    {s : State} (h : run call listInside ⟨[], ts⟩ = some s) :
    (∃ m, run call (commaList parameter) ⟨[], ts⟩ = some m ∧
        takeToken (.sign .rparen) m = some s) ∨
      takeToken (.sign .rparen) ⟨[], ts⟩ = some s := by
  obtain ⟨m, hm, hend⟩ := Option.bind_eq_some_iff.mp h
  simp only [opt, run] at hm
  split at hm
  · next m' hm' =>
    cases hm
    exact .inl ⟨m, hm', hend⟩
  · cases hm
    exact .inr hend

/-- A comma list of parameters holds a declaration. -/
theorem exists_isParamDecl {fuel : Nat} {s m : State}
    (h : run (derive grammar fuel) (commaList parameter) s = some m) :
    ∃ t ∈ m.out, t.kind.isParamDecl = true := by
  have hsurely : (commaList parameter).surely marks (fun n => n ≠ .sourceFile)
      (fun k => k.kind.isParamDecl) = true := by
    decide
  obtain ⟨t, ht, _, hk⟩ := run_surely (grammar_describes.marked fuel)
    (fun n us s hn hs => by
      obtain ⟨t, ht, hfree, _⟩ := derive_holds fuel n (of_decide_eq_true hn) us s hs
      exact ⟨t, ht, hfree⟩) hsurely h
  exact ⟨t, ht, hk⟩

theorem appends_parameter : parameter.Appends := by decide

/-- Moved tokens with more in front are read alike by every rule. -/
theorem run_shift_stable {a : Production} {ts us : List Token} {d : Nat}
    (hus : us.map (Token.shift d) <:+ ts) {m : State}
    (h : run (derive grammar (nestingBound us)) a ⟨[], us⟩ = some m) :
    run (derive grammar (nestingBound ts)) a ⟨[], us.map (Token.shift d)⟩ =
      some (m.shift d) := by
  have hlen := hus.length_le
  rw [List.length_map] at hlen
  have hle : nestingBound us ≤ nestingBound ts :=
    Nat.mul_le_mul_left 16 (Nat.add_le_add_right hlen 1)
  change run _ a (State.shift d ⟨[], us⟩) = _
  rw [run_shift (derive_shift grammar d _), run_derive_eq (s := ⟨[], us⟩) hle, h, Option.map_some]

/-- A list of parameters may have the context parameter and a comma in front. -/
theorem run_listInside_cons {us : List Token} {d p : Nat} {comma : Token} {m s : State}
    (hcomma : comma.lexeme = .sign .comma)
    (h : run (derive grammar (nestingBound us)) (commaList parameter) ⟨[], us⟩ = some m)
    (hend : takeToken (.sign .rparen) m = some s) :
    readInside (contextTokens p ++ comma :: us.map (Token.shift d)) =
      some ((s.shift d).after [contextDecl p, comma.tree (.sign .comma)]) := by
  let ts := contextTokens p ++ comma :: us.map (Token.shift d)
  have hnext : nextLexeme? (comma :: us.map (Token.shift d)) = some (.sign .comma) := by
    rw [nextLexeme?_cons (by simp [hcomma]) (by simp [hcomma]), hcomma]
  have hbound : nestingBound ts = nestingBound ts - 2 + 2 := by
    unfold nestingBound
    omega
  have hfirst : run (derive grammar (nestingBound ts)) parameter ⟨[], ts⟩ =
      some ⟨[contextDecl p], comma :: us.map (Token.shift d)⟩ := by
    rw [hbound]
    exact run_parameter p hnext (by decide)
  have hsuffix : us.map (Token.shift d) <:+ ts :=
    (List.suffix_cons comma _).trans (List.suffix_append _ _)
  have hmore := run_shift_stable hsuffix h
  have hlist := run_commaList_cons appends_parameter (derive_suffix _) hcomma hfirst hmore
  change run (derive grammar (nestingBound ts)) listInside ⟨[], ts⟩ = _
  rw [listInside, run, opt, run, hlist]
  change takeToken _ _ = _
  rw [takeToken_append, takeToken_shift, hend]
  rfl

/-- An empty list of parameters may have the context parameter. -/
theorem run_listInside_only {us : List Token} {d p : Nat} {s : State}
    (hend : takeToken (.sign .rparen) ⟨[], us⟩ = some s) :
    readInside (contextTokens p ++ us.map (Token.shift d)) =
      some ((s.shift d).after [contextDecl p]) := by
  let ts := contextTokens p ++ us.map (Token.shift d)
  have hmoved : takeToken (.sign .rparen) ⟨[], us.map (Token.shift d)⟩ = some (s.shift d) := by
    change takeToken _ (State.shift d ⟨[], us⟩) = _
    rw [takeToken_shift, hend, Option.map_some]
  have hnext := nextLexeme?_of_takeToken hmoved
  have hbound : nestingBound ts = nestingBound ts - 2 + 2 := by
    unfold nestingBound
    omega
  have hfirst : run (derive grammar (nestingBound ts)) parameter ⟨[], ts⟩ =
      some ⟨[contextDecl p], us.map (Token.shift d)⟩ := by
    rw [hbound]
    exact run_parameter p hnext (by decide)
  have hcomma : ∀ out : List Tree,
      takeToken (.sign .comma) ⟨out, us.map (Token.shift d)⟩ = none :=
    fun out => takeToken_eq_none hnext (by decide)
  have hlist : run (derive grammar (nestingBound ts)) (commaList parameter) ⟨[], ts⟩ =
      some ⟨[contextDecl p], us.map (Token.shift d)⟩ := by
    have hstep : run (derive grammar (nestingBound ts)) (.seq (sign .comma) parameter)
        ⟨[contextDecl p], us.map (Token.shift d)⟩ = none := by
      rw [run, sign, run, hcomma]
      rfl
    rw [commaList, run, list, run, hfirst, Option.bind_some, run, iterate_of_none hstep,
      Option.bind_some, opt, run, sign, run, run, hcomma]
  have happend := takeToken_append [contextDecl p] (.sign .rparen) ⟨[], us.map (Token.shift d)⟩
  rw [hmoved] at happend
  change run (derive grammar (nestingBound ts)) listInside ⟨[], ts⟩ = _
  rw [listInside, run, opt, run, hlist]
  exact happend

end Grammar

/-! ## Texts with one more parameter -/

namespace Token

/-- The context parameter is cut into its tokens wherever something follows that ends its last
name. -/
theorem scanFrom_context {tail : Bytes} (htail : ∀ b ∈ tail.head?, EndsName b) (fuel p : Nat) :
    scanFrom (fuel + 5) p (Bytes.ofString Naming.contextParameter ++ tail) =
      contextTokens p ++ scanFrom fuel (p + 19) tail := by
  have htext : Bytes.ofString Naming.contextParameter ++ tail =
      Bytes.ofString "ctx" ++ 0x20 :: (Bytes.ofString "context" ++ 0x2E ::
        (Bytes.ofString "Context" ++ tail)) := rfl
  have hblank : ∀ (fuel q : Nat) (rest : Bytes),
      scanFrom (fuel + 1) q (0x20 :: rest) = scanFrom fuel (q + 1) rest := fun _ _ _ => rfl
  have hdot : ∀ (fuel q : Nat),
      scanFrom (fuel + 1) q (0x2E :: (Bytes.ofString "Context" ++ tail)) =
        ⟨.sign .dot, q, [0x2E], []⟩ ::
          scanFrom fuel (q + 1) (Bytes.ofString "Context" ++ tail) :=
    fun fuel q => @scanFrom_token (.sign .dot) 0x2E [] _ (by decide) (next_dot _) fuel q
  have hends : ∀ {b : UInt8} {rest : Bytes}, EndsName b → ∀ c ∈ (b :: rest).head?, EndsName c := by
    intro b rest hb c hc
    exact Option.some.inj hc ▸ hb
  rw [htext, scanFrom_word (by decide +kernel) (hends (by decide +kernel)), hblank,
    scanFrom_word (by decide +kernel) (hends (by decide +kernel)), hdot,
    scanFrom_word (by decide +kernel) htail]
  rfl

/-- A text in which a closing parenthesis comes next opens with what ends a name. -/
theorem endsName_of_nextLexeme? {fuel pos : Nat} {tail : Bytes}
    (h : nextLexeme? (scanFrom fuel pos tail) = some (.sign .rparen)) :
    ∀ b ∈ tail.head?, EndsName b := by
  intro b hb
  obtain ⟨rest, rfl⟩ := List.head?_eq_some_iff.mp hb
  cases fuel with
  | zero => cases h
  | succ fuel =>
    rw [scanFrom] at h
    split at h
    · next hblank => exact endsName_of_isBlank (Bool.and_eq_true_iff.mp hblank).1
    · refine @endsName_of_next b rest ?_
      by_contra hne
      simp only [not_or] at hne
      obtain ⟨hcomment, hnewline, hparen⟩ := hne
      dsimp only at h
      rw [@nextLexeme?_cons (ofShape pos (b :: rest) (next (b :: rest))) hcomment hnewline,
        Option.some.injEq] at h
      exact hparen h

/-- The tokens of a text from an opening parenthesis on. -/
theorem scanAt_of_lparen {src tail : Bytes} {pos : Nat} (h : src.drop pos = 0x28 :: tail) :
    scanAt src pos =
      ⟨.sign .lparen, pos, [0x28], []⟩ :: scanFrom tail.length (pos + 1) tail := by
  have hlen : src.length - pos = tail.length + 1 := by
    rw [← List.length_drop, h, List.length_cons]
  rw [scanAt, h, hlen]
  exact @scanFrom_token (.sign .lparen) 0x28 [] tail (by decide) (next_lparen tail) _ _

/-- The tokens of a text with more in front, where that is a comma and perhaps a space. -/
theorem scanFrom_comma {sep tail : Bytes} (hsep : sep = [0x2C] ∨ sep = [0x2C, 0x20])
    {fuel : Nat} (hfuel : tail.length + 2 ≤ fuel) (pos d : Nat) :
    scanFrom fuel (pos + d) (sep ++ tail) =
      ⟨.sign .comma, pos + d, [0x2C], []⟩ ::
        (scanFrom tail.length pos tail).map (shift (d + sep.length)) := by
  obtain ⟨fuel, rfl⟩ := Nat.exists_eq_add_of_le' (show 2 ≤ fuel by omega)
  have hcomma := @scanFrom_token (.sign .comma) 0x2C [] (sep.tail ++ tail) (by decide)
    (next_comma _) (fuel + 1) (pos + d)
  have hmoved : ∀ fuel, tail.length ≤ fuel → ∀ q, scanFrom fuel (pos + q) tail =
      (scanFrom tail.length pos tail).map (shift q) := by
    intro fuel hfuel q
    rw [scanFrom_shift, scanFrom_stable hfuel le_rfl]
  rcases hsep with rfl | rfl
  · refine hcomma.trans (congrArg (_ :: ·) ?_)
    exact hmoved (fuel + 1) (by omega) (d + 1)
  · refine hcomma.trans (congrArg (_ :: ·) ?_)
    exact hmoved fuel (by omega) (d + 2)

end Token

/-! ## Lists with one more parameter at their places -/

/-- At an opening parenthesis a list is read from the text behind it. -/
theorem listAt?_of_drop {src tail : Bytes} {pos : Nat} (h : src.drop pos = 0x28 :: tail) :
    listAt? src pos = (readInside (Token.scanFrom tail.length (pos + 1) tail)).map fun m =>
      listNode ⟨.sign .lparen, pos, [0x28], []⟩ m.out :=
  listAt?_eq (Token.scanAt_of_lparen h) rfl

/-- The declarations among the nodes of a list. -/
private def declared (m : State) : List Tree := m.out.filter (·.kind.isParamDecl)

private theorem declared_after_shift (m : State) (d : Nat) (front : List Tree) :
    declared ((m.shift d).after front) =
      front.filter (·.kind.isParamDecl) ++ (declared m).map (Tree.shift d) := by
  simp [declared, State.after, State.shift, List.filter_map, Function.comp_def]

/-- What is read behind an opening parenthesis is read as well behind the context parameter and
what separates it. -/
private theorem exists_readInside_prepend {tail sep : Bytes} {pos : Nat} {m : State}
    (hm : readInside (Token.scanFrom tail.length pos tail) = some m)
    (hsep : sep = [] ∧ declared m = [] ∨ (sep = [0x2C] ∨ sep = [0x2C, 0x20]) ∧ declared m ≠ []) :
    let text := Bytes.ofString Naming.contextParameter ++ (sep ++ tail)
    ∃ m', readInside (Token.scanFrom text.length pos text) = some m' ∧
      declared m' = contextDecl pos :: (declared m).map (Tree.shift (19 + sep.length)) := by
  intro text
  have hlen : text.length = sep.length + tail.length + 14 + 5 := by
    have hctx : (Bytes.ofString Naming.contextParameter).length = 19 := by decide +kernel
    simp only [text, List.length_append, hctx]
    omega
  rw [hlen]
  rcases run_listInside_cases hm with ⟨m₁, hlist, hend⟩ | hend
  · -- behind some parameters there is a comma in between
    obtain ⟨t, ht, hk⟩ := exists_isParamDecl hlist
    obtain ⟨cs, x, hout, -⟩ := takeToken_out hend
    have hmem : t ∈ declared m :=
      List.mem_filter.mpr ⟨by rw [hout]; simp [ht], hk⟩
    have hcomma : sep = [0x2C] ∨ sep = [0x2C, 0x20] := by
      rcases hsep with ⟨-, hnone⟩ | ⟨hcomma, -⟩
      · rw [hnone] at hmem
        cases hmem
      · exact hcomma
    have hends : ∀ b ∈ (sep ++ tail).head?, Token.EndsName b := by
      rcases hcomma with rfl | rfl <;> exact fun b hb => Option.some.inj hb ▸ by decide
    have hpos : 0 < sep.length := by
      rcases hcomma with rfl | rfl <;> decide
    let comma : Token := ⟨.sign .comma, pos + 19, [0x2C], []⟩
    refine ⟨_, ?_, declared_after_shift m (19 + sep.length)
      [contextDecl pos, comma.tree (.sign .comma)]⟩
    rw [Token.scanFrom_context hends, Token.scanFrom_comma hcomma (by omega)]
    exact run_listInside_cons rfl hlist hend
  · -- in front of the closing parenthesis there is nothing
    obtain ⟨cs, x, hout, hcs, hx⟩ := takeToken_out hend
    have hnone : declared m = [] := by
      refine List.filter_eq_nil_iff.mpr fun t ht => ?_
      rw [hout, List.nil_append, List.mem_append, List.mem_singleton] at ht
      rcases ht with ht | rfl
      · simp [hcs t ht, Kind.isParamDecl]
      · simp [hx, Terminal.kind, Kind.isParamDecl]
    obtain rfl : sep = [] := by
      rcases hsep with ⟨hsep, -⟩ | ⟨-, hsome⟩
      · exact hsep
      · exact absurd hnone hsome
    refine ⟨_, ?_, declared_after_shift m 19 [contextDecl pos]⟩
    rw [show text = _ ++ tail from rfl, Token.scanFrom_context
      (Token.endsName_of_nextLexeme? (nextLexeme?_of_takeToken hend)), Token.scanFrom_shift,
      Token.scanFrom_stable (by simp) le_rfl]
    exact run_listInside_only hend

/-- Where a list of parameters stands in a file, the list with the context parameter in front of it
can be read, and the declarations behind that are those of the list. -/
theorem exists_listAt?_prepend {src : Bytes} {root list : Tree} (h : parse? src = some root)
    (hlist : list ∈ root.walk) (hk : list.kind = .parameterList) {sep : Bytes}
    (hsep : sep = [] ∧ list.paramDecls = [] ∨
      (sep = [0x2C] ∨ sep = [0x2C, 0x20]) ∧ list.paramDecls ≠ []) :
    ∃ list', listAt? (src.take (list.start + 1) ++
        (Bytes.ofString Naming.contextParameter ++ (sep ++ src.drop (list.start + 1))))
          list.start = some list' ∧
      list'.paramDecls = contextDecl (list.start + 1) ::
        list.paramDecls.map (Tree.shift (19 + sep.length)) := by
  obtain ⟨lp, rest, m, hscan, -, hm, hnode⟩ := exists_scanAt_of_mem_walk h hlist hk
  have hdecls : list.paramDecls = declared m := by
    rw [declared, ← paramDecls_listNode lp, ← hnode]
    rfl
  rw [hdecls] at hsep ⊢
  -- both texts have the parenthesis, and go on behind it
  have hopen := ((parse?_laid h).of_mem_walk hlist).opens_paren (.inl hk)
  obtain ⟨hlt, hget⟩ := List.getElem?_eq_some_iff.mp hopen
  have hold : src.drop list.start = 0x28 :: src.drop (list.start + 1) := by
    rw [List.drop_eq_getElem_cons hlt, hget]
  have hnew : ∀ text : Bytes,
      (src.take (list.start + 1) ++ text).drop list.start = 0x28 :: text := by
    intro text
    rw [List.take_succ_eq_append_getElem hlt, hget, List.append_assoc,
      List.drop_left' (List.length_take_of_le hlt.le)]
    rfl
  rw [Token.scanAt_of_lparen hold] at hscan
  obtain ⟨rfl, rfl⟩ := List.cons.inj hscan
  obtain ⟨m', hm', hdecls'⟩ := exists_readInside_prepend hm hsep
  refine ⟨_, by rw [listAt?_of_drop (hnew _), hm', Option.map_some], ?_⟩
  rw [paramDecls_listNode]
  exact hdecls'

end CtxThread.Code

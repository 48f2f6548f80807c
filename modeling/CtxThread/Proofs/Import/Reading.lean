import CtxThread.Proofs.Update
import CtxThread.Proofs.Code.Cuts
import CtxThread.Proofs.Code.Spends

/-!
# Reading imports off the tokens

The imports of a file can be read off its tokens one after the other, without a tree: a keyword
opens a declaration, which ends with a literal or, after a parenthesis, with a parenthesis.

## Main definitions

- `Import.Written`: an import as it is written
- `Import.Mode`, `Import.Mode.read`: reading imports off tokens

## Main statements

- `parse?_imports`: the imports read off the tokens of a file are those of its tree, and outside of
  an import declaration none is being read
-/

namespace CtxThread

open Code (Tree Token Kind Atom Lexeme)

namespace Import

/-- An import as it is written: the name or the dot before its path, and the literal. -/
structure Written where
  name? : Option Atom
  literal : Bytes

namespace Written

/-- The path of an import. -/
def path (i : Written) : String := unquote (Utf8.decode i.literal)

/-- The local name that an import binds. -/
def boundName? (i : Written) : Option String :=
  match i.name? with
  | none => some (defaultName i.path)
  | some (l, x) =>
    if l = .word .blank ∨ l = .sign .dot then none else some (Utf8.decode x)

/-- The import is written as the spec says. -/
def Spells (i : Written) (spec : Tree) : Prop :=
  Import.boundName? spec = i.boundName? ∧ Import.path? spec = some i.path

end Written

/-- What is being read: nothing, or imports that the keyword has announced, in parentheses or not,
perhaps with a name read already. -/
inductive Mode where
  | idle
  | opened (grouped : Bool) (name? : Option Atom)

namespace Mode

/-- Reads one token. Another keyword does not fit where imports are announced. -/
def step : Mode → Atom → Option (Mode × List Written)
  | .idle, w => some (if w.1 = .sign .kwImport then .opened false none else .idle, [])
  | .opened grouped name?, w =>
    match w.1 with
    | .literal _ => some (if grouped then .opened true none else .idle, [⟨name?, w.2⟩])
    | .sign .kwImport => none
    | .sign .lparen => some (.opened true none, [])
    | .sign .rparen => some (.idle, [])
    | _ => some (.opened grouped (some w), [])

/-- Reads tokens one after the other; also yields the imports read. -/
def read : Mode → List Atom → Option (Mode × List Written)
  | m, [] => some (m, [])
  | m, w :: ws =>
    (m.step w).bind fun r => (read r.1 ws).map fun r' => (r'.1, r.2 ++ r'.2)

@[simp] theorem read_nil (m : Mode) : m.read [] = some (m, []) := rfl

theorem read_append (m : Mode) (ws us : List Atom) :
    m.read (ws ++ us) =
      (m.read ws).bind fun r => (r.1.read us).map fun r' => (r'.1, r.2 ++ r'.2) := by
  induction ws generalizing m with
  | nil => simp [read]
  | cons w ws ih =>
    rw [List.cons_append, read, read]
    cases m.step w with
    | none => rfl
    | some r =>
      rw [Option.bind_some, Option.bind_some, ih]
      cases r.1.read ws with
      | none => rfl
      | some r' =>
        simp [Option.map_map, Function.comp_def]

theorem read_append_of {m m' : Mode} {ws us : List Atom} {a : List Written}
    (h : m.read ws = some (m', a)) :
    m.read (ws ++ us) = (m'.read us).map fun r => (r.1, a ++ r.2) := by
  rw [read_append, h]
  rfl

/-- Nothing is read off tokens without the keyword. -/
theorem read_idle {ws : List Atom} (h : ∀ w ∈ ws, w.1 ≠ .sign .kwImport) :
    Mode.idle.read ws = some (.idle, []) := by
  induction ws with
  | nil => rfl
  | cons w ws ih =>
    obtain ⟨hw, hws⟩ := List.forall_mem_cons.mp h
    rw [read, step, if_neg hw, Option.bind_some, ih hws]
    rfl

end Mode

end Import

namespace Code

open Import (Written Mode)

namespace Token

theorem atoms_gap {gap : List Token} (h : ∀ g ∈ gap, g.lexeme.isGap = true) :
    atoms gap = [] := by
  rw [atoms, List.map_eq_nil_iff, List.filter_eq_nil_iff]
  intro g hg
  have := h g hg
  rcases hl : g.lexeme with _ | _ | _ | _ | _ | _ <;>
    simp [Lexeme.isGap, Lexeme.isLoose, hl] at this ⊢

theorem mem_atoms {ts : List Token} {w : Atom} (h : w ∈ atoms ts) :
    ∃ t ∈ ts, t.lexeme = w.1 := by
  obtain ⟨t, ht, rfl⟩ := List.mem_map.mp h
  exact ⟨t, (List.mem_filter.mp ht).1, rfl⟩

end Token

/-! ## Import specs of trees -/

/-- The import specs in the trees, in order. -/
def specsIn (ts : List Tree) : List Tree := ts.flatMap (·.allOfKind .importSpec)

theorem specsIn_append (ts us : List Tree) : specsIn (ts ++ us) = specsIn ts ++ specsIn us :=
  List.flatMap_append

theorem Tree.allOfKind_eq (t : Tree) (k : Kind) :
    t.allOfKind k = (if t.kind = k then [t] else []) ++ t.children.flatMap (·.allOfKind k) := by
  rw [allOfKind, walk_eq, List.filter_cons, List.filter_flatMap]
  split
  · next h => rw [if_pos (by simpa using h)]; rfl
  · next h => rw [if_neg (by simpa using h)]; rfl

/-- A token is no import spec. -/
theorem Token.Whole.allOfKind {tok : Token} (h : tok.Whole) {k : Kind} (hk : k ≠ .importSpec) :
    (tok.tree k).allOfKind .importSpec = [] := by
  rw [Tree.allOfKind_eq, if_neg (show (tok.tree k).kind ≠ _ from hk), List.nil_append,
    List.flatMap_eq_nil_iff]
  intro c hc
  obtain ⟨hleaf, hinner⟩ := h.leaf c hc
  rw [Tree.allOfKind_eq, hleaf, if_neg]
  · rfl
  · rintro heq
    rw [heq] at hinner
    cases hinner

theorem specsIn_commentTrees {gap : List Token} (h : ∀ g ∈ gap, g.Whole) :
    specsIn (Rule.commentTrees gap) = [] := by
  refine List.flatMap_eq_nil_iff.mpr fun t ht => ?_
  obtain ⟨g, hg, rfl⟩ := List.mem_map.mp ht
  exact (h g (List.mem_filter.mp hg).1).allOfKind (by decide)

/-- No import spec stands in a hidden node. -/
def Unhidden (ts : List Tree) : Prop := ∀ t ∈ ts, t.kind = .newline → t.allOfKind .importSpec = []

/-- A node holds the import specs of what it is built of. -/
theorem specsIn_build {k : Kind} (hk : k ≠ .importSpec) {ts : List Tree} (h : Unhidden ts) :
    specsIn (Rule.build k ts) = specsIn ts := by
  have hfilter : ∀ us : List Tree, (∀ t ∈ us, t ∈ ts) →
      specsIn (us.filter (·.kind ≠ .newline)) = specsIn us := by
    intro us hus
    induction us with
    | nil => rfl
    | cons t us ih =>
      have ih := ih fun u hu => hus u (List.mem_cons_of_mem t hu)
      by_cases ht : t.kind = .newline
      · rw [List.filter_cons_of_neg (by simpa using ht), ih]
        change _ = t.allOfKind .importSpec ++ specsIn us
        rw [h t (hus t List.mem_cons_self) ht, List.nil_append]
      · rw [List.filter_cons_of_pos (by simpa using ht)]
        exact congrArg (t.allOfKind .importSpec ++ ·) ih
  have hsplit := List.takeWhile_append_dropWhile (p := fun t : Tree => decide (t.kind = .comment))
    (l := ts)
  have hown := hfilter (ts.dropWhile (·.kind = .comment))
    fun t ht => (List.dropWhile_suffix _).subset ht
  conv_rhs => rw [← hsplit, specsIn_append]
  unfold Rule.build
  dsimp only
  split
  · rw [specsIn_append, ← hown]
    congr 1
    change Tree.allOfKind _ _ ++ [] = _
    rw [List.append_nil, Tree.allOfKind_eq, if_neg hk, List.nil_append]
    rfl
  · next hnone =>
    generalize ts.dropWhile (·.kind = .comment) = own at hnone ⊢
    cases own with
    | nil => simp [specsIn]
    | cons t us =>
      exact (hnone _ _ rfl (List.getLast?_eq_some_getLast (List.cons_ne_nil t us))).elim

namespace Rule

/-- Between the two states tokens are read and nodes are added, which hold the imports read. -/
def Reads (m m' : Mode) (s s' : State) : Prop :=
  ∃ ws xs its, s.rest = ws ++ s'.rest ∧ s'.out = s.out ++ xs ∧ Unhidden xs ∧
    m.read (Token.atoms ws) = some (m', its) ∧ List.Forall₂ Written.Spells its (specsIn xs)

namespace Reads

variable {m m' m'' : Mode} {s s' s'' : State}

theorem refl (m : Mode) (s : State) : Reads m m s s :=
  ⟨[], [], [], rfl, (List.append_nil _).symm, List.forall_mem_nil _, rfl, .nil⟩

theorem trans (h : Reads m m' s s') (h' : Reads m' m'' s' s'') : Reads m m'' s s'' := by
  obtain ⟨ws, xs, its, hrest, hout, hhidden, hread, hspells⟩ := h
  obtain ⟨ws', xs', its', hrest', hout', hhidden', hread', hspells'⟩ := h'
  refine ⟨ws ++ ws', xs ++ xs', its ++ its', by rw [hrest, hrest', List.append_assoc],
    by rw [hout', hout, List.append_assoc], ?_, ?_, ?_⟩
  · exact fun t ht => (List.mem_append.mp ht).elim (hhidden t) (hhidden' t)
  · rw [Token.atoms_append, Mode.read_append_of hread, hread']
    rfl
  · rw [specsIn_append]
    exact List.rel_append hspells hspells'

theorem whole (h : Reads m m' s s') (hs : ∀ tok ∈ s.rest, tok.Whole) :
    ∀ tok ∈ s'.rest, tok.Whole := by
  obtain ⟨ws, xs, its, hrest, -⟩ := h
  exact fun tok htok => hs tok (hrest ▸ List.mem_append_right _ htok)

/-- What is read on its own becomes a node. -/
theorem node (h : Reads m m' ⟨[], s.rest⟩ s') {k : Kind} (hk : k ≠ .importSpec)
    (hnewline : k ≠ .newline) : Reads m m' s ⟨s.out ++ build k s'.out, s'.rest⟩ := by
  obtain ⟨ws, xs, its, hrest, hout, hhidden, hread, hspells⟩ := h
  rw [List.nil_append] at hout
  refine ⟨ws, build k s'.out, its, hrest, rfl, ?_, hread, ?_⟩
  · intro t ht htk
    rcases mem_build ht with hcomment | hbuilt
    · rw [hcomment] at htk
      cases htk
    · exact absurd (hbuilt.symm.trans htk) hnewline
  · rw [specsIn_build hk (hout ▸ hhidden), hout]
    exact hspells

end Reads

variable {m m' : Mode} {s s' : State} (hs : ∀ tok ∈ s.rest, tok.Whole)

include hs

theorem Reads.of_split {gap : List Token} {tok : Token} (hrest : s.rest = gap ++ tok :: s'.rest)
    (hgap : ∀ g ∈ gap, g.lexeme.isGap = true) {k : Kind} (hk : k ≠ .importSpec)
    (hout : s'.out = s.out ++ (commentTrees gap ++ [tok.tree k]))
    (hread : m.read (Token.atoms [tok]) = some (m', [])) : Reads m m' s s' := by
  rw [hrest] at hs
  have hgaps : ∀ g ∈ gap, g.Whole := fun g hg => hs g (List.mem_append_left _ hg)
  have hnone := (hs tok (List.mem_append_right _ List.mem_cons_self)).allOfKind hk
  refine ⟨gap ++ [tok], commentTrees gap ++ [tok.tree k], [], by simp [hrest], hout, ?_, ?_, ?_⟩
  · intro x hx hkind
    rcases List.mem_append.mp hx with hx | hx
    · obtain ⟨g, hg, rfl⟩ := List.mem_map.mp hx
      cases hkind
    · obtain rfl := List.mem_singleton.mp hx
      exact hnone
  · rw [Token.atoms_append, Token.atoms_gap hgap, List.nil_append, hread]
  · rw [specsIn_append, specsIn_commentTrees hgaps, List.nil_append]
    change List.Forall₂ _ [] ((tok.tree k).allOfKind .importSpec ++ [])
    rw [hnone]
    exact .nil

theorem takeSign_reads {g : Sign} (h : takeToken (.sign g) s = some s')
    (hread : ∀ tok : Token, tok.lexeme = .sign g → m.read (Token.atoms [tok]) = some (m', [])) :
    Reads m m' s s' := by
  obtain ⟨gap, tok, hrest, hgap, haccept, hout⟩ := takeToken_split h
  exact .of_split hs hrest hgap (by simp [Terminal.kind]) hout
    (hread tok (Terminal.eq_sign_of_accept? haccept))

theorem ending_reads {ν : Type} {call : ν → List Token → Option State}
    (h : run call ending s = some s') : Reads m m s s' := by
  simp only [ending, run, sign] at h
  split at h
  · next r hr =>
    cases h
    obtain ⟨gap, tok, hrest, hgap, hnewline, hout⟩ := takeNewline_split hr
    refine .of_split hs hrest (fun g hg => ?_) (by decide) hout ?_
    · simp [Lexeme.isGap, hgap g hg]
    · rw [Token.atoms_cons_of_loose (by rw [hnewline]; rfl)]
      rfl
  · refine takeSign_reads hs h fun tok hl => ?_
    rw [Token.atoms_cons_of_loose (by rw [hl]; rfl)]
    rfl

omit hs

/-! ## Import specs -/

theorem mark_taken (r : Role) (gap : List Token) {t : Tree} (hcomment : t.kind ≠ .comment)
    (hnewline : t.kind ≠ .newline) :
    mark r (commentTrees gap ++ [t]) = commentTrees gap ++ [{ t with role := some r }] := by
  rw [mark, List.map_append, List.map_singleton, if_neg (by simp [hcomment, hnewline])]
  congr 1
  rw [commentTrees, List.map_map]
  rfl

theorem build_taken (k : Kind) (gap : List Token) {t : Tree} (ht : t.kind ≠ .comment)
    (ts : List Tree) : build k (commentTrees gap ++ t :: ts) =
      commentTrees gap ++ [⟨k, none, t.start, ((t :: ts).getLast (by simp)).stop, [],
        (t :: ts).filter (·.kind ≠ .newline)⟩] := by
  rw [build_comments k _ (t :: ts), build_cons k ht]
  intro c hc
  obtain ⟨g, -, rfl⟩ := List.mem_map.mp hc
  rfl

/-- A token that is taken on its own and plays a part. -/
theorem takeToken_role (r : Role) {t : Terminal} (hcomment : t.kind ≠ .comment)
    (hnewline : t.kind ≠ .newline) (hspec : t.kind ≠ .importSpec) {us : List Token}
    (hus : ∀ tok ∈ us, tok.Whole) (h : takeToken t ⟨[], us⟩ = some s) :
    ∃ gap tok, us = gap ++ tok :: s.rest ∧ (∀ g ∈ gap, g.lexeme.isGap = true) ∧
      t.accept? tok.lexeme = some t.kind ∧
      mark r s.out = commentTrees gap ++ [{ tok.tree t.kind with role := some r }] ∧
      Tree.allOfKind { tok.tree t.kind with role := some r } .importSpec = [] := by
  obtain ⟨gap, tok, hrest, hgap, haccept, hout⟩ := takeToken_split h
  dsimp only at hrest hout
  have htok := hus tok (by rw [hrest]; exact List.mem_append_right _ List.mem_cons_self)
  have hnone := htok.allOfKind hspec
  refine ⟨gap, tok, hrest, hgap, haccept, ?_, ?_⟩
  · rw [hout, List.nil_append]
    exact mark_taken r gap hcomment hnewline
  · rw [Tree.allOfKind_eq, if_neg (show (tok.tree t.kind).kind ≠ _ from hspec)] at hnone
    rw [Tree.allOfKind_eq, if_neg (show (tok.tree t.kind).kind ≠ _ from hspec)]
    exact hnone

/-- The node is what a token becomes that gives an import its name. -/
structure Names (tok : Token) (n : Tree) : Prop where
  lexeme : tok.lexeme = .sign .dot ∨ ∃ w, tok.lexeme = .word w
  role : n.role = some .name
  comment : n.kind ≠ .comment
  newline : n.kind ≠ .newline
  specless : n.allOfKind .importSpec = []
  bound : (if n.kind = .blankIdentifier ∨ n.kind = .dot then none else some n.text) =
    if tok.lexeme = .word .blank ∨ tok.lexeme = .sign .dot then none
    else some (Utf8.decode tok.bytes)

variable {ν : Type} {call : ν → List Token → Option State}

/-- What the name of an import is read off. -/
theorem run_importName {us : List Token} (hus : ∀ tok ∈ us, tok.Whole)
    (h : run call (.role .name (choice [.node .dot (sign .dot),
      .token (.word .blank .blankIdentifier), .token (.name .packageIdentifier)])) ⟨[], us⟩ =
        some s) :
    ∃ gap tok n, us = gap ++ tok :: s.rest ∧ (∀ g ∈ gap, g.lexeme.isGap = true) ∧
      s.out = commentTrees gap ++ [n] ∧ Names tok n := by
  obtain ⟨q, hq, rfl⟩ := Option.map_eq_some_iff.mp h
  simp only [choice, run, sign] at hq
  split at hq
  · -- a dot
    next r hr =>
    cases hq
    obtain ⟨r', hr', rfl⟩ := Option.map_eq_some_iff.mp hr
    obtain ⟨gap, tok, hrest, hgap, haccept, hout⟩ := takeToken_split hr'
    have hl := Terminal.eq_sign_of_accept? haccept
    dsimp only at hrest hout ⊢
    have hmem : tok ∈ us := by
      rw [hrest]
      exact List.mem_append_right _ List.mem_cons_self
    have hnone := (hus tok hmem).allOfKind (k := .sign .dot) (by decide)
    refine ⟨gap, tok, ⟨.dot, some .name, tok.start, tok.stop, [], [tok.tree (.sign .dot)]⟩, hrest,
      hgap, ?_, .inl hl, rfl, by simp, by simp, ?_, by simp [hl]⟩
    · rw [hout, List.nil_append, List.nil_append, List.nil_append,
        build_taken .dot gap (by simp [Token.tree, Terminal.kind]),
        mark_taken _ _ (by simp) (by simp)]
      rfl
    · rw [Tree.allOfKind_eq]
      simp [hnone]
  · split at hq
    · next r hr =>
      cases hq
      obtain ⟨gap, tok, hrest, hgap, haccept, hout, hnone⟩ :=
        takeToken_role .name (by decide) (by decide) (by decide) hus hr
      have hl : tok.lexeme = .word .blank := by
        cases hl : tok.lexeme with
        | word w =>
          rw [hl] at haccept
          simp only [Terminal.accept?, Option.ite_none_right_eq_some] at haccept
          rw [haccept.1]
        | _ => rw [hl] at haccept; cases haccept
      exact ⟨gap, tok, _, hrest, hgap, hout, .inr ⟨_, hl⟩, rfl, by simp [Token.tree, Terminal.kind],
        by simp [Token.tree, Terminal.kind], hnone, by simp [hl, Token.tree, Terminal.kind]⟩
    · next hblank =>
      obtain ⟨gap, tok, hrest, hgap, haccept, hout, hnone⟩ :=
        takeToken_role .name (by decide) (by decide) (by decide) hus hq
      obtain ⟨w, hl⟩ := Terminal.eq_word_of_accept? haccept
      have hw : w ≠ .blank := by
        rintro rfl
        have htake := takeToken_behind (t := .word .blank .blankIdentifier)
          (k := .blankIdentifier) hgap (by rw [hl]; rfl) [] q.rest
        rw [← hrest, hblank] at htake
        cases htake
      exact ⟨gap, tok, _, hrest, hgap, hout, .inr ⟨_, hl⟩, rfl, by simp [Token.tree, Terminal.kind],
        by simp [Token.tree, Terminal.kind], hnone,
        by simp [hl, Token.tree, Terminal.kind, hw, Tree.text]⟩

theorem Names.read {tok : Token} {n : Tree} (h : Names tok n) (grouped : Bool) :
    (Mode.opened grouped none).read (Token.atoms [tok]) =
      some (.opened grouped (some (tok.lexeme, tok.bytes)), []) := by
  rcases h.lexeme with hl | ⟨w, hl⟩
  all_goals
    rw [Token.atoms_cons (by rw [hl]; rfl), Token.atoms_nil, Mode.read, Mode.step, hl]
    rfl

/-- The last node that is added ends with the last token that is taken. -/
def Ends (s s' : State) : Prop :=
  ∃ ws tok xs x, s.rest = ws ++ tok :: s'.rest ∧ s'.out = s.out ++ (xs ++ [x]) ∧
    x.stop = tok.stop

/-- The node is what a literal becomes that gives an import its path. -/
structure Locates (lit : Token) (x : Tree) : Prop where
  lexeme : ∃ k, lit.lexeme = .literal k
  role : x.role = some .path
  comment : x.kind ≠ .comment
  newline : x.kind ≠ .newline
  bytes : x.bytes = lit.bytes
  stop : x.stop = lit.stop
  specless : x.allOfKind .importSpec = []

/-- A literal that is read ends an import. -/
theorem Locates.read {lit : Token} {x : Tree} (h : Locates lit x) (grouped : Bool)
    (name? : Option Atom) : (Mode.opened grouped name?).read (Token.atoms [lit]) =
      some (if grouped then .opened true none else .idle, [⟨name?, lit.bytes⟩]) := by
  obtain ⟨k, hl⟩ := h.lexeme
  rw [Token.atoms_cons (by rw [hl]; rfl), Token.atoms_nil, Mode.read, Mode.step, hl]
  rfl

variable {call : Nonterminal → List Token → Option State}

/-- What the literal of an import is read off. -/
theorem run_importPath {out : List Tree} {us : List Token} (hus : ∀ tok ∈ us, tok.Whole)
    (h : run call (.role .path Grammar.string) ⟨out, us⟩ = some s) :
    ∃ gap lit x, us = gap ++ lit :: s.rest ∧ (∀ g ∈ gap, g.lexeme.isGap = true) ∧
      s.out = out ++ (commentTrees gap ++ [x]) ∧ Locates lit x := by
  obtain ⟨q, hq, rfl⟩ := Option.map_eq_some_iff.mp h
  simp only [Grammar.string, run] at hq
  have htaken : ∀ k, k ≠ .comment → k ≠ .newline → k ≠ .importSpec →
      takeToken (.literal k) ⟨[], us⟩ = some q → ∃ gap lit x, us = gap ++ lit :: q.rest ∧
        (∀ g ∈ gap, g.lexeme.isGap = true) ∧
        out ++ mark .path q.out = out ++ (commentTrees gap ++ [x]) ∧ Locates lit x := by
    intro k hcomment hnewline hspec hq
    obtain ⟨gap, lit, hrest, hgap, haccept, hout, hnone⟩ :=
      takeToken_role .path (t := .literal k) hcomment hnewline hspec hus hq
    exact ⟨gap, lit, _, hrest, hgap, congrArg (out ++ ·) hout,
      ⟨k, Terminal.eq_literal_of_accept? haccept⟩, rfl, hcomment, hnewline, rfl, rfl, hnone⟩
  split at hq
  · next r hr =>
    cases hq
    exact htaken _ (by decide) (by decide) (by decide) hr
  · exact htaken _ (by decide) (by decide) (by decide) hq

theorem find?_role_commentTrees {r : Role} (gap : List Token) (ts : List Tree) :
    (commentTrees gap ++ ts).find? (·.role = some r) = ts.find? (·.role = some r) := by
  rw [List.find?_append, List.find?_eq_none.mpr, Option.none_or]
  intro c hc
  obtain ⟨g, -, rfl⟩ := List.mem_map.mp hc
  simp [Token.tree]

/-- A spec is written as the tokens that it is built of. -/
theorem spells_named {tok lit : Token} {n x : Tree} (hn : Names tok n) (hx : Locates lit x)
    (gap : List Token) (start stop : Nat) :
    Written.Spells ⟨some (tok.lexeme, tok.bytes), lit.bytes⟩
      ⟨.importSpec, none, start, stop, [], n :: (commentTrees gap ++ [x])⟩ := by
  constructor
  · have hchild : Tree.child? ⟨.importSpec, none, start, stop, [],
        n :: (commentTrees gap ++ [x])⟩ .name = some n :=
      List.find?_cons_of_pos (by simp [hn.role])
    rw [Import.boundName?, hchild]
    exact hn.bound
  · have hchild : Tree.child? ⟨.importSpec, none, start, stop, [],
        n :: (commentTrees gap ++ [x])⟩ .path = some x := by
      refine (List.find?_cons_of_neg (by simp [hn.role])).trans ?_
      rw [find?_role_commentTrees]
      exact List.find?_cons_of_pos (by simp [hx.role])
    rw [Import.path?, hchild, Option.map_some, Tree.text, hx.bytes]
    rfl

theorem spells_bare {lit : Token} {x : Tree} (hx : Locates lit x) (start stop : Nat) :
    Written.Spells ⟨none, lit.bytes⟩ ⟨.importSpec, none, start, stop, [], [x]⟩ := by
  have hpath : Import.path? ⟨.importSpec, none, start, stop, [], [x]⟩ =
      some (Written.path ⟨none, lit.bytes⟩) := by
    have hchild : Tree.child? ⟨.importSpec, none, start, stop, [], [x]⟩ .path = some x :=
      List.find?_cons_of_pos (by simp [hx.role])
    rw [Import.path?, hchild, Option.map_some, Tree.text, hx.bytes]
    rfl
  refine ⟨?_, hpath⟩
  have hname : Tree.child? ⟨.importSpec, none, start, stop, [], [x]⟩ .name = none :=
    List.find?_eq_none.mpr (by simp [hx.role])
  rw [Import.boundName?, hname, hpath, Option.map_some]
  rfl

/-- What is read off the tokens of one import. -/
theorem Reads.of_spec {gap ws : List Token} (hgap : ∀ g ∈ gap, g.Whole) {i : Written} {spec : Tree}
    (hrest : s.rest = ws ++ s'.rest) (hout : s'.out = s.out ++ (commentTrees gap ++ [spec]))
    (hkind : spec.kind = .importSpec) (hnone : specsIn spec.children = [])
    (hspells : i.Spells spec) (hread : m.read (Token.atoms ws) = some (m', [i])) :
    Reads m m' s s' := by
  refine ⟨ws, _, [i], hrest, hout, ?_, hread, ?_⟩
  · intro t ht hk
    rcases List.mem_append.mp ht with ht | ht
    · obtain ⟨g, -, rfl⟩ := List.mem_map.mp ht
      cases hk
    · rw [List.mem_singleton.mp ht, hkind] at hk
      cases hk
  · rw [specsIn_append, specsIn_commentTrees hgap, List.nil_append]
    change List.Forall₂ _ [i] (spec.allOfKind .importSpec ++ [])
    rw [Tree.allOfKind_eq, if_pos hkind, List.append_nil]
    change List.Forall₂ _ [i] ([spec] ++ specsIn spec.children)
    rw [hnone]
    exact .cons hspells .nil

/-- An import with a name is read where imports are announced. -/
theorem namedSpec_reads (hs : ∀ tok ∈ s.rest, tok.Whole) (grouped : Bool) {m q : State}
    (hname : run call (.role .name (choice [.node .dot (sign .dot),
      .token (.word .blank .blankIdentifier), .token (.name .packageIdentifier)])) ⟨[], s.rest⟩ =
        some m) (hpath : run call (.role .path Grammar.string) m = some q) :
    Reads (.opened grouped none) (if grouped then .opened true none else .idle) s
        ⟨s.out ++ build .importSpec q.out, q.rest⟩ ∧
      Ends s ⟨s.out ++ build .importSpec q.out, q.rest⟩ := by
  obtain ⟨gap, tok, n, hrest, hgap, hout, hn⟩ := run_importName hs hname
  have hwhole : ∀ t ∈ m.rest, t.Whole := fun t ht =>
    hs t (by rw [hrest]; exact List.mem_append_right _ (List.mem_cons_of_mem _ ht))
  obtain ⟨gap', lit, x, hrest', hgap', hout', hx⟩ := run_importPath hwhole hpath
  have hfilter : (n :: (commentTrees gap' ++ [x])).filter (·.kind ≠ .newline) =
      n :: (commentTrees gap' ++ [x]) := by
    refine List.filter_eq_self.mpr fun t ht => ?_
    rcases List.mem_cons.mp ht with rfl | ht
    · simpa using hn.newline
    · rcases List.mem_append.mp ht with ht | ht
      · obtain ⟨g, -, rfl⟩ := List.mem_map.mp ht
        rfl
      · rw [List.mem_singleton.mp ht]
        simpa using hx.newline
  have hbuild : build .importSpec q.out = commentTrees gap ++
      [⟨.importSpec, none, n.start, x.stop, [], n :: (commentTrees gap' ++ [x])⟩] := by
    rw [hout', hout, List.append_assoc, List.singleton_append,
      build_taken .importSpec gap hn.comment, hfilter]
    simp
  have hws : s.rest = (gap ++ tok :: (gap' ++ [lit])) ++ q.rest := by
    rw [hrest, hrest']
    simp
  refine ⟨.of_spec (fun g hg => hs g ?_) hws (congrArg (s.out ++ ·) hbuild) rfl ?_
    (spells_named hn hx gap' n.start x.stop) ?_, ?_⟩
  · rw [hrest]
    exact List.mem_append_left _ hg
  · change specsIn ([n] ++ (commentTrees gap' ++ [x])) = []
    rw [specsIn_append, specsIn_append, specsIn_commentTrees]
    · simp [specsIn, hn.specless, hx.specless]
    · exact fun g hg => hwhole g (hrest' ▸ List.mem_append_left _ hg)
  · have hcons : gap ++ tok :: (gap' ++ [lit]) = gap ++ ([tok] ++ (gap' ++ [lit])) := rfl
    rw [hcons, Token.atoms_append, Token.atoms_append, Token.atoms_append, Token.atoms_gap hgap,
      Token.atoms_gap hgap', List.nil_append, List.nil_append,
      Mode.read_append_of (hn.read grouped), hx.read]
    rfl
  · refine ⟨gap ++ tok :: gap', lit, commentTrees gap, _, ?_, congrArg (s.out ++ ·) hbuild, hx.stop⟩
    rw [hws]
    simp

/-- So is an import without one. -/
theorem bareSpec_reads (hs : ∀ tok ∈ s.rest, tok.Whole) (grouped : Bool) {q : State}
    (hpath : run call (.role .path Grammar.string) ⟨[], s.rest⟩ = some q) :
    Reads (.opened grouped none) (if grouped then .opened true none else .idle) s
        ⟨s.out ++ build .importSpec q.out, q.rest⟩ ∧
      Ends s ⟨s.out ++ build .importSpec q.out, q.rest⟩ := by
  obtain ⟨gap, lit, x, hrest, hgap, hout, hx⟩ := run_importPath hs hpath
  have hbuild : build .importSpec q.out = commentTrees gap ++
      [⟨.importSpec, none, x.start, x.stop, [], [x]⟩] := by
    rw [hout, List.nil_append, build_taken .importSpec gap hx.comment]
    simp [hx.newline]
  have hws : s.rest = (gap ++ [lit]) ++ q.rest := by simp [hrest]
  refine ⟨.of_spec (fun g hg => hs g ?_) hws (congrArg (s.out ++ ·) hbuild) rfl ?_
    (spells_bare hx x.start x.stop) ?_, ?_⟩
  · rw [hrest]
    exact List.mem_append_left _ hg
  · simp [specsIn, hx.specless]
  · rw [Token.atoms_append, Token.atoms_gap hgap, List.nil_append, hx.read]
  · exact ⟨gap, lit, commentTrees gap, _, hrest, congrArg (s.out ++ ·) hbuild, hx.stop⟩

/-- An import spec is read where imports are announced. -/
theorem importSpec_reads (hs : ∀ tok ∈ s.rest, tok.Whole) (grouped : Bool)
    (h : run call Grammar.importSpec s = some s') :
    Reads (.opened grouped none) (if grouped then .opened true none else .idle) s s' ∧
      Ends s s' := by
  obtain ⟨q, hq, rfl⟩ := Option.map_eq_some_iff.mp h
  obtain ⟨m, hname, hpath⟩ := Option.bind_eq_some_iff.mp hq
  simp only [opt, run] at hname
  split at hname
  · next r hr =>
    cases hname
    exact namedSpec_reads hs grouped hr hpath
  · cases hname
    exact bareSpec_reads hs grouped hpath

/-- Import specs between endings are read inside the parentheses. -/
theorem separated_reads (hs : ∀ tok ∈ s.rest, tok.Whole)
    (h : run call (Grammar.separated Grammar.importSpec) s = some s') :
    Reads (.opened true none) (.opened true none) s s' := by
  have hmany : ∀ {r q : State}, (∀ tok ∈ r.rest, tok.Whole) →
      run call (.many (.seq ending Grammar.importSpec)) r = some q →
      Reads (.opened true none) (.opened true none) r q := by
    intro r q hr h
    cases h
    refine iterate_keeps (P := fun q => Reads (.opened true none) (.opened true none) r q)
      (fun a b ha hstep => ?_) _ (.refl _ r)
    obtain ⟨c, hend, hspec⟩ := Option.bind_eq_some_iff.mp hstep
    have hending := ending_reads (m := .opened true none) (ha.whole hr) hend
    exact (ha.trans hending).trans (importSpec_reads (hending.whole (ha.whole hr)) true hspec).1
  simp only [Grammar.separated, opt, chain, run] at h
  split at h
  · next r hr =>
    cases h
    obtain ⟨a, hspec, hrest⟩ := Option.bind_eq_some_iff.mp hr
    obtain ⟨b, hmore, hlast⟩ := Option.bind_eq_some_iff.mp hrest
    have ha := (importSpec_reads hs true hspec).1
    have hb := ha.trans (hmany (ha.whole hs) hmore)
    split at hlast
    · next c hc =>
      cases hlast
      exact hb.trans (ending_reads (hb.whole hs) hc)
    · cases hlast
      exact hb
  · cases h
    exact .refl _ s

/-- A sign that is taken first opens the node that is built. -/
theorem build_of_sign (g : Sign) (k : Kind) (gap : List Token) (tok : Token) (xs : List Tree)
    (x : Tree) : ∃ d, build k (commentTrees gap ++ [tok.tree (.sign g)] ++ (xs ++ [x])) =
      commentTrees gap ++ [d] ∧ d.kind = k ∧ d.start = tok.start ∧ d.stop = x.stop := by
  rw [List.append_assoc, List.singleton_append, build_taken k gap (by simp [Token.tree])]
  exact ⟨_, rfl, rfl, rfl, by simp⟩

/-- A list of imports in parentheses is read behind the keyword. -/
theorem importSpecList_reads (hs : ∀ tok ∈ s.rest, tok.Whole)
    (h : run call (.node .importSpecList (chain [sign .lparen,
      Grammar.separated Grammar.importSpec, sign .rparen])) s = some s') :
    Reads (.opened false none) .idle s s' ∧ Ends s s' := by
  obtain ⟨q, hq, rfl⟩ := Option.map_eq_some_iff.mp h
  simp only [chain, run, sign] at hq
  obtain ⟨a, hopen, hrest⟩ := Option.bind_eq_some_iff.mp hq
  obtain ⟨b, hinside, hclose⟩ := Option.bind_eq_some_iff.mp hrest
  have ha : Reads (.opened false none) (.opened true none) ⟨[], s.rest⟩ a := by
    refine takeSign_reads hs hopen fun tok hl => ?_
    rw [Token.atoms_cons (by rw [hl]; rfl), Token.atoms_nil, Mode.read, Mode.step, hl]
    rfl
  have hb := ha.trans (separated_reads (ha.whole hs) hinside)
  have hlast : Reads (.opened true none) .idle b q := by
    refine takeSign_reads (hb.whole hs) hclose fun tok hl => ?_
    rw [Token.atoms_cons (by rw [hl]; rfl), Token.atoms_nil, Mode.read, Mode.step, hl]
    rfl
  refine ⟨(hb.trans hlast).node (by decide) (by decide), ?_⟩
  obtain ⟨gap, lp, -, -, -, hlp⟩ := takeToken_split hopen
  obtain ⟨gap', rp, hrp, -, -, hout⟩ := takeToken_split hclose
  obtain ⟨ws, -, -, hws, -⟩ := hb
  obtain ⟨-, xs, -, -, hxs, -⟩ := separated_reads (ha.whole hs) hinside
  obtain ⟨d, hbuild, -, -, hstop⟩ := build_of_sign .lparen .importSpecList gap lp
    (xs ++ commentTrees gap') (rp.tree (.sign .rparen))
  have hall : q.out = commentTrees gap ++ [lp.tree (.sign .lparen)] ++
      (xs ++ commentTrees gap' ++ [rp.tree (.sign .rparen)]) := by
    rw [hout, hxs, hlp, List.append_assoc, ← List.append_assoc xs]
    rfl
  refine ⟨ws ++ gap', rp, commentTrees gap, d, ?_, congrArg (s.out ++ ·) (hall ▸ hbuild), hstop⟩
  rw [List.append_assoc, ← hrp]
  exact hws

/-- An import declaration is read as a whole, from the keyword to its last token. -/
theorem importDeclaration_reads (hs : ∀ tok ∈ s.rest, tok.Whole)
    (h : run call Grammar.importDeclaration s = some s') :
    Reads .idle .idle s s' ∧ ∃ gap first ws last d,
      s.rest = gap ++ first :: (ws ++ last :: s'.rest) ∧
      (∀ g ∈ gap, g.lexeme.isGap = true) ∧ s'.out = s.out ++ (commentTrees gap ++ [d]) ∧
      d.kind = .importDeclaration ∧ d.start = first.start ∧ d.stop = last.stop := by
  obtain ⟨q, hq, rfl⟩ := Option.map_eq_some_iff.mp h
  obtain ⟨a, hopen, hrest⟩ := Option.bind_eq_some_iff.mp hq
  have ha : Reads .idle (.opened false none) ⟨[], s.rest⟩ a := by
    refine takeSign_reads hs hopen fun tok hl => ?_
    rw [Token.atoms_cons (by rw [hl]; rfl), Token.atoms_nil, Mode.read, Mode.step, hl]
    rfl
  have hb : Reads (.opened false none) .idle a q ∧ Ends a q := by
    simp only [run] at hrest
    split at hrest
    · next r hr =>
      cases hrest
      exact importSpec_reads (ha.whole hs) false hr
    · exact importSpecList_reads (ha.whole hs) hrest
  refine ⟨(ha.trans hb.1).node (by decide) (by decide), ?_⟩
  obtain ⟨gap, first, hfirst, hgap, -, hout⟩ := takeToken_split hopen
  obtain ⟨ws, last, xs, x, hlast, hx, hstop⟩ := hb.2
  obtain ⟨d, hbuild, hk, hstart, hend⟩ := build_of_sign .kwImport .importDeclaration gap first xs x
  have hall : q.out = commentTrees gap ++ [first.tree (.sign .kwImport)] ++ (xs ++ [x]) := by
    rw [hx, hout]
    rfl
  exact ⟨gap, first, ws, last, d, by rw [← hlast]; exact hfirst, hgap,
    congrArg (s.out ++ ·) (hall ▸ hbuild), hk, hstart, hend.trans hstop⟩

end Rule

/-! ## Files -/

open Rule

/-- Between the tokens `us` and `vs` stands no end of an import declaration of the trees. -/
def Inside (ts : List Tree) (us vs : List Token) : Prop :=
  ∃ d ∈ ts, d.kind = .importDeclaration ∧ (∃ u ∈ us, d.start ≤ u.start) ∧ ∃ v ∈ vs, v.stop ≤ d.stop

/-- The tokens read so far hold the imports of the nodes built so far, and imports are read inside
of their declarations only. -/
def Surveyed (ts : List Token) (s : State) : Prop :=
  ∃ ws its, ts = ws ++ s.rest ∧ Mode.idle.read (Token.atoms ws) = some (.idle, its) ∧
    List.Forall₂ Written.Spells its (specsIn (s.out.filter (·.kind = .importDeclaration))) ∧
    ∀ us vs m a, ws = us ++ vs → Mode.idle.read (Token.atoms us) = some (m, a) →
      m = .idle ∨ Inside s.out us vs

theorem Inside.append {ts : List Tree} {us vs : List Token} (h : Inside ts us vs)
    (xs : List Tree) (ws : List Token) : Inside (ts ++ xs) us (vs ++ ws) := by
  obtain ⟨d, hd, hk, hu, v, hv, hstop⟩ := h
  exact ⟨d, List.mem_append_left _ hd, hk, hu, v, List.mem_append_left _ hv, hstop⟩

/-- A part of the tokens read is read too. -/
theorem read_front {m : Mode} {us vs : List Token} {r : Mode × List Written}
    (h : m.read (Token.atoms (us ++ vs)) = some r) :
    ∃ m' a, m.read (Token.atoms us) = some (m', a) := by
  rw [Token.atoms_append, Mode.read_append] at h
  obtain ⟨⟨m', a⟩, hr, -⟩ := Option.bind_eq_some_iff.mp h
  exact ⟨m', a, hr⟩

namespace Surveyed

variable {ts : List Token} {s s' : State}

theorem start (ts : List Token) : Surveyed ts ⟨[], ts⟩ := by
  refine ⟨[], [], rfl, rfl, .nil, fun us vs m a hsplit hread => ?_⟩
  obtain ⟨rfl, rfl⟩ := List.append_eq_nil_iff.mp hsplit.symm
  cases hread
  exact .inl rfl

/-- What imports nothing changes nothing. -/
theorem quiet (h : Surveyed ts s) {ws : List Token} {xs : List Tree}
    (hrest : s.rest = ws ++ s'.rest) (hws : ∀ tok ∈ ws, tok.lexeme ≠ .sign .kwImport)
    (hout : s'.out = s.out ++ xs) (hxs : ∀ x ∈ xs, x.kind ≠ .importDeclaration) :
    Surveyed ts s' := by
  obtain ⟨front, its, hfront, hread, hspells, hinside⟩ := h
  have hidle : ∀ us, (∀ tok ∈ us, tok ∈ ws) →
      Mode.idle.read (Token.atoms us) = some (.idle, []) := by
    refine fun us hus => Mode.read_idle fun w hw => ?_
    obtain ⟨tok, htok, hl⟩ := Token.mem_atoms hw
    exact hl ▸ hws tok (hus tok htok)
  refine ⟨front ++ ws, its, by rw [hfront, hrest, List.append_assoc], ?_, ?_, ?_⟩
  · rw [Token.atoms_append, Mode.read_append_of hread, hidle ws fun _ h => h, Option.map_some,
      List.append_nil]
  · have hnone : xs.filter (·.kind = .importDeclaration) = [] :=
      List.filter_eq_nil_iff.mpr (by simpa using hxs)
    rw [hout, List.filter_append, hnone, List.append_nil]
    exact hspells
  · intro us vs m a hsplit hus
    rw [hout]
    rcases List.append_eq_append_iff.mp hsplit with ⟨mid, rfl, hws'⟩ | ⟨mid, hfront', rfl⟩
    · left
      rw [Token.atoms_append, Mode.read_append_of hread,
        hidle mid fun tok htok => hws' ▸ List.mem_append_left _ htok] at hus
      exact (congrArg Prod.fst (Option.some.inj hus)).symm
    · exact (hinside us mid m a hfront' hus).imp_right fun h => h.append xs ws

/-- An import declaration is read as a whole. -/
theorem importDeclaration (h : Surveyed ts s) (hs : ∀ tok ∈ ts, tok.Whole)
    {call : Nonterminal → List Token → Option State}
    (hrun : Rule.run call Grammar.importDeclaration s = some s') : Surveyed ts s' := by
  obtain ⟨front, its, hfront, hread, hspells, hinside⟩ := h
  have hwhole : ∀ tok ∈ s.rest, tok.Whole := fun tok htok =>
    hs tok (hfront ▸ List.mem_append_right _ htok)
  obtain ⟨⟨ws, xs, its', hrest, hout, -, hread', hspells'⟩, gap, first, mid, last, d, hall, hgap,
    hd, hk, hstart, hstop⟩ := importDeclaration_reads hwhole hrun
  obtain rfl : ws = gap ++ first :: (mid ++ [last]) := by
    have htokens : ws ++ s'.rest = gap ++ first :: (mid ++ [last]) ++ s'.rest := by
      rw [← hrest, hall, List.append_assoc, List.cons_append, List.append_assoc,
        List.singleton_append]
    exact List.append_cancel_right htokens
  obtain rfl : xs = commentTrees gap ++ [d] := List.append_cancel_left (hout.symm.trans hd)
  have hfilter : (commentTrees gap ++ [d]).filter (·.kind = .importDeclaration) = [d] := by
    rw [List.filter_append, List.filter_eq_nil_iff.mpr, List.nil_append,
      List.filter_cons_of_pos (by simpa using hk)]
    · rfl
    · intro c hc
      obtain ⟨g, -, rfl⟩ := List.mem_map.mp hc
      simp [Token.tree]
  refine ⟨front ++ (gap ++ first :: (mid ++ [last])), its ++ its',
    by rw [hfront, hrest, ← List.append_assoc], ?_, ?_, ?_⟩
  · rw [Token.atoms_append, Mode.read_append_of hread, hread']
    rfl
  · have hcomments : specsIn (commentTrees gap) = [] := specsIn_commentTrees fun g hg =>
      hwhole g (by rw [hrest]; simp [hg])
    rw [specsIn_append, hcomments, List.nil_append] at hspells'
    rw [hout, List.filter_append, specsIn_append, hfilter]
    exact List.rel_append hspells hspells'
  · intro us vs m a hsplit hus
    rw [hout]
    rcases List.append_eq_append_iff.mp hsplit with ⟨more, rfl, hmore⟩ | ⟨more, hfront', rfl⟩
    · rw [Token.atoms_append, Mode.read_append_of hread] at hus
      obtain ⟨⟨m', b⟩, hb, heq⟩ := Option.map_eq_some_iff.mp hus
      obtain rfl : m' = m := congrArg Prod.fst heq
      -- before the keyword nothing is open, and behind the last token nothing is left to be read
      have hempty : ∀ us, (∀ tok ∈ us, tok ∈ gap) → Token.atoms us = [] :=
        fun us hus => Token.atoms_gap fun g hg => hgap g (hus g hg)
      rcases List.append_eq_append_iff.mp hmore with ⟨body, rfl, hbody⟩ | ⟨gap', hgap', -⟩
      · cases body with
        | nil =>
          rw [List.append_nil, hempty gap fun _ h => h] at hb
          cases hb
          exact .inl rfl
        | cons x body =>
          obtain ⟨rfl, hmid⟩ := List.cons.inj hbody
          cases hvs : vs with
          | nil =>
            rw [hvs, List.append_nil] at hbody
            rw [← hbody, hread'] at hb
            cases hb
            exact .inl rfl
          | cons v vs' =>
            refine .inr ⟨d, by simp, hk, ⟨first, by simp, hstart.le⟩, last, ?_, hstop.ge⟩
            have hlast : (body ++ v :: vs').getLast? = some last := by
              rw [← hvs]
              exact (congrArg List.getLast? hmid).symm.trans List.getLast?_concat
            rw [List.getLast?_append_of_ne_nil _ (List.cons_ne_nil v vs')] at hlast
            exact List.mem_of_getLast? hlast
      · rw [hempty more fun tok htok => hgap' ▸ List.mem_append_left _ htok] at hb
        cases hb
        exact .inl rfl
    · exact (hinside us more m a hfront' hus).imp_right fun h => h.append _ _

end Surveyed

namespace Grammar

/-- Terminals that are not the keyword of imports. -/
def isQuiet (t : Terminal) : Bool := t.isExact && (t.accept? (.sign .kwImport)).isNone

/-- Nonterminals below the top level. -/
def isLow (n : Nonterminal) : Bool := n ≠ .top && n ≠ .sourceFile

theorem lexeme_ne_of_fits {tok : Token} (h : Rule.Fits isQuiet tok) :
    tok.lexeme ≠ .sign .kwImport := by
  rintro hl
  rcases h with hgap | ⟨t, ht, haccept⟩
  · rw [hl] at hgap
    cases hgap
  · have := Option.isNone_iff_eq_none.mp (Bool.and_eq_true_iff.mp ht).2
    rw [← hl, haccept] at this
    cases this

/-- Below the top level there is no keyword of imports. -/
theorem grammar_quiet (n : Nonterminal) (hn : isLow n = true) :
    (grammar n).only isQuiet isLow = true := by
  have hlisted : ∀ n ∈ nonterminals, isLow n = true →
      (grammar n).only isQuiet isLow = true := by
    decide +kernel
  rcases mem_nonterminals_or n with hmem | ⟨p, m, rfl⟩
  · exact hlisted n hmem hn
  · simp [grammar, tierRule, tiers, Rule.only, isLow]

theorem run_alt {call : Nonterminal → List Token → Option Rule.State} {a b : Production}
    {s s' : Rule.State} (h : Rule.run call (.alt a b) s = some s') :
    Rule.run call a s = some s' ∨ Rule.run call b s = some s' := by
  rw [Rule.run] at h
  split at h
  · next r hr => exact .inl (hr.trans h)
  · exact .inr h

theorem statement_surveyed {ts : List Token} {s s' : Rule.State} {fuel : Nat} (h : Surveyed ts s)
    (hrun : Rule.run (Rule.derive grammar fuel) (.call .statement) s = some s') :
    Surveyed ts s' := by
  obtain ⟨r, hr, rfl⟩ := Option.map_eq_some_iff.mp hrun
  obtain ⟨ws, hrest, hfits, -⟩ := Rule.derive_spends (p := isQuiet)
    (fun t ht => (Bool.and_eq_true_iff.mp ht).1) (n := isLow) grammar_quiet _ _ _ _ rfl hr
  refine h.quiet hrest (fun tok htok => lexeme_ne_of_fits (hfits tok htok)) rfl fun x hx hk => ?_
  rcases grammar_describes.marked _ _ _ _ hr x hx with (hcomment | hnewline) | hmark
  · rw [hcomment] at hk; cases hk
  · rw [hnewline] at hk; cases hk
  · have hkinds : ∀ k ∈ marks .statement, k.kind ≠ .importDeclaration := by decide +kernel
    exact hkinds _ hmark hk

theorem top_surveyed {ts : List Token} (hts : ∀ tok ∈ ts, tok.Whole) {s s' : Rule.State}
    {fuel : Nat} (h : Surveyed ts s)
    (hrun : Rule.run (Rule.derive grammar fuel) (.call .top) s = some s') : Surveyed ts s' := by
  obtain ⟨r, hr, rfl⟩ := Option.map_eq_some_iff.mp hrun
  cases fuel with
  | zero => cases hr
  | succ fuel =>
    have hquiet : ∀ {k : Kind} {b : Production}, k ≠ .importDeclaration →
        (Rule.node k b).only isQuiet isLow = true →
        Rule.run (Rule.derive grammar fuel) (.node k b) ⟨[], s.rest⟩ = some r →
        Surveyed ts ⟨s.out ++ r.out, r.rest⟩ := by
      intro k b hk hb hr
      obtain ⟨ws, hrest, hfits, -⟩ := Rule.run_spends (p := isQuiet)
        (fun t ht => (Bool.and_eq_true_iff.mp ht).1) (n := isLow)
        (Rule.derive_spends (fun t ht => (Bool.and_eq_true_iff.mp ht).1) grammar_quiet fuel) hb hr
      refine h.quiet hrest (fun tok htok => lexeme_ne_of_fits (hfits tok htok)) rfl
        fun x hx hkx => ?_
      obtain ⟨m, -, rfl⟩ := Option.map_eq_some_iff.mp hr
      have hbuild : x ∈ Rule.build k m.out := by simpa using hx
      rcases Rule.mem_build hbuild with hcomment | hbuilt
      · rw [hcomment] at hkx; cases hkx
      · exact hk (hbuilt.symm.trans hkx)
    rcases run_alt (show Rule.run _ topRule ⟨[], s.rest⟩ = some r from hr) with hr | hr
    · exact hquiet (by decide) (by decide +kernel) hr
    rcases run_alt hr with hr | hr
    · exact hquiet (by decide) (by decide +kernel) hr
    rcases run_alt hr with hr | hr
    · obtain ⟨m, hm, rfl⟩ := Option.map_eq_some_iff.mp hr
      exact h.importDeclaration hts (Option.map_eq_some_iff.mpr ⟨m, hm, rfl⟩)
    · exact hquiet (by decide) (by decide +kernel) hr

theorem ending_surveyed {ts : List Token} {call : Nonterminal → List Token → Option Rule.State}
    {s s' : Rule.State} (h : Surveyed ts s) (hrun : Rule.run call ending s = some s') :
    Surveyed ts s' := by
  have htaken : ∀ {gap : List Token} {tok : Token} {k : Kind}, s.rest = gap ++ tok :: s'.rest →
      (∀ g ∈ gap, g.lexeme.isGap = true) → tok.lexeme ≠ .sign .kwImport →
      k ≠ .importDeclaration → s'.out = s.out ++ (commentTrees gap ++ [tok.tree k]) →
      Surveyed ts s' := by
    intro gap tok k hrest hgap hl hk hout
    have hws : s.rest = (gap ++ [tok]) ++ s'.rest := by simp [hrest]
    refine h.quiet hws (fun t ht hlt => ?_) hout fun x hx hkx => ?_
    · rcases List.mem_append.mp ht with ht | ht
      · have := hgap t ht
        rw [hlt] at this
        cases this
      · exact hl (List.mem_singleton.mp ht ▸ hlt)
    · rcases List.mem_append.mp hx with hx | hx
      · obtain ⟨g, -, rfl⟩ := List.mem_map.mp hx
        cases hkx
      · rw [List.mem_singleton.mp hx] at hkx
        exact hk hkx
  rcases run_alt hrun with hrun | hrun
  · obtain ⟨gap, tok, hrest, hgap, hl, hout⟩ := takeNewline_split hrun
    exact htaken hrest (fun g hg => by simp [Lexeme.isGap, hgap g hg]) (by simp [hl])
      (by decide) hout
  · obtain ⟨gap, tok, hrest, hgap, haccept, hout⟩ := takeToken_split hrun
    exact htaken hrest hgap (by simp [Terminal.eq_sign_of_accept? haccept]) (by decide) hout

/-- A file is read as a whole. -/
theorem sourceFile_surveyed {ts : List Token} (hts : ∀ tok ∈ ts, tok.Whole) {fuel : Nat}
    {s : Rule.State} (h : Rule.derive grammar fuel .sourceFile ts = some s) : Surveyed ts s := by
  cases fuel with
  | zero => cases h
  | succ fuel =>
    obtain ⟨m, hmany, hlast⟩ := Option.bind_eq_some_iff.mp
      (show Rule.run (Rule.derive grammar fuel) sourceFileRule ⟨[], ts⟩ = some s from h)
    have hm : Surveyed ts m := by
      cases hmany
      refine iterate_keeps (P := Surveyed ts) (fun a b ha hstep => ?_) _ (.start ts)
      obtain ⟨c, hitem, hend⟩ := Option.bind_eq_some_iff.mp hstep
      refine ending_surveyed ?_ hend
      rcases run_alt hitem with hitem | hitem
      · exact top_surveyed hts ha hitem
      · exact statement_surveyed ha hitem
    rcases run_alt hlast with hlast | hlast
    · exact top_surveyed hts hm hlast
    · cases hlast
      exact hm

end Grammar

/-- The imports read off the tokens of a file are those of its tree, and at its end none is being
read. Where one is, an import declaration of the tree has begun and not ended. -/
theorem parse?_imports {src : Bytes} {root : Tree} (h : parse? src = some root) :
    ∃ its, Mode.idle.read (Token.atoms (Token.scan src)) = some (.idle, its) ∧
      List.Forall₂ Written.Spells its
        (specsIn (root.children.filter (·.kind = .importDeclaration))) ∧
      ∀ us vs, Token.scan src = us ++ vs → ∃ m a,
        Mode.idle.read (Token.atoms us) = some (m, a) ∧
          (m = .idle ∨ Inside root.children us vs) := by
  obtain ⟨s, hs, hrest⟩ := Option.bind_eq_some_iff.mp h
  simp only [skipBlanks_eq, Option.ite_none_right_eq_some, Option.some.injEq,
    List.isEmpty_iff] at hrest
  obtain ⟨hnone, rfl⟩ := hrest
  have hsplit := List.takeWhile_append_dropWhile (p := fun g : Token => g.lexeme.isGap)
    (l := s.rest)
  rw [hnone, List.append_nil] at hsplit
  have hgap : ∀ g ∈ s.rest, g.lexeme.isGap = true := fun g hg =>
    List.mem_takeWhile_imp (p := fun g : Token => g.lexeme.isGap) (hsplit.symm ▸ hg)
  rw [hsplit]
  have hend : Surveyed (Token.scan src) ⟨s.out ++ commentTrees s.rest, []⟩ := by
    refine (Grammar.sourceFile_surveyed (fun tok htok => Token.scan_whole htok) hs).quiet
      (List.append_nil _).symm (fun g hg hl => ?_) rfl fun x hx hk => ?_
    · have := hgap g hg
      rw [hl] at this
      cases this
    · obtain ⟨g, -, rfl⟩ := List.mem_map.mp hx
      cases hk
  obtain ⟨ws, its, hws, hread, hspells, hinside⟩ := hend
  rw [List.append_nil] at hws
  have hchildren : (fileTree src.length (s.out ++ commentTrees s.rest)).children =
      (s.out ++ commentTrees s.rest).filter (·.kind ≠ .newline) := rfl
  refine ⟨its, hws ▸ hread, ?_, fun us vs hus => ?_⟩
  · rw [hchildren, List.filter_filter, List.filter_congr (q := (·.kind = .importDeclaration))]
    · exact hspells
    · intro x _
      by_cases hk : x.kind = .importDeclaration <;> simp [hk]
  · obtain ⟨m, a, hm⟩ := read_front (hus ▸ hws ▸ hread)
    refine ⟨m, a, hm, (hinside us vs m a (hws ▸ hus) hm).imp_right ?_⟩
    rintro ⟨d, hd, hk, hbounds⟩
    exact ⟨d, hchildren ▸ List.mem_filter.mpr ⟨hd, by simp [hk]⟩, hk, hbounds⟩

end Code

end CtxThread

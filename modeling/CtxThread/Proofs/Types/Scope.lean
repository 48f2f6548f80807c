import CtxThread.Proofs.Code.Nesting
import CtxThread.Proofs.Types.Script

/-!
# Scopes

The scope of a declaration in a function goes from its end to the end of the innermost block around
it; that of parameters is the body of the function, and that of the alias of a type switch is the
body of each case. A use of a name refers to the declaration in scope whose block is innermost, and
in one block to the last, where a short declaration declares every name on its left. Only variables
are meant: constants and types have no values that methods are called on.

## Main definitions

- `Code.Kind.isBlock`, `Code.Site.block`: blocks, and the innermost block around a node
- `Ref.declaresName`: a node that declares a name
- `Env.InScope`, `Env.AliasInScope`: declarations that are in scope
- `Env.Declaration`, `Env.RefersTo`: what the use of a name refers to
- `Env.Overlooked`: declarations in places that are not looked at when a name is looked up

## Main statements

- `Env.inScope_of_binds`: what binds a name where it is looked up is in scope
- `Env.InScope.exists_seenAt`: what is in scope binds the name in a place that is looked at, unless
  it is overlooked
-/

namespace CtxThread

open Code (Tree Site Table)

namespace Code

/-- The kinds of nodes that are blocks of their own. Statements that can declare variables in their
headers are blocks around the blocks of their branches. -/
def Kind.isBlock : Kind → Bool
  | .statementList | .ifStatement | .forStatement | .expressionSwitchStatement
  | .typeSwitchStatement | .communicationCase | .functionDeclaration | .methodDeclaration
  | .funcLiteral => true
  | _ => false

/-- Where declarations can stand, and the words and signs that they are recognized by. -/
def declaring : Table where
  admits k m :=
    match m.kind with
    | .shortVarDeclaration =>
      k ∈ [.statementList, .labeledStatement, .ifStatement, .expressionSwitchStatement,
        .typeSwitchStatement, .forClause, .sourceFile]
    | .varDeclaration => k ∈ [.statementList, .labeledStatement, .sourceFile]
    | .varSpec => k ∈ [.varDeclaration, .varSpecList]
    | .varSpecList => k = .varDeclaration
    | .forClause | .rangeClause => k = .forStatement
    | .parameterList =>
      k ∈ [.functionDeclaration, .methodDeclaration, .funcLiteral, .functionType, .methodElem]
    | .sourceFile => false
    | _ => true
  requires
    | .parameterList => some fun m => m.kind = .sign .lparen
    | .shortVarDeclaration => some fun m => m.kind = .sign .define
    | .varDeclaration => some fun m => m.kind = .sign .kwVar
    | .forClause => some fun m => m.kind = .sign .semicolon
    | .rangeClause => some fun m => m.kind = .sign .kwRange
    | _ => none

theorem declaring_agrees : Grammar.Agrees declaring :=
  ⟨by decide +kernel, by decide, rfl⟩

namespace Site

/-- A node and the nodes around it. -/
def path (s : Site) : List Tree := s.node :: s.around

/-- The innermost block around a node, with the nodes around it. -/
def block (s : Site) : List Tree := s.around.dropWhile (!·.kind.isBlock)

/-- The node `inner` stands in the body of `outer`, if that is something that has one. -/
def inBody (inner outer : Tree) : Bool :=
  match outer.kind with
  | .functionDeclaration | .methodDeclaration | .funcLiteral => inner.role = some .body
  | .functionType | .methodElem => false
  | .typeCase | .defaultCase => inner.kind = .statementList
  | _ => true

/-- A node stands in the bodies of all functions and cases around it, and not in the types of their
parameters or in what tells a case from others. -/
def inBodies : Tree → List Tree → Bool
  | _, [] => true
  | inner, outer :: around => inBody inner outer && inBodies outer around

theorem inBody_of_suffix {inner outer node : Tree} {rest around : List Tree}
    (h : inBodies node around = true) (hsuffix : inner :: outer :: rest <:+ node :: around) :
    inBody inner outer = true := by
  induction around generalizing node with
  | nil =>
    have := hsuffix.length_le
    simp at this
  | cons t around ih =>
    rw [inBodies, Bool.and_eq_true] at h
    rcases List.suffix_cons_iff.mp hsuffix with heq | hsuffix
    · cases heq
      exact h.1
    · exact ih h.2 hsuffix

theorem path_suffix_of_mem_walk {s s' : Site} (h : s' ∈ s.walk) : s.path <:+ s'.path := by
  induction s using Site.induction with
  | node s ih =>
    rw [walk_eq, List.mem_cons] at h
    rcases h with rfl | h
    · exact List.suffix_rfl
    · obtain ⟨c, hc, hs'⟩ := List.mem_flatMap.mp h
      obtain ⟨t, _, rfl⟩ := List.mem_map.mp hc
      exact (List.suffix_cons _ _).trans (ih _ hc hs')

/-- The parent of a site of a walk has its node among its children. -/
theorem mem_children_of_mem_walk {root inner outer : Tree} {around : List Tree}
    (h : ⟨inner, outer :: around⟩ ∈ (Site.root root).walk) : inner ∈ outer.children := by
  rcases eq_or_mem_children h with heq | ⟨p, _, hs⟩
  · cases heq
  · obtain ⟨t, ht, heq⟩ := List.mem_map.mp hs
    cases heq
    exact ht

end Site

end Code

theorem suffix_of_suffix_length_eq {α : Type} {l₁ l₂ l : List α} (h₁ : l₁ <:+ l) (h₂ : l₂ <:+ l)
    (hlength : l₁.length = l₂.length) : l₁ = l₂ :=
  (List.suffix_of_suffix_length_le h₁ h₂ hlength.le).eq_of_length hlength

/-- Before a part of the nodes around a node there is one more. -/
theorem exists_cons_suffix {α : Type} {l as : List α} (a : α) (h : l <:+ as) :
    ∃ b, b :: l <:+ a :: as := by
  induction as generalizing a with
  | nil =>
    rw [List.suffix_nil.mp h]
    exact ⟨a, List.suffix_rfl⟩
  | cons c as ih =>
    rcases List.suffix_cons_iff.mp h with rfl | h
    · exact ⟨a, List.suffix_rfl⟩
    · obtain ⟨b, hb⟩ := ih c h
      exact ⟨b, hb.trans (List.suffix_cons a _)⟩

theorem suffix_of_cons_suffix_cons {α : Type} {a b : α} {l as : List α} (h : b :: l <:+ a :: as) :
    l <:+ as := by
  rcases List.suffix_cons_iff.mp h with heq | h
  · obtain rfl := (List.cons.inj heq).2
    exact List.suffix_rfl
  · exact (List.suffix_cons b l).trans h

theorem dropWhile_suffix_dropWhile {α : Type} {p : α → Bool} {l l' : List α} (h : l <:+ l') :
    l.dropWhile p <:+ l'.dropWhile p := by
  obtain ⟨front, rfl⟩ := h
  rw [List.dropWhile_append]
  split
  · exact List.suffix_rfl
  · exact (List.dropWhile_suffix p).trans (List.suffix_append _ _)

/-- Whether a node declares a name: in a list of parameters, by a sign or in a spec. -/
def Ref.declaresName (decl : Ref) (name : String) : Bool :=
  match decl.node.kind with
  | .parameterList => decl.node.paramDecls.any (·.names.contains name)
  | .shortVarDeclaration => decl.leftNames.contains (some name)
  | .varSpec => decl.node.names.contains name
  | .rangeClause | .receiveStatement => decl.declares && decl.leftNames.contains (some name)
  | _ => false

/-- The ways to declare `name`: as a parameter, on the left of a short declaration or of a clause
that declares, or in a spec. -/
inductive Ref.Declares (name : String) (decl : Ref) : Prop where
  | parameter (hkind : decl.node.kind = .parameterList)
      (hname : decl.node.paramDecls.any (·.names.contains name) = true)
  | short (hkind : decl.node.kind = .shortVarDeclaration)
      (hname : decl.leftNames.contains (some name) = true)
  | spec (hkind : decl.node.kind = .varSpec) (hname : decl.node.names.contains name = true)
  | range (hkind : decl.node.kind = .rangeClause)
      (hname : (decl.declares && decl.leftNames.contains (some name)) = true)
  | receive (hkind : decl.node.kind = .receiveStatement)

theorem Ref.declares_cases {decl : Ref} {name : String} (h : decl.declaresName name = true) :
    decl.Declares name := by
  unfold declaresName at h
  split at h
  · next hkind => exact .parameter hkind h
  · next hkind => exact .short hkind h
  · next hkind => exact .spec hkind h
  · next hkind => exact .range hkind h
  · next hkind => exact .receive hkind
  · cases h

/-- The statement or the clause that a declaration is a part of. -/
def Ref.statement (decl : Ref) : Ref :=
  if decl.node.kind = .varSpec then
    match decl.site.around.dropWhile (·.kind ≠ .varDeclaration) with
    | stmt :: around => decl.move ⟨stmt, around⟩
    | [] => decl
  else decl

namespace Env

variable (env : Env)

/-- A declaration of a name is in scope where the identifier `use` stands: its block is around the
identifier, it ends before it, and if it declares parameters, the identifier is in the body. -/
structure InScope (use : Ref) (name : String) (decl : Ref) : Prop where
  mem : decl ∈ env.refs
  file : decl.file = use.file
  names : decl.declaresName name = true
  block : decl.site.block ≠ [] ∧ decl.site.block <:+ use.site.around
  before : decl.node.stop ≤ use.node.start
  body : decl.node.kind = .parameterList →
    ∃ body : Tree, body.role = some .body ∧ body :: decl.site.around <:+ use.site.path

/-- The alias of a type switch is in scope in the body of a case. -/
structure AliasInScope (use : Ref) (name : String) (case : Ref) : Prop where
  file : case.file = use.file
  kind : case.node.kind = .typeCase ∨ case.node.kind = .defaultCase
  names : (env.bindCase case name).isSome = true
  body : ∃ list : Tree, list.kind = .statementList ∧ list :: case.site.path <:+ use.site.path

/-- What declares a name: a node, or a case of a type switch with an alias. -/
inductive Declaration where
  | node (decl : Ref)
  | inCase (case : Ref)

/-- Where a declaration starts. -/
def Declaration.start : Declaration → Nat
  | .node decl => decl.node.start
  | .inCase case => case.node.start

/-- A declaration is in scope, and `depth` nodes are its block or around it. -/
inductive Scopes (use : Ref) (name : String) : Declaration → Nat → Prop
  | node {decl : Ref} (h : env.InScope use name decl) :
      Scopes use name (.node decl) decl.site.block.length
  | inCase {case : Ref} (h : env.AliasInScope use name case) :
      Scopes use name (.inCase case) case.site.path.length

/-- An identifier refers to a declaration in scope. Any other that is in scope has a block further
out, or it comes earlier in the same block. -/
structure RefersTo (use : Ref) (decl : Declaration) (depth : Nat) : Prop where
  scopes : env.Scopes use use.node.text decl depth
  nearest : ∀ other n, env.Scopes use use.node.text other n →
    other = decl ∨ n < depth ∨ n = depth ∧ other.start < decl.start

/-- Of the statements in the head of a loop only the first one declares variables. -/
def DeclaresFirst : Prop :=
  ∀ clause ∈ env.refs, clause.node.kind = .forClause → ∀ t ∈ clause.node.children,
    t.kind = .shortVarDeclaration → clause.node.child? .initializer = some t

/-- A declaration is overlooked where `use` is looked up: in a case of a `select`, under a label, or
in the same group of variables. -/
def Overlooked (use : Ref) : Declaration → Prop
  | .node decl =>
    decl.node.kind = .receiveStatement ∨
    (∃ t ∈ decl.site.around.takeWhile (!·.kind.isBlock), t.kind = .labeledStatement) ∨
    decl.node.kind = .varSpec ∧ decl.statement.site.path <:+ use.site.around
  | .inCase _ => False

/-- What a declaration binds a name to. -/
def Declaration.binding (o : Oracle) (name : String) : Declaration → Resolving (Option Binding)
  | .node decl => env.bindingIn o decl.statement name
  | .inCase case => return env.bindCase case name

end Env

/-! ## Places -/

namespace Env

variable {env : Env} {name : String}

theorem mem_refs_of_suffix {r : Ref} (hr : r ∈ env.refs) {t : Tree} {rest : List Tree}
    (h : t :: rest <:+ r.site.path) : r.move ⟨t, rest⟩ ∈ env.refs := by
  obtain ⟨file, node, around⟩ := r
  induction around generalizing node with
  | nil =>
    obtain ⟨rfl, rfl⟩ : t = node ∧ rest = [] := by
      have := List.suffix_cons_iff.mp h
      simpa using this
    exact hr
  | cons outer around ih =>
    rcases List.suffix_cons_iff.mp h with heq | h
    · cases heq
      exact hr
    · exact ih outer (mem_refs_outer hr) h

theorem mem_walk_of_suffix {r : Ref} (hr : r ∈ env.refs) {t : Tree} {rest : List Tree}
    (h : t :: rest <:+ r.site.path) : r.node ∈ t.walk := by
  obtain ⟨file, node, around⟩ := r
  induction around generalizing node with
  | nil =>
    obtain ⟨rfl, rfl⟩ : t = node ∧ rest = [] := by
      have := List.suffix_cons_iff.mp h
      simpa using this
    exact t.mem_walk_self
  | cons outer around ih =>
    rcases List.suffix_cons_iff.mp h with heq | h
    · cases heq
      exact node.mem_walk_self
    · have hchild : node ∈ outer.children := by
        obtain ⟨f, _, hs⟩ := mem_refs.mp hr
        exact Site.mem_children_of_mem_walk hs
      exact Tree.mem_walk_trans (ih outer (mem_refs_outer hr) h)
        (Tree.mem_walk_iff.mpr (.inr ⟨node, hchild, node.mem_walk_self⟩))

theorem mem_children_of_suffix {r : Ref} (hr : r ∈ env.refs) {inner outer : Tree}
    {rest : List Tree} (h : inner :: outer :: rest <:+ r.site.path) : inner ∈ outer.children := by
  obtain ⟨f, _, hs⟩ := mem_refs.mp (mem_refs_of_suffix hr h)
  exact Site.mem_children_of_mem_walk hs

/-- The specs of a declaration of variables stand in it or in its group. -/
theorem around_of_mem_specs {decl spec : Ref} (h : spec ∈ decl.specs) :
    spec.file = decl.file ∧ spec.node.kind = .varSpec ∧
      (spec.site.around = decl.site.path ∨
        ∃ l : Tree, l.kind = .varSpecList ∧ spec.site.around = l :: decl.site.path) := by
  obtain ⟨s, hs, rfl⟩ := List.mem_map.mp h
  obtain ⟨c, hc, hs⟩ := List.mem_flatMap.mp hs
  obtain ⟨t, _, rfl⟩ := List.mem_map.mp hc
  split at hs
  · rename_i hkind
    rw [List.mem_singleton.mp hs]
    exact ⟨rfl, hkind, .inl rfl⟩
  · split at hs
    · rename_i hlist
      obtain ⟨hmem, hkind⟩ := List.mem_filter.mp hs
      obtain ⟨t', _, rfl⟩ := List.mem_map.mp hmem
      exact ⟨rfl, of_decide_eq_true hkind, .inr ⟨t, hlist, rfl⟩⟩
    · cases hs

theorem mem_specs_of_around {spec : Ref} (hspec : spec ∈ env.refs)
    (hkind : spec.node.kind = .varSpec) {stmt : Tree} {rest : List Tree}
    (h : spec.site.around = stmt :: rest ∨
      ∃ l : Tree, l.kind = .varSpecList ∧ spec.site.around = l :: stmt :: rest) :
    spec ∈ (spec.move ⟨stmt, rest⟩).specs := by
  obtain ⟨file, node, around⟩ := spec
  refine List.mem_map.mpr ⟨⟨node, around⟩, List.mem_flatMap.mpr ?_, rfl⟩
  rcases h with h | ⟨l, hl, h⟩
  · cases h
    have hchild : node ∈ stmt.children := mem_children_of_suffix hspec List.suffix_rfl
    refine ⟨_, List.mem_map_of_mem hchild, ?_⟩
    change node.kind = .varSpec at hkind
    change _ ∈ if node.kind = .varSpec then _ else _
    rw [if_pos hkind]
    exact List.mem_singleton_self _
  · cases h
    have hchild : node ∈ l.children := mem_children_of_suffix hspec List.suffix_rfl
    have hlist : l ∈ stmt.children := mem_children_of_suffix (mem_refs_outer hspec) List.suffix_rfl
    refine ⟨_, List.mem_map_of_mem hlist, ?_⟩
    change _ ∈ if l.kind = .varSpec then _ else if l.kind = .varSpecList then _ else _
    rw [if_neg (by rw [hl]; decide), if_pos hl]
    exact List.mem_filter.mpr ⟨List.mem_map_of_mem hchild, decide_eq_true hkind⟩

section Parsed

variable (hparsed : ∀ f ∈ env.files, Code.parse? f.src = some f.root)

include hparsed

theorem laid_of_mem_refs {r : Ref} (hr : r ∈ env.refs) : ∃ src, r.node.Laid src := by
  obtain ⟨f, hf, hs⟩ := mem_refs.mp hr
  have hlaid := Code.parse?_laid (hparsed f (List.mem_of_getElem? hf))
  exact ⟨f.src, hlaid.of_mem_walk (Tree.node_mem_walk hs)⟩

theorem formed_of_mem_refs {table : Table} (htable : Code.Grammar.Agrees table) {r : Ref}
    (hr : r ∈ env.refs) : r.node.Formed table := by
  obtain ⟨f, hf, hs⟩ := mem_refs.mp hr
  exact Code.parse?_formed htable (hparsed f (List.mem_of_getElem? hf)) (Tree.node_mem_walk hs)

/-- A node lies within the nodes around it. -/
theorem span_of_suffix {r : Ref} (hr : r ∈ env.refs) {t : Tree} {rest : List Tree}
    (h : t :: rest <:+ r.site.path) : t.start ≤ r.node.start ∧ r.node.stop ≤ t.stop := by
  obtain ⟨src, hlaid⟩ := laid_of_mem_refs hparsed (mem_refs_of_suffix hr h)
  have hspan := Tree.Laid.span_le_of_mem_walk hlaid (mem_walk_of_suffix hr h)
  exact ⟨hspan.1, hspan.2⟩

theorem start_le_stop_of_mem_refs {r : Ref} (hr : r ∈ env.refs) : r.node.start ≤ r.node.stop := by
  obtain ⟨src, hlaid⟩ := laid_of_mem_refs hparsed hr
  exact hlaid.start_le_stop

/-- Of two children of a node, the one that starts first ends before the other starts. -/
theorem stop_le_start {r : Ref} (hr : r ∈ env.refs) {t inner : Tree} (ht : t ∈ r.node.children)
    (hinner : inner ∈ r.node.children) (hlt : t.start < inner.start) : t.stop ≤ inner.start := by
  obtain ⟨src, hlaid⟩ := laid_of_mem_refs hparsed hr
  have hne : t ≠ inner := by
    rintro rfl
    exact absurd hlt (lt_irrefl _)
  have hspan := (hlaid.row.bounds_of_mem hinner).2.1
  rcases hlaid.row.apart_of_ne ht hinner hne with h | h
  · exact h
  · omega

/-- What a node can stand in. -/
theorem admits_of_mem_refs {file : Nat} {inner outer : Tree} {rest : List Tree}
    (hr : ⟨file, ⟨inner, outer :: rest⟩⟩ ∈ env.refs) (hbuilt : inner.kind.isBuilt = true) :
    Code.declaring.admits outer.kind inner.mark = true := by
  have houter : ⟨file, ⟨outer, rest⟩⟩ ∈ env.refs := mem_refs_outer hr
  have hchild : inner ∈ outer.children := mem_children_of_suffix hr List.suffix_rfl
  have hformed : outer.Formed Code.declaring :=
    formed_of_mem_refs hparsed Code.declaring_agrees houter
  rw [Code.Kind.isBuilt, Bool.and_eq_true, Bool.not_eq_true', Bool.not_eq_true'] at hbuilt
  have houterBuilt : outer.kind.isBuilt = true := by
    by_cases htoken : outer.kind.isToken = true
    · have hinner := ((hformed.token htoken).2 inner hchild).2
      rw [hbuilt.2] at hinner
      cases hinner
    · by_cases hinner : Code.Token.isInner outer.kind = true
      · rw [hformed.inner hinner] at hchild
        cases hchild
      · simp [Code.Kind.isBuilt, htoken, hinner]
  rcases hformed.admits houterBuilt inner hchild with hcomment | hadmits
  · rw [hcomment] at hbuilt
    exact absurd hbuilt.1 (by decide)
  · exact hadmits

/-- A file stands in nothing. -/
theorem around_of_sourceFile {file : Nat} {t : Tree} {rest : List Tree}
    (hr : ⟨file, ⟨t, rest⟩⟩ ∈ env.refs) (hkind : t.kind = .sourceFile) : rest = [] := by
  cases rest with
  | nil => rfl
  | cons outer rest =>
    have hadmits := admits_of_mem_refs hparsed hr (by rw [hkind]; rfl)
    simp [Code.declaring, Tree.mark, hkind] at hadmits

/-- What binds a name is not empty: it is recognized by a word or a sign. -/
theorem start_lt_stop_of_binds {r : Ref} (hr : r ∈ env.refs) (h : r.binds name = true) :
    r.node.start < r.node.stop := by
  have hformed := formed_of_mem_refs hparsed Code.declaring_agrees hr
  obtain ⟨sign, hrequires, hbuilt, htoken⟩ : ∃ sign,
      Code.declaring.requires r.node.kind = some (fun m => decide (m.kind = .sign sign)) ∧
        r.node.kind.isBuilt = true ∧ (Code.Kind.sign sign).isToken = true := by
    cases Ref.binds_cases h with
    | parameter hkind | short hkind | spec hkind | loop hkind | range hkind =>
      rw [hkind]
      exact ⟨_, rfl, rfl, rfl⟩
  obtain ⟨c, hc, hsign⟩ := hformed.requires hbuilt _ hrequires
  have hsign : c.kind = .sign sign := of_decide_eq_true hsign
  have hchild := mem_refs_enter hr hc
  rw [← hsign] at htoken
  have hspan := ((formed_of_mem_refs hparsed Code.declaring_agrees hchild).token htoken).1
  have hbounds : r.node.start ≤ c.start ∧ c.stop ≤ r.node.stop :=
    span_of_suffix hparsed hchild (List.suffix_cons _ _)
  change c.start < c.stop at hspan
  omega

/-! ## What is looked at is in scope -/

/-- The node `decl` declares the name that `stmt` binds. It is `stmt` or a part of it, in the same
block. -/
structure DeclaredIn (env : Env) (stmt : Ref) (name : String) (decl : Ref) : Prop where
  mem : decl ∈ env.refs
  file : decl.file = stmt.file
  names : decl.declaresName name = true
  path : stmt.site.path <:+ decl.site.path
  block : decl.site.block = stmt.site.block
  parameters : decl.node.kind = .parameterList → decl = stmt

omit hparsed in
theorem declaredIn_self {stmt : Ref} (hstmt : stmt ∈ env.refs) (h : stmt.declaresName name = true) :
    env.DeclaredIn stmt name stmt :=
  ⟨hstmt, rfl, h, List.suffix_rfl, rfl, fun _ => rfl⟩

omit hparsed in
/-- A declaration of variables holds its specs. -/
theorem declaredIn_spec {stmt spec : Ref} (hstmt : stmt ∈ env.refs)
    (hkind : stmt.node.kind = .varDeclaration) (hspec : spec ∈ stmt.specs)
    (h : spec.node.names.contains name = true) : env.DeclaredIn stmt name spec := by
  obtain ⟨hfile, hspecKind, haround⟩ := around_of_mem_specs hspec
  have hskip : stmt.site.path.dropWhile (!·.kind.isBlock) = stmt.site.block :=
    List.dropWhile_cons_of_pos (by rw [show stmt.site.node.kind = _ from hkind]; rfl)
  refine ⟨mem_refs_of_mem_varSpecs hstmt hspec, hfile, ?_, ?_, ?_, ?_⟩
  · rw [Ref.declaresName, hspecKind]
    exact h
  · rcases haround with haround | ⟨l, -, haround⟩
    · rw [← haround]
      exact List.suffix_cons _ _
    · exact (List.suffix_cons l _).trans (haround ▸ List.suffix_cons _ _)
  · rcases haround with haround | ⟨l, hl, haround⟩
    · rw [Site.block, haround, hskip]
    · rw [Site.block, haround, List.dropWhile_cons_of_pos (by rw [hl]; rfl), hskip]
  · intro hparameters
    rw [hspecKind] at hparameters
    cases hparameters

omit hparsed in
/-- The head of a loop holds the short declaration that opens the loop. -/
theorem declaredIn_initializer {clause init : Ref} (hclause : clause ∈ env.refs)
    (hkind : clause.node.kind = .forClause) (hinit : clause.shortInitializer? = some init)
    (h : init.leftNames.contains (some name) = true) : env.DeclaredIn clause name init := by
  have hmem := mem_refs_of_shortInitializer? hclause hinit
  obtain ⟨hchild, hshort⟩ := Option.filter_eq_some_iff.mp hinit
  obtain ⟨s, hs, rfl⟩ := Option.map_eq_some_iff.mp hchild
  obtain ⟨c, -, rfl⟩ := Option.map_eq_some_iff.mp hs
  have hshort := of_decide_eq_true hshort
  refine ⟨hmem, rfl, ?_, List.suffix_cons _ _, ?_, ?_⟩
  · rw [Ref.declaresName, hshort]
    exact h
  · exact List.dropWhile_cons_of_pos (by rw [show clause.site.node.kind = _ from hkind]; rfl)
  · intro hparameters
    rw [hshort] at hparameters
    cases hparameters

omit hparsed in
/-- What binds a name holds a declaration of it. -/
theorem exists_declaredIn {stmt : Ref} (hstmt : stmt ∈ env.refs) (h : stmt.binds name = true) :
    ∃ decl, env.DeclaredIn stmt name decl := by
  cases Ref.binds_cases h with
  | parameter hkind hname =>
    exact ⟨stmt, declaredIn_self hstmt (by rw [Ref.declaresName, hkind]; exact hname)⟩
  | short hkind hname =>
    exact ⟨stmt, declaredIn_self hstmt (by rw [Ref.declaresName, hkind]; exact hname)⟩
  | spec hkind hspec hname => exact ⟨_, declaredIn_spec hstmt hkind hspec hname⟩
  | loop hkind hinit hname => exact ⟨_, declaredIn_initializer hstmt hkind hinit hname⟩
  | range hkind hname =>
    exact ⟨stmt, declaredIn_self hstmt (by rw [Ref.declaresName, hkind]; exact hname)⟩

/-- From the body of a function, parameters are seen beside the body only. -/
theorem role_of_parameterList {use : Ref} (huse : use ∈ env.refs)
    (hbodies : Site.inBodies use.site.node use.site.around = true) {inner outer list : Tree}
    {rest : List Tree} (hlevel : inner :: outer :: rest <:+ use.site.path)
    (hlist : list ∈ outer.children) (hkind : list.kind = .parameterList) :
    inner.role = some .body := by
  have houter : use.move ⟨outer, rest⟩ ∈ env.refs :=
    mem_refs_of_suffix huse ((List.suffix_cons _ _).trans hlevel)
  have hadmits : Code.declaring.admits outer.kind list.mark = true :=
    admits_of_mem_refs hparsed (mem_refs_enter houter hlist) (by rw [hkind]; rfl)
  have hbody := Site.inBody_of_suffix hbodies hlevel
  simp only [Code.declaring, Tree.mark, hkind, decide_eq_true_eq, List.mem_cons, List.not_mem_nil,
    or_false] at hadmits
  rcases hadmits with hfunc | hfunc | hfunc | htype | htype
  · exact of_decide_eq_true (by rwa [Site.inBody, hfunc] at hbody)
  · exact of_decide_eq_true (by rwa [Site.inBody, hfunc] at hbody)
  · exact of_decide_eq_true (by rwa [Site.inBody, hfunc] at hbody)
  · rw [Site.inBody, htype] at hbody
    cases hbody
  · rw [Site.inBody, htype] at hbody
    cases hbody

/-- What binds a name before a node around the identifier holds a declaration of it that is in
scope. Its block is that of the place where it is looked at. -/
theorem inScope_of_binds {use : Ref} (huse : use ∈ env.refs)
    (hbodies : Site.inBodies use.site.node use.site.around = true) {inner outer t : Tree}
    {rest : List Tree} (hlevel : inner :: outer :: rest <:+ use.site.path)
    (ht : t ∈ outer.children) (hlt : t.start < inner.start)
    (hbinds : (use.move ⟨t, outer :: rest⟩).binds name = true)
    (hblock : (outer :: rest).dropWhile (!·.kind.isBlock) ≠ []) :
    ∃ decl, env.InScope use name decl ∧ t :: outer :: rest <:+ decl.site.path ∧
      decl.site.block = (outer :: rest).dropWhile (!·.kind.isBlock) := by
  have houter : use.move ⟨outer, rest⟩ ∈ env.refs :=
    mem_refs_of_suffix huse ((List.suffix_cons _ _).trans hlevel)
  have hstop : t.stop ≤ inner.start :=
    stop_le_start hparsed houter ht (mem_children_of_suffix huse hlevel) hlt
  have hstart := (span_of_suffix hparsed huse hlevel).1
  have haround : (outer :: rest).dropWhile (!·.kind.isBlock) <:+ use.site.around :=
    (List.dropWhile_suffix _).trans (suffix_of_cons_suffix_cons hlevel)
  obtain ⟨decl, hdecl⟩ := exists_declaredIn (mem_refs_enter houter ht) hbinds
  have hspan := (span_of_suffix hparsed hdecl.mem hdecl.path).2
  refine ⟨decl, ⟨hdecl.mem, hdecl.file, hdecl.names, ?_, ?_, ?_⟩, hdecl.path, hdecl.block⟩
  · rw [hdecl.block]
    exact ⟨hblock, haround⟩
  · change _ ≤ t.stop at hspan
    omega
  · intro hkind
    obtain rfl := hdecl.parameters hkind
    exact ⟨inner, role_of_parameterList hparsed huse hbodies hlevel ht hkind, hlevel⟩

/-! ## What is in scope is looked at -/

/-- A node that ends before an identifier comes before the node at its side that holds the
identifier. -/
theorem exists_level {use decl : Ref} (huse : use ∈ env.refs)
    (hident : use.node.kind = .identifier) (hdecl : decl ∈ env.refs)
    (hbefore : decl.node.stop ≤ use.node.start) {t outer : Tree} {rest : List Tree}
    (haround : outer :: rest <:+ use.site.around)
    (ht : t :: outer :: rest <:+ decl.site.path)
    (hbinds : (use.move ⟨t, outer :: rest⟩).binds name = true)
    (hapart : ¬ t :: outer :: rest <:+ use.site.path) :
    ∃ inner, inner :: outer :: rest <:+ use.site.path ∧ t.start < inner.start := by
  obtain ⟨inner, hlevel⟩ := exists_cons_suffix use.site.node haround
  refine ⟨inner, hlevel, ?_⟩
  have hinner := mem_children_of_suffix huse hlevel
  have hchild := mem_children_of_suffix hdecl ht
  have houter : use.move ⟨outer, rest⟩ ∈ env.refs :=
    mem_refs_of_suffix huse ((List.suffix_cons _ _).trans hlevel)
  have hne : t ≠ inner := by
    rintro rfl
    exact hapart hlevel
  have hspan := start_lt_stop_of_binds hparsed (mem_refs_enter houter hchild) hbinds
  change t.start < t.stop at hspan
  obtain ⟨src, hlaid⟩ := laid_of_mem_refs hparsed houter
  rcases hlaid.row.apart_of_ne hchild hinner hne with h | h
  · omega
  · -- otherwise the identifier would come first
    have huseSpan := ((formed_of_mem_refs hparsed Code.declaring_agrees huse).token
      (by rw [hident]; rfl)).1
    have huseInner := (span_of_suffix hparsed huse hlevel).2
    have hdeclSpan := start_le_stop_of_mem_refs hparsed hdecl
    have hdeclInner := (span_of_suffix hparsed hdecl ht).1
    omega

/-- What is in scope is not around the identifier. -/
theorem InScope.apart {use decl : Ref} (h : env.InScope use name decl) (huse : use ∈ env.refs)
    (hident : use.node.kind = .identifier) : ¬ decl.site.path <:+ use.site.path := by
  intro hsuffix
  have huseSpan := ((formed_of_mem_refs hparsed Code.declaring_agrees huse).token
    (by rw [hident]; rfl)).1
  have hspan := (span_of_suffix hparsed huse hsuffix).2
  have := h.before
  unfold Ref.node at *
  omega

/-- The place before a node around the identifier where a declaration in scope is looked at: `t`
is it, or the statement or the clause that it is a part of. -/
structure SeenAt (env : Env) (use : Ref) (name : String) (decl : Ref) (inner t outer : Tree)
    (rest : List Tree) : Prop where
  level : inner :: outer :: rest <:+ use.site.path
  child : t ∈ outer.children
  before : t.start < inner.start
  binds : (use.move ⟨t, outer :: rest⟩).binds name = true
  holds : t :: outer :: rest <:+ decl.site.path
  block : decl.site.block = (outer :: rest).dropWhile (!·.kind.isBlock)
  same : ∀ o, env.bindingIn o (use.move ⟨t, outer :: rest⟩) name =
    env.bindingIn o decl.statement name
  script : env.bindScript (use.move ⟨t, outer :: rest⟩) name = env.bindScript decl.statement name

omit hparsed in
theorem eq_move {use decl : Ref} (hfile : decl.file = use.file) {around : List Tree}
    (haround : decl.site.around = around) : use.move ⟨decl.node, around⟩ = decl := by
  obtain ⟨file, node, around'⟩ := decl
  cases hfile
  cases haround
  rfl

/-- A declaration is looked at if the node it stands in is around the identifier. -/
theorem InScope.seenAt_of_around {use decl : Ref} (h : env.InScope use name decl)
    (huse : use ∈ env.refs) (hident : use.node.kind = .identifier) {outer : Tree}
    {rest : List Tree} (haround : decl.site.around = outer :: rest)
    (hlevel : outer :: rest <:+ use.site.around) (hbinds : decl.binds name = true)
    (hkind : decl.node.kind ≠ .varSpec) :
    ∃ inner t outer rest, SeenAt env use name decl inner t outer rest := by
  have heq := eq_move h.file haround
  have hpath : decl.site.path = decl.node :: outer :: rest := by rw [Site.path, haround]; rfl
  have hsuffix : decl.node :: outer :: rest <:+ decl.site.path := hpath ▸ List.suffix_rfl
  obtain ⟨inner, hinner, hlt⟩ := exists_level hparsed huse hident h.mem h.before hlevel hsuffix
    (heq ▸ hbinds) (hpath ▸ h.apart hparsed huse hident)
  refine ⟨inner, decl.node, outer, rest, hinner, mem_children_of_suffix h.mem hsuffix, hlt,
    heq ▸ hbinds, hsuffix, ?_, fun o => ?_, ?_⟩
  · rw [Site.block, haround]
  · rw [heq, Ref.statement, if_neg hkind]
  · rw [heq, Ref.statement, if_neg hkind]

omit hparsed in
/-- What is around the identifier and is not an identifier is around it properly. -/
theorem suffix_around_of_suffix_path {use : Ref} (hident : use.node.kind = .identifier) {t : Tree}
    {rest : List Tree} (hkind : t.kind ≠ .identifier) (h : t :: rest <:+ use.site.path) :
    t :: rest <:+ use.site.around := by
  rcases List.suffix_cons_iff.mp h with heq | h
  · rw [(List.cons.inj heq).1] at hkind
    exact absurd hident hkind
  · exact h

/-- The variables of a loop are looked at in its clause and in its body. -/
theorem InScope.seenAt_of_forClause {use decl : Ref} (h : env.InScope use name decl)
    (huse : use ∈ env.refs) (hident : use.node.kind = .identifier)
    (hkind : decl.node.kind = .shortVarDeclaration) (hnames : decl.leftNames.contains (some name))
    {clause : Tree} {rest : List Tree} (haround : decl.site.around = clause :: rest)
    (hclause : clause.kind = .forClause)
    (hinit : clause.child? .initializer = some decl.node) :
    ∃ inner t outer rest, SeenAt env use name decl inner t outer rest := by
  have hne : decl.node.kind ≠ .varSpec := by rw [hkind]; decide
  have hbinds : decl.binds name = true := by
    rw [Ref.binds, hkind]
    exact hnames
  have hskip : (clause :: rest).dropWhile (!·.kind.isBlock) = rest.dropWhile (!·.kind.isBlock) :=
    List.dropWhile_cons_of_pos (by rw [hclause]; rfl)
  obtain ⟨hblock, hscope⟩ := h.block
  rw [Site.block, haround, hskip] at hblock hscope
  by_cases hinside : clause :: rest <:+ use.site.around
  · exact h.seenAt_of_around hparsed huse hident haround hinside hbinds hne
  · -- outside its clause, the loop itself is around the identifier
    cases rest with
    | nil => exact absurd rfl hblock
    | cons loop rest =>
      have hsuffix : clause :: loop :: rest <:+ decl.site.path := by
        rw [Site.path, haround]
        exact List.suffix_cons _ _
      have hloop : loop.kind = .forStatement := by
        have hadmits := admits_of_mem_refs hparsed (mem_refs_of_suffix h.mem hsuffix)
          (by rw [hclause]; rfl)
        simpa [Code.declaring, Tree.mark, hclause] using hadmits
      rw [List.dropWhile_cons_of_neg (by rw [hloop]; decide)] at hscope
      have hclause' : (use.move ⟨clause, loop :: rest⟩).node.kind = .forClause := hclause
      have hshort : (use.move ⟨clause, loop :: rest⟩).shortInitializer? = some decl := by
        have heq : use.move (Site.enter ⟨clause, loop :: rest⟩ decl.node) = decl :=
          eq_move h.file haround
        have hchild : (use.move ⟨clause, loop :: rest⟩).child? .initializer = some decl := by
          change ((clause.child? .initializer).map _).map _ = _
          rw [hinit]
          exact congrArg some heq
        rw [Ref.shortInitializer?, hchild]
        exact Option.filter_some_pos (decide_eq_true hkind)
      have hbinds' : (use.move ⟨clause, loop :: rest⟩).binds name = true := by
        rw [Ref.binds, hclause']
        dsimp only
        rw [hshort]
        exact hnames
      obtain ⟨inner, hinner, hlt⟩ := exists_level hparsed huse hident h.mem h.before hscope hsuffix
        hbinds' fun happ => hinside
          (suffix_around_of_suffix_path hident (by rw [hclause]; decide) happ)
      refine ⟨inner, clause, loop, rest, hinner, mem_children_of_suffix h.mem hsuffix, hlt,
        hbinds', hsuffix, ?_, fun o => ?_, ?_⟩
      · rw [Site.block, haround, hskip]
      · rw [bindingIn_forClause hclause', hshort, Ref.statement, if_neg hne, bindingIn, hkind]
      · rw [bindScript, hclause', hshort, Ref.statement, if_neg hne, bindScript, hkind]

/-- A spec stands in a declaration of variables or in the group of one. -/
theorem around_of_varSpec {decl : Ref} (hmem : decl ∈ env.refs)
    (hkind : decl.node.kind = .varSpec) (hblock : decl.site.block ≠ []) :
    ∃ stmt rest, stmt.kind = .varDeclaration ∧ (decl.site.around = stmt :: rest ∨
      ∃ l : Tree, l.kind = .varSpecList ∧ decl.site.around = l :: stmt :: rest) := by
  obtain ⟨file, node, around⟩ := decl
  change node.kind = _ at hkind
  cases around with
  | nil => exact absurd rfl hblock
  | cons outer rest =>
    have hadmits := admits_of_mem_refs hparsed hmem (by rw [hkind]; rfl)
    simp only [Code.declaring, Tree.mark, hkind, decide_eq_true_eq, List.mem_cons,
      List.not_mem_nil, or_false] at hadmits
    rcases hadmits with houter | houter
    · exact ⟨outer, rest, houter, .inl rfl⟩
    · cases rest with
      | nil =>
        refine absurd ?_ hblock
        change [outer].dropWhile _ = []
        rw [List.dropWhile_cons_of_pos (by rw [houter]; rfl), List.dropWhile_nil]
      | cons stmt rest =>
        have hadmits := admits_of_mem_refs hparsed (mem_refs_outer hmem) (by rw [houter]; rfl)
        simp only [Code.declaring, Tree.mark, houter, decide_eq_true_eq] at hadmits
        exact ⟨stmt, rest, hadmits, .inr ⟨outer, houter, rfl⟩⟩

/-- The variables of a declaration are looked at after it, if it stands in a block directly. -/
theorem InScope.seenAt_of_varSpec {use decl : Ref} (h : env.InScope use name decl)
    (huse : use ∈ env.refs) (hident : use.node.kind = .identifier)
    (hkind : decl.node.kind = .varSpec) (hnames : decl.node.names.contains name = true)
    (hlabel : ∀ t ∈ decl.site.around.takeWhile (!·.kind.isBlock), t.kind ≠ .labeledStatement)
    (hgroup : ¬ decl.statement.site.path <:+ use.site.around) :
    ∃ inner t outer rest, SeenAt env use name decl inner t outer rest := by
  obtain ⟨hblock, hscope⟩ := h.block
  obtain ⟨stmt, rest, hstmt, haround⟩ := around_of_varSpec hparsed h.mem hkind hblock
  have hsuffix : stmt :: rest <:+ decl.site.path := by
    rcases haround with haround | ⟨l, _, haround⟩
    · rw [Site.path, haround]
      exact List.suffix_cons _ _
    · rw [Site.path, haround]
      exact (List.suffix_cons _ _).trans (List.suffix_cons _ _)
  have hskip : decl.site.block = rest.dropWhile (!·.kind.isBlock) := by
    rcases haround with haround | ⟨l, hl, haround⟩
    · rw [Site.block, haround, List.dropWhile_cons_of_pos (by rw [hstmt]; rfl)]
    · rw [Site.block, haround, List.dropWhile_cons_of_pos (by rw [hl]; rfl),
        List.dropWhile_cons_of_pos (by rw [hstmt]; rfl)]
  have hstatement : decl.statement = use.move ⟨stmt, rest⟩ := by
    have hfile : decl.move ⟨stmt, rest⟩ = use.move ⟨stmt, rest⟩ := by rw [Ref.move, h.file]; rfl
    rw [Ref.statement, if_pos hkind]
    rcases haround with haround | ⟨l, hl, haround⟩
    · rw [haround, List.dropWhile_cons_of_neg (by simp [hstmt])]
      exact hfile
    · rw [haround, List.dropWhile_cons_of_pos (by simp [hl]),
        List.dropWhile_cons_of_neg (by simp [hstmt])]
      exact hfile
  rw [hstatement] at hgroup
  rw [hskip] at hblock hscope
  cases rest with
  | nil => exact absurd rfl hblock
  | cons outer rest =>
    have houter : outer.kind = .statementList := by
      have hstmtMem := mem_refs_of_suffix h.mem hsuffix
      have hadmits := admits_of_mem_refs hparsed hstmtMem (by rw [hstmt]; rfl)
      simp only [Code.declaring, Tree.mark, hstmt, decide_eq_true_eq, List.mem_cons,
        List.not_mem_nil, or_false] at hadmits
      rcases hadmits with houter | houter | houter
      · exact houter
      · refine absurd houter (hlabel outer ?_)
        rcases haround with haround | ⟨l, hl, haround⟩
        · simp [haround, hstmt, houter, Code.Kind.isBlock]
        · simp [haround, hl, hstmt, houter, Code.Kind.isBlock]
      · have hrest := around_of_sourceFile hparsed (mem_refs_outer hstmtMem) houter
        rw [hrest, List.dropWhile_cons_of_pos (by rw [houter]; rfl)] at hblock
        exact absurd rfl hblock
    rw [List.dropWhile_cons_of_neg (by rw [houter]; decide)] at hscope
    have hbinds : (use.move ⟨stmt, outer :: rest⟩).binds name = true := by
      have hspec := mem_specs_of_around h.mem hkind haround
      rw [Ref.binds, show (use.move ⟨stmt, outer :: rest⟩).node.kind = _ from hstmt]
      refine List.any_eq_true.mpr ⟨decl, ?_, hnames⟩
      rwa [Ref.move, h.file] at hspec
    have hne : stmt.kind ≠ .identifier := by rw [hstmt]; decide
    obtain ⟨inner, hinner, hlt⟩ := exists_level hparsed huse hident h.mem h.before hscope hsuffix
      hbinds fun happ => hgroup (suffix_around_of_suffix_path hident hne happ)
    exact ⟨inner, stmt, outer, rest, hinner, mem_children_of_suffix h.mem hsuffix, hlt, hbinds,
      hsuffix, hskip, fun o => by rw [hstatement], by rw [hstatement]⟩

omit hparsed in
/-- What stands in a block directly is in scope in that block. -/
theorem InScope.suffix_of_isBlock {use decl : Ref} (h : env.InScope use name decl) {outer : Tree}
    {rest : List Tree} (haround : decl.site.around = outer :: rest)
    (houter : outer.kind.isBlock = true) : outer :: rest <:+ use.site.around := by
  have hscope := h.block.2
  rwa [Site.block, haround, List.dropWhile_cons_of_neg (by rw [houter]; decide)] at hscope

/-- The parameters of a function are looked at from its body. -/
theorem InScope.seenAt_of_parameterList {use decl : Ref} (h : env.InScope use name decl)
    (huse : use ∈ env.refs) (hident : use.node.kind = .identifier) {outer : Tree}
    {rest : List Tree} (haround : decl.site.around = outer :: rest)
    (hkind : decl.node.kind = .parameterList)
    (hname : decl.node.paramDecls.any (·.names.contains name) = true) :
    ∃ inner t outer rest, SeenAt env use name decl inner t outer rest := by
  obtain ⟨body, -, hbody⟩ := h.body hkind
  rw [haround] at hbody
  refine h.seenAt_of_around hparsed huse hident haround (suffix_of_cons_suffix_cons hbody) ?_
    (by rw [hkind]; decide)
  rw [Ref.binds, hkind]
  exact hname

/-- A short declaration is looked at from its block, and from its loop if it opens one. -/
theorem InScope.seenAt_of_short {use decl : Ref} (h : env.InScope use name decl)
    (huse : use ∈ env.refs) (hident : use.node.kind = .identifier) {outer : Tree}
    {rest : List Tree} (haround : decl.site.around = outer :: rest)
    (hkind : decl.node.kind = .shortVarDeclaration)
    (hname : decl.leftNames.contains (some name) = true)
    (hlabel : outer.kind ≠ .labeledStatement) (hfile : outer.kind ≠ .sourceFile)
    (hloops : env.DeclaresFirst) :
    ∃ inner t outer rest, SeenAt env use name decl inner t outer rest := by
  have hpath : decl.node :: outer :: rest <:+ decl.site.path := haround ▸ List.suffix_rfl
  by_cases hloop : outer.kind = .forClause
  · have hclause := mem_refs_of_suffix h.mem ((List.suffix_cons _ _).trans hpath)
    exact h.seenAt_of_forClause hparsed huse hident hkind hname haround hloop
      (hloops _ hclause hloop decl.node (mem_children_of_suffix h.mem hpath) hkind)
  · have hadmits : Code.declaring.admits outer.kind decl.node.mark = true :=
      admits_of_mem_refs hparsed (mem_refs_of_suffix h.mem hpath) (by rw [hkind]; rfl)
    simp only [Code.declaring, Tree.mark, hkind, decide_eq_true_eq, List.mem_cons,
      List.not_mem_nil, or_false] at hadmits
    have houter : outer.kind.isBlock = true := by
      rcases hadmits with hk | hk | hk | hk | hk | hk | hk
      · rw [hk]; rfl
      · exact absurd hk hlabel
      · rw [hk]; rfl
      · rw [hk]; rfl
      · rw [hk]; rfl
      · exact absurd hk hloop
      · exact absurd hk hfile
    refine h.seenAt_of_around hparsed huse hident haround (h.suffix_of_isBlock haround houter) ?_
      (by rw [hkind]; decide)
    rw [Ref.binds, hkind]
    exact hname

/-- The variables of a range clause are looked at from its loop. -/
theorem InScope.seenAt_of_rangeClause {use decl : Ref} (h : env.InScope use name decl)
    (huse : use ∈ env.refs) (hident : use.node.kind = .identifier) {outer : Tree}
    {rest : List Tree} (haround : decl.site.around = outer :: rest)
    (hkind : decl.node.kind = .rangeClause)
    (hname : (decl.declares && decl.leftNames.contains (some name)) = true) :
    ∃ inner t outer rest, SeenAt env use name decl inner t outer rest := by
  have hpath : decl.node :: outer :: rest <:+ decl.site.path := haround ▸ List.suffix_rfl
  have hadmits : Code.declaring.admits outer.kind decl.node.mark = true :=
    admits_of_mem_refs hparsed (mem_refs_of_suffix h.mem hpath) (by rw [hkind]; rfl)
  simp only [Code.declaring, Tree.mark, hkind, decide_eq_true_eq] at hadmits
  have hinside := h.suffix_of_isBlock haround (by rw [hadmits]; rfl)
  refine h.seenAt_of_around hparsed huse hident haround hinside ?_ (by rw [hkind]; decide)
  rw [Ref.binds, hkind]
  exact hname

/-- What is in scope binds the name in a place that is looked at, unless it is overlooked. -/
theorem InScope.exists_seenAt {use decl : Ref} (h : env.InScope use name decl)
    (hseen : ¬ Overlooked use (.node decl)) (huse : use ∈ env.refs)
    (hident : use.node.kind = .identifier)
    (hloops : env.DeclaresFirst) :
    ∃ inner t outer rest, SeenAt env use name decl inner t outer rest := by
  simp only [Overlooked, not_or, not_exists, not_and] at hseen
  obtain ⟨hreceive, hlabel, hgroup⟩ := hseen
  have hblock := h.block.1
  cases haround : decl.site.around with
  | nil =>
    rw [Site.block, haround] at hblock
    exact absurd rfl hblock
  | cons outer rest =>
    have houterMem : decl.move ⟨outer, rest⟩ ∈ env.refs := by
      refine mem_refs_of_suffix h.mem ((List.suffix_cons decl.node _).trans ?_)
      exact haround ▸ List.suffix_rfl
    have hnotLabel : outer.kind ≠ .labeledStatement := by
      intro hkind
      refine hlabel outer ?_ hkind
      rw [haround, List.takeWhile_cons_of_pos (by rw [hkind]; rfl)]
      exact List.mem_cons_self
    have hnotFile : outer.kind ≠ .sourceFile := by
      intro hkind
      have hrest : rest = [] := around_of_sourceFile hparsed houterMem hkind
      rw [Site.block, haround, hrest, List.dropWhile_cons_of_pos (by rw [hkind]; rfl)] at hblock
      exact hblock rfl
    cases Ref.declares_cases h.names with
    | parameter hkind hname =>
      exact h.seenAt_of_parameterList hparsed huse hident haround hkind hname
    | short hkind hname =>
      exact h.seenAt_of_short hparsed huse hident haround hkind hname hnotLabel hnotFile hloops
    | spec hkind hname =>
      exact h.seenAt_of_varSpec hparsed huse hident hkind hname hlabel (hgroup hkind)
    | range hkind hname =>
      exact h.seenAt_of_rangeClause hparsed huse hident haround hkind hname
    | receive hkind => exact absurd hkind hreceive

end Parsed

end Env

end CtxThread

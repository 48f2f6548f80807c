import CtxThread.Proofs.Code.Walk
import CtxThread.Types.Resolve

/-!
# The nodes of a package

The nodes that questions about types lead to are all nodes of the package: children of a node, the
nodes around it, what stands before it, and the declarations in the index.

## Main definitions

- `Env.refs`: all nodes of a package, with their places
- `Env.callRefs`: the calls among them

## Main statements

- `Env.mem_refs_of_child?` and others: from a node of the package only nodes of it are reached
- `Env.length_refs`, `Env.length_callRefs`: how many there are
-/

namespace CtxThread

open Code (Tree Site)

namespace Code.Site

/-- A site of a walk is its start or the site of a child of another. -/
theorem eq_or_mem_children {a s : Site} (h : s ∈ a.walk) :
    s = a ∨ ∃ p ∈ a.walk, s ∈ p.children := by
  induction a using Site.induction with
  | node a ih =>
    rw [walk_eq, List.mem_cons] at h
    rcases h with rfl | h
    · exact .inl rfl
    · obtain ⟨c, hc, hs⟩ := List.mem_flatMap.mp h
      have hca : c ∈ a.walk := mem_walk_of_mem_children (mem_walk_self a) hc
      rcases ih c hc hs with rfl | ⟨p, hp, hsp⟩
      · exact .inr ⟨a, mem_walk_self a, hc⟩
      · exact .inr ⟨p, mem_walk_trans hca hp, hsp⟩

/-- The node around a site of a walk over a whole tree is visited too. -/
theorem mem_walk_outer {root inner outer : Tree} {around : List Tree}
    (h : ⟨inner, outer :: around⟩ ∈ (Site.root root).walk) :
    ⟨outer, around⟩ ∈ (Site.root root).walk := by
  rcases eq_or_mem_children h with heq | ⟨p, hp, hs⟩
  · cases heq
  · obtain ⟨t, _, ht⟩ := List.mem_map.mp hs
    cases ht
    exact hp

end Code.Site

namespace Env

variable {env : Env}

/-- The nodes of one file of a package. -/
def fileRefs (f : SourceFile × Nat) : List Ref :=
  (Site.root f.1.root).walk.map fun s => ⟨f.2, s⟩

/-- The nodes of a package. -/
def refs (env : Env) : List Ref := env.files.zipIdx.flatMap fileRefs

/-- The calls of a package. -/
def callRefs (env : Env) : List Ref := env.refs.filter (·.node.kind = .callExpression)

theorem mem_refs {r : Ref} :
    r ∈ env.refs ↔ ∃ f, env.files[r.file]? = some f ∧ r.site ∈ (Site.root f.root).walk := by
  simp only [refs, fileRefs, List.mem_flatMap, List.mem_map, Prod.exists,
    List.mk_mem_zipIdx_iff_getElem?]
  constructor
  · rintro ⟨f, i, hf, s, hs, rfl⟩
    exact ⟨f, hf, hs⟩
  · rintro ⟨f, hf, hs⟩
    exact ⟨f, r.file, hf, r.site, hs, rfl⟩

/-- What is reached from a site within its file. -/
theorem mem_refs_move {r : Ref} (hr : r ∈ env.refs) {s : Site}
    (hs : ∀ root, r.site ∈ (Site.root root).walk → s ∈ (Site.root root).walk) :
    r.move s ∈ env.refs := by
  obtain ⟨f, hf, hsite⟩ := mem_refs.mp hr
  exact mem_refs.mpr ⟨f, hf, hs f.root hsite⟩

theorem mem_refs_of_mem_children {r : Ref} (hr : r ∈ env.refs) {s : Site}
    (hs : s ∈ r.site.children) : r.move s ∈ env.refs :=
  mem_refs_move hr fun _ hsite => Site.mem_walk_of_mem_children hsite hs

theorem mem_refs_enter {r : Ref} (hr : r ∈ env.refs) {t : Tree} (ht : t ∈ r.node.children) :
    r.move (r.site.enter t) ∈ env.refs :=
  mem_refs_of_mem_children hr (List.mem_map_of_mem ht)

theorem mem_refs_of_child? {r c : Ref} (hr : r ∈ env.refs) {role : Code.Role}
    (hc : r.child? role = some c) : c ∈ env.refs := by
  obtain ⟨s, hs, rfl⟩ := Option.map_eq_some_iff.mp hc
  obtain ⟨t, ht, rfl⟩ := Option.map_eq_some_iff.mp hs
  exact mem_refs_enter hr (List.mem_of_find?_eq_some ht)

theorem mem_refs_of_firstItem? {r c : Ref} (hr : r ∈ env.refs) (hc : r.firstItem? = some c) :
    c ∈ env.refs := by
  obtain ⟨s, hs, rfl⟩ := Option.map_eq_some_iff.mp hc
  obtain ⟨t, ht, rfl⟩ := Option.map_eq_some_iff.mp hs
  exact mem_refs_enter hr (List.mem_of_find?_eq_some ht)

theorem mem_refs_outer {file : Nat} {inner outer : Tree} {around : List Tree}
    (hr : ⟨file, ⟨inner, outer :: around⟩⟩ ∈ env.refs) : ⟨file, ⟨outer, around⟩⟩ ∈ env.refs :=
  mem_refs_move hr fun _ hsite => Site.mem_walk_outer hsite

theorem mem_refs_of_mem_listItems {v : Ref} (hv : v ∈ env.refs) {e : Ref}
    (he : e ∈ v.site.listItems.map v.move) : e ∈ env.refs := by
  obtain ⟨s, hs, rfl⟩ := List.mem_map.mp he
  unfold Site.listItems at hs
  split at hs
  · exact mem_refs_of_mem_children hv (List.mem_filter.mp hs).1
  · rw [List.mem_singleton.mp hs]
    exact hv

theorem mem_refs_of_mem_varSpecs {decl : Ref} (hdecl : decl ∈ env.refs) {spec : Ref}
    (hspec : spec ∈ decl.site.varSpecs.map decl.move) : spec ∈ env.refs := by
  obtain ⟨s, hs, rfl⟩ := List.mem_map.mp hspec
  obtain ⟨c, hc, hs⟩ := List.mem_flatMap.mp hs
  have hcr := mem_refs_of_mem_children hdecl hc
  split at hs
  · rw [List.mem_singleton.mp hs]
    exact hcr
  · split at hs
    · exact mem_refs_of_mem_children hcr (List.mem_filter.mp hs).1
    · cases hs

end Env

/-! ## The index -/

namespace Index

/-- The names of package variables, with their declarations, are of the kind `P`. -/
def Globals (P : String × Ref → Prop) (i : Index) : Prop := ∀ e ∈ i.globals, P e

variable {P : String × Ref → Prop} {i : Index}

theorem globals_add (hi : i.Globals P) {file : Nat} {decl : Site}
    (hdecl : decl.node.kind = .varDeclaration →
      ∀ name ∈ decl.varSpecs.flatMap (·.node.names), P (name, ⟨file, decl⟩)) :
    (i.add file decl).Globals P := by
  unfold add
  dsimp only
  split
  · -- specs of types leave the variables as they are
    generalize decl.children.filter _ = specs
    induction specs generalizing i with
    | nil => exact hi
    | cons s specs ih =>
      rw [List.foldl_cons]
      apply ih
      split
      · exact hi
      · exact hi
  · split
    · exact hi
    · exact hi
  · split
    · split
      · exact hi
      · exact hi
    · exact hi
  · -- every name of the declaration is listed with the declaration itself
    rename_i hkind
    have hnames := hdecl hkind
    generalize decl.varSpecs.flatMap _ = names at hnames
    induction names generalizing i with
    | nil => exact hi
    | cons name names ih =>
      rw [List.foldl_cons]
      refine ih ?_ fun n hn => hnames n (List.mem_cons_of_mem name hn)
      intro e he
      rcases List.mem_cons.mp he with rfl | he
      · exact hnames name List.mem_cons_self
      · exact hi e he
  · exact hi

theorem globals_addFile (hi : i.Globals P) {file : Nat} {root : Tree}
    (hroot : ∀ s ∈ (Site.root root).children, s.node.kind = .varDeclaration →
      ∀ name ∈ s.varSpecs.flatMap (·.node.names), P (name, ⟨file, s⟩)) :
    (i.addFile file root).Globals P := by
  unfold addFile
  generalize (Site.root root).children = decls at hroot
  induction decls generalizing i with
  | nil => exact hi
  | cons decl decls ih =>
    rw [List.foldl_cons]
    apply ih (globals_add hi (hroot decl List.mem_cons_self))
    exact fun s hs => hroot s (List.mem_cons_of_mem decl hs)

theorem globals_ofFiles {files : List SourceFile}
    (h : ∀ f ∈ files.zipIdx, ∀ s ∈ (Site.root f.1.root).children,
      s.node.kind = .varDeclaration →
        ∀ name ∈ s.varSpecs.flatMap (·.node.names), P (name, ⟨f.2, s⟩)) :
    (ofFiles files).Globals P := by
  have hfold : ∀ (fs : List (SourceFile × Nat)) (i : Index), i.Globals P →
      (∀ f ∈ fs, ∀ s ∈ (Site.root f.1.root).children, s.node.kind = .varDeclaration →
        ∀ name ∈ s.varSpecs.flatMap (·.node.names), P (name, ⟨f.2, s⟩)) →
      (fs.foldl (fun i f => i.addFile f.2 f.1.root) i).Globals P := by
    intro fs
    induction fs with
    | nil => exact fun i hi _ => hi
    | cons f fs ih =>
      intro i hi hfs
      rw [List.foldl_cons]
      exact ih _ (globals_addFile hi (hfs f List.mem_cons_self))
        fun g hg => hfs g (List.mem_cons_of_mem f hg)
  exact hfold _ _ (by intro e he; cases he) h

end Index

namespace Env

/-- The declaration that the index has for a name is a declaration at the top of a file, and one
of its specs has the name. -/
theorem lookup_globals_eq_some {p : Package} {name : String} {decl : Ref}
    (h : (ofPackage p).index.globals.lookup name = some decl) :
    ∃ f, p.files[decl.file]? = some f ∧ decl.site ∈ (Site.root f.root).children ∧
      decl.node.kind = .varDeclaration ∧ name ∈ decl.site.varSpecs.flatMap (·.node.names) := by
  have hglobals : (ofPackage p).index.Globals fun e =>
      ∃ f, p.files[e.2.file]? = some f ∧ e.2.site ∈ (Site.root f.root).children ∧
        e.2.node.kind = .varDeclaration ∧ e.1 ∈ e.2.site.varSpecs.flatMap (·.node.names) := by
    apply Index.globals_ofFiles
    rintro ⟨f, i⟩ hf s hs hkind name hname
    rw [List.mk_mem_zipIdx_iff_getElem?] at hf
    exact ⟨f, hf, hs, hkind, hname⟩
  obtain ⟨before, after, heq, _⟩ := List.lookup_eq_some_iff.mp h
  apply hglobals (name, decl)
  rw [heq]
  simp

/-- The declarations that the index of a package refers to are nodes of the package. -/
theorem mem_refs_of_lookup_globals {p : Package} {name : String} {decl : Ref}
    (h : (ofPackage p).index.globals.lookup name = some decl) : decl ∈ (ofPackage p).refs := by
  obtain ⟨f, hf, hs, _⟩ := lookup_globals_eq_some h
  exact mem_refs.mpr ⟨f, hf, Site.mem_walk_of_mem_children (Site.mem_walk_self _) hs⟩

/-! ## How many there are -/

/-- Counting in one file after the other is counting in all of them. -/
theorem length_flatMap_zipIdx (files : List SourceFile) (k : Nat) (g : SourceFile × Nat → List Ref)
    (count : SourceFile → Nat) (h : ∀ f i, (g (f, i)).length = count f) :
    ((files.zipIdx k).flatMap g).length = files.foldr (fun f n => count f + n) 0 := by
  induction files generalizing k with
  | nil => rfl
  | cons f files ih =>
    rw [List.zipIdx_cons, List.flatMap_cons, List.length_append, h, ih, List.foldr_cons]

theorem length_refs (env : Env) : env.refs.length = env.nodeCount := by
  apply length_flatMap_zipIdx
  intro f i
  rw [fileRefs, List.length_map, Site.length_walk]
  rfl

theorem length_callRefs (env : Env) : env.callRefs.length = env.callCount := by
  rw [callRefs, refs, List.filter_flatMap]
  apply length_flatMap_zipIdx
  intro f i
  rw [fileRefs, Tree.allOfKind, Tree.walk, List.filter_map, List.filter_map, List.length_map,
    List.length_map]
  rfl

end Env

end CtxThread

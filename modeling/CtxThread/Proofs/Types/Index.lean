import CtxThread.Proofs.Code.Nesting
import CtxThread.Proofs.Code.Parse
import CtxThread.Proofs.Types.Spelling

/-!
# What is in the index

The index of a package lists the declarations at the top of its files, the latest first. A declared
type is a child of a declaration that stands at the top of a file, so in a parsed package two
aliases are different nodes.

## Main definitions

- `Index.typeEntries` and others: what one declaration adds to the index

## Main statements

- `Index.ofFiles_eq`: the index in terms of what each declaration adds
- `Env.mem_of_lookup_types`: where a declared type stands
- `Env.eq_of_alias_id_eq`: aliases of different names are different nodes
-/

namespace CtxThread

open Code (Tree Site Table)

namespace Index

/-- The types that a declaration at the top of a file declares. -/
def typeEntries (file : Nat) (decl : Site) : List (String × Ref) :=
  if decl.node.kind = .typeDeclaration then
    (decl.children.filter fun s => s.node.kind = .typeSpec ∨ s.node.kind = .typeAlias).filterMap
      fun s => s.node.nameText?.map fun name => (name, ⟨file, s⟩)
  else []

/-- The function that a declaration declares. -/
def funcEntries (file : Nat) (decl : Site) : List (String × Ref) :=
  if decl.node.kind = .functionDeclaration then
    (decl.node.nameText?.map fun name => (name, ⟨file, decl⟩)).toList
  else []

/-- The method that a declaration declares. -/
def methodEntries (file : Nat) (decl : Site) : List ((String × String) × Ref) :=
  if decl.node.kind = .methodDeclaration then
    (decl.node.nameText?.bind fun name =>
      (decl.node.receiverName?.filter (· ≠ "")).map fun receiver =>
        ((receiver, name), ⟨file, decl⟩)).toList
  else []

/-- The variables that a declaration declares. -/
def globalEntries (file : Nat) (decl : Site) : List (String × Ref) :=
  if decl.node.kind = .varDeclaration then
    (decl.varSpecs.flatMap (·.node.names)).map fun name => (name, ⟨file, decl⟩)
  else []

theorem foldl_types (i : Index) (file : Nat) (specs : List Site) :
    specs.foldl (fun i s =>
        match s.node.nameText? with
        | some name => { i with types := (name, ⟨file, s⟩) :: i.types }
        | none => i) i =
      { i with types := (specs.filterMap fun s => s.node.nameText?.map fun name =>
        (name, (⟨file, s⟩ : Ref))).reverse ++ i.types } := by
  induction specs generalizing i with
  | nil => rfl
  | cons s specs ih =>
    rw [List.foldl_cons, ih]
    cases hname : s.node.nameText? with
    | none => simp [hname]
    | some name => simp [hname]

theorem foldl_globals (i : Index) (r : Ref) (names : List String) :
    names.foldl (fun i name => { i with globals := (name, r) :: i.globals }) i =
      { i with globals := (names.map fun name => (name, r)).reverse ++ i.globals } := by
  induction names generalizing i with
  | nil => rfl
  | cons name names ih =>
    rw [List.foldl_cons, ih]
    simp

/-- One declaration adds its entries in front. -/
theorem add_eq (i : Index) (file : Nat) (decl : Site) :
    i.add file decl =
      ⟨(typeEntries file decl).reverse ++ i.types, (funcEntries file decl).reverse ++ i.funcs,
        (methodEntries file decl).reverse ++ i.methods,
        (globalEntries file decl).reverse ++ i.globals⟩ := by
  unfold add typeEntries funcEntries methodEntries globalEntries
  dsimp only
  split
  case h_1 hkind =>
    refine (foldl_types i file _).trans ?_
    simp [hkind]
  case h_2 hkind =>
    cases hname : decl.node.nameText? with
    | none => simp [hkind]
    | some name => simp [hkind]
  case h_3 hkind =>
    cases hname : decl.node.nameText? with
    | none => simp [hkind]
    | some name =>
      cases hreceiver : decl.node.receiverName? with
      | none => simp [hkind]
      | some receiver =>
        by_cases hempty : receiver = ""
        · simp [hkind, hempty, Option.filter]
        · simp [hkind, hempty, Option.filter]
  case h_4 hkind =>
    rw [foldl_globals]
    simp [hkind]
  case h_5 h₁ h₂ h₃ h₄ => simp [if_neg h₁, if_neg h₂, if_neg h₃, if_neg h₄]

theorem foldl_add (i : Index) (file : Nat) (decls : List Site) :
    decls.foldl (fun i decl => i.add file decl) i =
      ⟨(decls.flatMap (typeEntries file)).reverse ++ i.types,
        (decls.flatMap (funcEntries file)).reverse ++ i.funcs,
        (decls.flatMap (methodEntries file)).reverse ++ i.methods,
        (decls.flatMap (globalEntries file)).reverse ++ i.globals⟩ := by
  induction decls generalizing i with
  | nil => rfl
  | cons decl decls ih =>
    rw [List.foldl_cons, ih, add_eq]
    simp

/-- The entries that the declarations at the top of all files add, in their order. -/
def allEntries {α : Type} (entries : Nat → Site → List α) (files : List (SourceFile × Nat)) :
    List α :=
  files.flatMap fun f => (Site.root f.1.root).children.flatMap (entries f.2)

theorem foldl_addFile (i : Index) (files : List (SourceFile × Nat)) :
    files.foldl (fun i f => i.addFile f.2 f.1.root) i =
      ⟨(allEntries typeEntries files).reverse ++ i.types,
        (allEntries funcEntries files).reverse ++ i.funcs,
        (allEntries methodEntries files).reverse ++ i.methods,
        (allEntries globalEntries files).reverse ++ i.globals⟩ := by
  induction files generalizing i with
  | nil => rfl
  | cons f files ih =>
    rw [List.foldl_cons, ih, addFile, foldl_add]
    simp [allEntries]

/-- The index lists the entries of all declarations, the latest first. -/
theorem ofFiles_eq (files : List SourceFile) :
    ofFiles files =
      ⟨(allEntries typeEntries files.zipIdx).reverse, (allEntries funcEntries files.zipIdx).reverse,
        (allEntries methodEntries files.zipIdx).reverse,
        (allEntries globalEntries files.zipIdx).reverse⟩ := by
  rw [ofFiles, foldl_addFile]
  simp

end Index

namespace Env

/-- A declared type is a child of a declaration at the top of a file, and has its name. -/
theorem mem_of_lookup_types {p : Package} {name : String} {r : Ref}
    (h : (ofPackage p).index.types.lookup name = some r) :
    ∃ f decl, p.files[r.file]? = some f ∧ decl ∈ f.root.children ∧ r.node ∈ decl.children ∧
      r.node.nameText? = some name := by
  have hmem := mem_of_lookup_eq_some h
  change (name, r) ∈ (Index.ofFiles p.files).types at hmem
  rw [Index.ofFiles_eq, List.mem_reverse] at hmem
  obtain ⟨⟨f, i⟩, hf, hmem⟩ := List.mem_flatMap.mp hmem
  obtain ⟨s, hs, hmem⟩ := List.mem_flatMap.mp hmem
  obtain ⟨decl, hdecl, rfl⟩ := List.mem_map.mp hs
  unfold Index.typeEntries at hmem
  split at hmem
  · obtain ⟨spec, hspec, hname⟩ := List.mem_filterMap.mp hmem
    obtain ⟨t, ht, rfl⟩ := List.mem_map.mp (List.mem_filter.mp hspec).1
    obtain ⟨n, hn, heq⟩ := Option.map_eq_some_iff.mp hname
    cases heq
    exact ⟨f, decl, List.mk_mem_zipIdx_iff_getElem?.mp hf, hdecl, ht, hn⟩
  · cases hmem

end Env

/-! ## Aliases are told apart -/

/-- The sign that a node of a kind is sure to have, so that it is not empty. -/
def Code.aliasing : Table where
  admits _ _ := true
  requires
    | .typeAlias => some fun m => m.kind = .sign .assign
    | _ => none

theorem Code.aliasing_agrees : Code.Grammar.Agrees Code.aliasing :=
  ⟨by decide +kernel, by decide, rfl⟩

/-- An alias is not empty. -/
theorem Code.start_lt_stop_of_alias {src : Bytes} {root t : Tree} (h : Code.parse? src = some root)
    (ht : t ∈ root.walk) (hkind : t.kind = .typeAlias) : t.start < t.stop := by
  have hformed := Code.parse?_formed Code.aliasing_agrees h ht
  obtain ⟨c, hc, hmark⟩ := hformed.requires (by rw [hkind]; rfl) _ (by rw [hkind]; rfl)
  have hsign : c.kind = .sign .assign := of_decide_eq_true hmark
  have hcwalk : c ∈ root.walk :=
    Tree.mem_walk_trans ht (Tree.mem_walk_iff.mpr (.inr ⟨c, hc, c.mem_walk_self⟩))
  have hspan := ((Code.parse?_formed Code.aliasing_agrees h hcwalk).token (by rw [hsign]; rfl)).1
  have hbounds := ((Code.parse?_laid h).of_mem_walk ht).row.bounds_of_mem hc
  omega

/-- A node that is not empty has no other place in a row of children. -/
theorem Code.Row.eq_of_overlap {lo hi : Nat} {ts : List Tree} (h : Code.Row lo ts hi) {a b : Tree}
    (ha : a ∈ ts) (hb : b ∈ ts) {start stop : Nat} (hspan : start < stop)
    (hstart : a.start ≤ start ∧ b.start ≤ start) (hstop : stop ≤ a.stop ∧ stop ≤ b.stop) :
    a = b := by
  by_contra hne
  have := h.apart_of_ne ha hb hne
  omega

/-- In a parsed package, aliases of different names are different nodes. -/
theorem Env.eq_of_alias_id_eq {p : Package}
    (hparsed : ∀ f ∈ p.files, Code.parse? f.src = some f.root) {n n' : String} {r r' : Ref}
    (hr : (ofPackage p).index.types.lookup n = some r)
    (hr' : (ofPackage p).index.types.lookup n' = some r') (hkind : r.node.kind = .typeAlias)
    (hid : r.id = r'.id) : n = n' := by
  obtain ⟨f, decl, hf, hdecl, hmem, hname⟩ := mem_of_lookup_types hr
  obtain ⟨f', decl', hf', hdecl', hmem', hname'⟩ := mem_of_lookup_types hr'
  obtain ⟨hfile, hkey⟩ := NodeId.mk.inj hid
  obtain ⟨hstart, hstop, _⟩ := Tree.Key.mk.inj hkey
  rw [← hfile, hf] at hf'
  obtain rfl := Option.some.inj hf'
  have hparse := hparsed f (List.mem_of_getElem? hf)
  have hlaid := Code.parse?_laid hparse
  have hwalk : ∀ {d t : Tree}, d ∈ f.root.children → t ∈ d.children → t ∈ f.root.walk := by
    intro d t hd ht
    refine Tree.mem_walk_iff.mpr (.inr ⟨d, hd, ?_⟩)
    exact Tree.mem_walk_iff.mpr (.inr ⟨t, ht, t.mem_walk_self⟩)
  have hspan := Code.start_lt_stop_of_alias hparse (hwalk hdecl hmem) hkind
  have hrow := (hlaid.of_mem_children hdecl).row
  have hbounds := hrow.bounds_of_mem hmem
  have hbounds' := (hlaid.of_mem_children hdecl').row.bounds_of_mem hmem'
  -- both stand in the same declaration, and there in the same place
  obtain rfl : decl = decl' :=
    hlaid.row.eq_of_overlap hdecl hdecl' hspan (by omega) (by omega)
  have hnode : r.node = r'.node :=
    hrow.eq_of_overlap hmem hmem' hspan (by omega) (by omega)
  rw [hnode, hname'] at hname
  exact (Option.some.inj hname).symm

end CtxThread

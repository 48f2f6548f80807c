import CtxThread.Proofs.Types.Alias
import CtxThread.Proofs.Types.Twin

/-!
# What is declared when a file is exchanged

When a file of a package is exchanged for one that tells the same, every name is declared in the
same file as before, by a declaration that says the same. So written types mean the same, structs
have the same fields and functions and methods the same results.

## Main statements

- `Package.Exchanged.importPath?_eq`: the same packages are imported
- `Package.Exchanged.rel_types` and others: what the index has for a name
- `Package.Exchanged.typeExpr_eq`: what a written type means
- `Package.Exchanged.fieldType_eq`, `Package.Exchanged.declaredResult_eq`: fields and results
-/

namespace CtxThread

open Code (Tree Site Role Kind)

/-! ## Imports -/

namespace Import

@[simp] theorem path?_bare (spec : Tree) : path? spec.bare = path? spec := by
  simp [path?, Function.comp_def]

@[simp] theorem boundName?_bare (spec : Tree) : boundName? spec.bare = boundName? spec := by
  cases h : spec.child? .name with
  | none => simp [boundName?, h]
  | some given => simp [boundName?, h]

end Import

namespace SourceFile

variable {f f' : SourceFile}

/-- Files that tell the same have the same import specs, up to positions. -/
theorem Alike.forall₂_importSpecs (h : f.Alike f') :
    List.Forall₂ (fun t t' => t.bare = t'.bare) f.importSpecs f'.importSpecs := by
  have hfilter : ∀ f : SourceFile, f.root.children.filter (·.kind = .importDeclaration) =
      f.root.declarations.filter (·.kind = .importDeclaration) := by
    intro f
    rw [Tree.declarations, List.filter_filter]
    refine List.filter_congr fun t _ => ?_
    by_cases hkind : t.kind = .importDeclaration
    · simp [hkind, Kind.isTelling]
    · simp [hkind]
  have hdecls := List.rel_filter (p := fun t : Tree => decide (t.kind = .importDeclaration))
    (q := fun t : Tree => decide (t.kind = .importDeclaration))
    (fun a b hab => by simp only [hab.kind]) h
  have himports := (List.forall₂_and_left _ _).mpr ⟨fun t ht => (List.mem_filter.mp ht).2, hdecls⟩
  rw [importSpecs, importSpecs, hfilter f, hfilter f']
  refine List.rel_flatMap himports ?_
  rintro a b ⟨hkind, halike⟩
  have hbare : a.bare = b.bare := halike.bare (by rw [of_decide_eq_true hkind]; rfl)
  rw [Tree.forall₂_bare_iff, ← Tree.allOfKind_bare, hbare, Tree.allOfKind_bare]

theorem Alike.imports_eq (h : f.Alike f') : f.imports = f'.imports := by
  refine List.rel_foldl (P := Eq) ?_ rfl h.forall₂_importSpecs
  rintro table _ rfl a b hab
  dsimp only
  rw [← Import.boundName?_bare, ← Import.path?_bare, hab, Import.boundName?_bare,
    Import.path?_bare]

end SourceFile

/-! ## Written types -/

@[simp] theorem TypeExpr.ofTree_bare (t : Tree) : ofTree t.bare = ofTree t := by
  induction t using Tree.induction with
  | node t ih =>
    have hitem : ofTree? (t.bare.firstItem?) = ofTree? t.firstItem? := by
      rw [Tree.firstItem?_bare]
      cases hc : t.firstItem? with
      | none => rfl
      | some c => exact ih c (List.mem_of_find?_eq_some hc)
    have hchild : ∀ r, ofTree? (t.bare.child? r) = ofTree? (t.child? r) := by
      intro r
      rw [Tree.child?_bare]
      cases hc : t.child? r with
      | none => rfl
      | some c => exact ih c (List.mem_of_find?_eq_some hc)
    rw [ofTree_eq, ofTree_eq t, Tree.kind_bare, hitem, hchild, hchild, Tree.text_bare,
      Tree.child?_bare, Tree.child?_bare]
    cases t.child? .package with
    | none => rfl
    | some p =>
      cases t.child? .name with
      | none => rfl
      | some n => simp only [Option.map_some, Tree.text_bare]

theorem TypeExpr.ofTree_congr {t t' : Tree} (h : t.bare = t'.bare) : ofTree t = ofTree t' := by
  rw [← ofTree_bare, h, ofTree_bare]

namespace Env

variable (env : Env) (i : Nat) (t : Tree)

@[simp] theorem typeExpr_bare : env.typeExpr i t.bare = env.typeExpr i t := by simp [typeExpr]

@[simp] theorem typeOperand_bare : env.typeOperand i t.bare = env.typeOperand i t := by
  rw [typeOperand, typeOperand, Tree.kind_bare, Tree.text_bare, Tree.child?_bare, Tree.child?_bare,
    typeExpr_bare]
  cases t.child? .operand with
  | none => rfl
  | some operand =>
    cases t.child? .field with
    | none => rfl
    | some field => simp only [Option.map_some, Tree.kind_bare, Tree.text_bare]

end Env

section Lists

variable {α β γ : Type} {R : α → β → Prop} {a : Option α} {b : Option β}

theorem rel_cases (h : Option.Rel R a b) :
    a = none ∧ b = none ∨ ∃ x y, a = some x ∧ b = some y ∧ R x y := by
  cases h with
  | none => exact .inl ⟨rfl, rfl⟩
  | some hab => exact .inr ⟨_, _, rfl, rfl, hab⟩

theorem isSome_eq_of_rel (h : Option.Rel R a b) : a.isSome = b.isSome := by
  cases h with
  | none => rfl
  | some => rfl

theorem bind_eq_of_rel {f : α → Option γ} {g : β → Option γ} (h : Option.Rel R a b)
    (hfg : ∀ a b, R a b → f a = g b) : a.bind f = b.bind g := by
  cases h with
  | none => rfl
  | some hab => exact hfg _ _ hab

theorem forall₂_replicate {a : α} {b : β} (h : R a b) (k : Nat) :
    List.Forall₂ R (List.replicate k a) (List.replicate k b) := by
  induction k with
  | zero => exact .nil
  | succ k ih => exact .cons h ih

theorem flatMap_filter_of_eq_nil {p : α → Bool} {f : α → List γ}
    (h : ∀ a, p a = false → f a = []) (as : List α) : (as.filter p).flatMap f = as.flatMap f := by
  induction as with
  | nil => rfl
  | cons a as ih =>
    rw [List.filter_cons, List.flatMap_cons]
    cases hp : p a with
    | true => rw [if_pos rfl, List.flatMap_cons, ih]
    | false => rw [if_neg Bool.false_ne_true, ih, h a hp, List.nil_append]

end Lists

/-! ## Names and receivers -/

namespace Code.Tree.Alike

variable {t t' : Tree} (h : t.Alike t')

include h

theorem nameText? : t.nameText? = t'.nameText? := by
  have hmap := congrArg (Option.map text) (h.child? (r := .name) (by decide))
  simpa [Tree.nameText?, Function.comp_def] using hmap

theorem receiverName? : t.receiverName? = t'.receiverName? := by
  refine bind_eq_of_rel (rel_of_map_bare (h.child? (r := .receiver) (by decide))) ?_
  intro list list' hlist
  have hdecls := congrArg List.head? (congrArg paramDecls hlist)
  rw [paramDecls_bare, paramDecls_bare, List.head?_map, List.head?_map] at hdecls
  refine bind_eq_of_rel (rel_of_map_bare hdecls) ?_
  intro d d' hd
  refine bind_eq_of_rel (rel_child? hd .type) ?_
  intro t t' ht
  rw [← receiverBase?_bare, ← size_bare, ht, receiverBase?_bare, size_bare]

end Code.Tree.Alike

/-- Aliases of the same names are among `A` in one package and among `A'` in the other. -/
def Package.Marks (p p' : Package) (A A' : List NodeId) : Prop :=
  ∀ name r r', (Env.ofPackage p).index.types.lookup name = some r →
    (Env.ofPackage p').index.types.lookup name = some r' → r.node.kind = .typeAlias →
      (r.id ∈ A ↔ r'.id ∈ A')

namespace Package.Exchanged

variable {p p' : Package} {n : Nat} {g g' : SourceFile} (h : p.Exchanged p' n g g')

include h

theorem importPath?_eq (i : Nat) (name : String) :
    (Env.ofPackage p').importPath? i name = (Env.ofPackage p).importPath? i name := by
  change p'.files[i]?.bind _ = p.files[i]?.bind _
  by_cases hi : i = n
  · subst hi
    rw [h.file, h.file', Option.bind_some, Option.bind_some, SourceFile.importPath?,
      SourceFile.importPath?, h.alike.imports_eq]
  · rw [h.getElem?_of_ne hi]

/-! ## The index -/

/-- The entries of the index that come from declarations in the same places are in a relation, so
the lists of all entries are. -/
theorem forall₂_allEntries {α : Type} {S : α → α → Prop} {entries : Nat → Site → List α}
    (hother : ∀ i s, s.node.kind.isTelling = false → entries i s = [])
    (hentries : ∀ i s s', s.node.Alike s'.node →
      (s.node.kind = .varDeclaration ∨ s.node.kind = .shortVarDeclaration →
        p.Twins n g g' i s s') → List.Forall₂ S (entries i s) (entries i s')) :
    List.Forall₂ S (Index.allEntries entries p.files.zipIdx)
      (Index.allEntries entries p'.files.zipIdx) := by
  have hdecls : ∀ i (f : SourceFile), (Site.root f.root).children.flatMap (entries i) =
      f.root.declarations.flatMap fun d => entries i ⟨d, [f.root]⟩ := by
    intro i f
    rw [Tree.declarations, flatMap_filter_of_eq_nil fun d => hother i ⟨d, [f.root]⟩, Site.children,
      List.flatMap_map]
    rfl
  have hfiles : List.Forall₂ (fun x y => x.2 = y.2 ∧ p.files[x.2]? = some x.1 ∧
      p'.files[y.2]? = some y.1) p.files.zipIdx p'.files.zipIdx := by
    refine forall₂_of_getElem? (by simp [h.files]) ?_
    rintro k ⟨f, i⟩ ⟨f', i'⟩ hf hf'
    simp only [List.getElem?_zipIdx, zero_add, Option.map_eq_some_iff, Prod.mk.injEq] at hf hf'
    obtain ⟨_, hf, rfl, rfl⟩ := hf
    obtain ⟨_, hf', rfl, rfl⟩ := hf'
    exact ⟨rfl, hf, hf'⟩
  refine List.rel_flatMap hfiles ?_
  rintro ⟨f, i⟩ ⟨f', _⟩ ⟨rfl, hf, hf'⟩
  dsimp only at hf hf' ⊢
  rw [hdecls, hdecls]
  refine List.rel_flatMap (h.forall₂_declarations hf hf') ?_
  rintro d d' ⟨halike, htwins⟩
  exact hentries i _ _ halike htwins

theorem forall₂_types : List.Forall₂ (fun e e' : String × Ref => e.1 = e'.1 ∧
      (e.2.file = e'.2.file ∧ e.2.node.bare = e'.2.node.bare))
    (Env.ofPackage p).index.types (Env.ofPackage p').index.types := by
  change List.Forall₂ _ (Index.ofFiles p.files).types (Index.ofFiles p'.files).types
  rw [Index.ofFiles_eq, Index.ofFiles_eq, List.forall₂_reverse_iff]
  apply h.forall₂_allEntries
  · intro i s hkind
    exact if_neg fun htype => by rw [htype] at hkind; cases hkind
  · intro i s s' halike _
    unfold Index.typeEntries
    rw [halike.kind]
    by_cases hkind : s'.node.kind = .typeDeclaration
    · have hbare : s.node.bare = s'.node.bare := halike.bare (by rw [halike.kind, hkind]; rfl)
      rw [if_pos hkind, if_pos hkind]
      refine List.rel_filterMap (R := fun c c' : Site => c.node.bare = c'.node.bare) ?_
        (Site.forall₂_filter (p := fun t => t.kind = .typeSpec ∨ t.kind = .typeAlias)
          (fun _ _ h => h) (by simp) (Site.forall₂_children hbare))
      intro c c' hc
      dsimp only
      rw [← Tree.nameText?_bare, hc, Tree.nameText?_bare]
      cases c'.node.nameText? with
      | none => exact .none
      | some name => exact .some ⟨rfl, rfl, hc⟩
    · rw [if_neg hkind, if_neg hkind]
      exact .nil

/-- A type is declared in the same file, and its declarations differ in positions only. -/
theorem rel_types (name : String) :
    Option.Rel (fun r r' : Ref => r.file = r'.file ∧ r.node.bare = r'.node.bare)
      ((Env.ofPackage p).index.types.lookup name) ((Env.ofPackage p').index.types.lookup name) :=
  rel_lookup h.forall₂_types name

/-- A function is declared in the same file, and with the same result. -/
theorem rel_funcs (name : String) :
    Option.Rel (fun r r' : Ref => r.file = r'.file ∧
        (r.node.child? .result).map Tree.bare = (r'.node.child? .result).map Tree.bare)
      ((Env.ofPackage p).index.funcs.lookup name) ((Env.ofPackage p').index.funcs.lookup name) := by
  apply rel_lookup
  change List.Forall₂ _ (Index.ofFiles p.files).funcs (Index.ofFiles p'.files).funcs
  rw [Index.ofFiles_eq, Index.ofFiles_eq, List.forall₂_reverse_iff]
  apply h.forall₂_allEntries
  · intro i s hkind
    exact if_neg fun hfunc => by rw [hfunc] at hkind; cases hkind
  · intro i s s' halike _
    unfold Index.funcEntries
    rw [halike.kind, halike.nameText?]
    split_ifs
    · cases s'.node.nameText? with
      | none => exact .nil
      | some name => exact .cons ⟨rfl, rfl, halike.child? (by decide)⟩ .nil
    · exact .nil

/-- A method is declared in the same file, and with the same result. -/
theorem rel_methods (key : String × String) :
    Option.Rel (fun r r' : Ref => r.file = r'.file ∧
        (r.node.child? .result).map Tree.bare = (r'.node.child? .result).map Tree.bare)
      ((Env.ofPackage p).index.methods.lookup key)
      ((Env.ofPackage p').index.methods.lookup key) := by
  apply rel_lookup
  change List.Forall₂ _ (Index.ofFiles p.files).methods (Index.ofFiles p'.files).methods
  rw [Index.ofFiles_eq, Index.ofFiles_eq, List.forall₂_reverse_iff]
  apply h.forall₂_allEntries
  · intro i s hkind
    exact if_neg fun hmethod => by rw [hmethod] at hkind; cases hkind
  · intro i s s' halike _
    unfold Index.methodEntries
    rw [halike.kind, halike.nameText?, halike.receiverName?]
    split_ifs
    · cases s'.node.nameText? with
      | none => exact .nil
      | some name =>
        rw [Option.bind_some, Option.bind_some]
        cases s'.node.receiverName?.filter (· ≠ "") with
        | none => exact .nil
        | some receiver => exact .cons ⟨rfl, rfl, halike.child? (by decide)⟩ .nil
    · exact .nil

/-- The declarations of a variable of the package are twins. -/
theorem rel_globals (name : String) :
    Option.Rel (p.Twin n g g') ((Env.ofPackage p).index.globals.lookup name)
      ((Env.ofPackage p').index.globals.lookup name) := by
  apply rel_lookup
  change List.Forall₂ _ (Index.ofFiles p.files).globals (Index.ofFiles p'.files).globals
  rw [Index.ofFiles_eq, Index.ofFiles_eq, List.forall₂_reverse_iff]
  apply h.forall₂_allEntries
  · intro i s hkind
    exact if_neg fun hvar => by rw [hvar] at hkind; cases hkind
  · intro i s s' halike htwins
    unfold Index.globalEntries
    rw [halike.kind]
    by_cases hkind : s'.node.kind = .varDeclaration
    · have hs := htwins (.inl (halike.kind.trans hkind))
      rw [if_pos hkind, if_pos hkind, Site.specNames_congr hs.bare, List.forall₂_map_left_iff,
        List.forall₂_map_right_iff]
      exact List.forall₂_same.mpr fun name _ => ⟨rfl, rfl, hs⟩
    · rw [if_neg hkind, if_neg hkind]
      exact .nil

/-! ## What types mean -/

/-- An alias that is followed now is marked in both packages. -/
theorem marks_cons {A A' : List NodeId} (hA : Marks p p' A A') {name : String} {r r' : Ref}
    (hr : (Env.ofPackage p).index.types.lookup name = some r)
    (hr' : (Env.ofPackage p').index.types.lookup name = some r')
    (hkind : r.node.kind = .typeAlias) (hkind' : r'.node.kind = .typeAlias) :
    Marks p p' (r.id :: A) (r'.id :: A') := by
  intro name₂ r₂ r₂' h₂ h₂' halias
  -- another alias is the one that is followed if it has the same name
  have hid : r₂.id = r.id ↔ r₂'.id = r'.id := by
    constructor
    · intro hid
      obtain rfl := Env.eq_of_alias_id_eq h.parsed hr h₂ hkind hid.symm
      rw [Option.some.inj (h₂'.symm.trans hr')]
    · intro hid
      obtain rfl := Env.eq_of_alias_id_eq h.parsed' hr' h₂' hkind' hid.symm
      rw [Option.some.inj (h₂.symm.trans hr)]
  rw [List.mem_cons, List.mem_cons, hid, hA name₂ r₂ r₂' h₂ h₂' halias]

/-- Aliases are followed in the same way, where those of the same names are being followed. -/
theorem followName_eq (k : Nat) {A A' : List NodeId} (hA : Marks p p' A A') (name : String) :
    (Env.ofPackage p').followName k A' name = (Env.ofPackage p).followName k A name := by
  induction k generalizing A A' name with
  | zero => rfl
  | succ k ih =>
    unfold Env.followName
    obtain ⟨hr, hr'⟩ | ⟨r, r', hr, hr', hfile, hbare⟩ := rel_cases (h.rel_types name)
    · rw [hr, hr']
    · have hkind : r'.node.kind = r.node.kind := by
        rw [← Tree.kind_bare, ← hbare, Tree.kind_bare]
      rw [hr, hr']
      dsimp only
      rw [hkind]
      by_cases halias : r.node.kind = .typeAlias
      · have hmarked : A'.contains r'.id = A.contains r.id := by
          rw [Bool.eq_iff_iff, List.contains_iff_mem, List.contains_iff_mem]
          exact (hA name r r' hr hr' halias).symm
        have hcons := h.marks_cons hA hr hr' halias (hkind.trans halias)
        rw [if_pos halias, if_pos halias, hmarked, funext (ih hcons), ← hfile,
          funext (h.importPath?_eq r.file)]
        split_ifs
        · rfl
        · refine (bind_eq_of_rel (Tree.rel_child? hbare .type) fun t t' ht => ?_).symm
          rw [TypeExpr.ofTree_congr ht]
      · rw [if_neg halias, if_neg halias]
        change some (Ty.named p'.name name false) = some (Ty.named p.name name false)
        rw [h.name]

theorem namedType_eq (name : String) :
    (Env.ofPackage p').namedType name = (Env.ofPackage p).namedType name := by
  rw [Env.namedType, Env.namedType, h.forall₂_types.length_eq]
  exact h.followName_eq _ (by simp [Marks]) name

theorem typeExpr_eq (i : Nat) (t : Tree) :
    (Env.ofPackage p').typeExpr i t = (Env.ofPackage p).typeExpr i t := by
  rw [Env.typeExpr, Env.typeExpr, funext h.namedType_eq, funext (h.importPath?_eq i)]

theorem typeExpr_congr (i : Nat) {t t' : Tree} (ht : t.bare = t'.bare) :
    (Env.ofPackage p').typeExpr i t' = (Env.ofPackage p).typeExpr i t := by
  rw [h.typeExpr_eq, ← Env.typeExpr_bare, ← ht, Env.typeExpr_bare]

theorem typeOperand_eq (i : Nat) (t : Tree) :
    (Env.ofPackage p').typeOperand i t = (Env.ofPackage p).typeOperand i t := by
  unfold Env.typeOperand
  rw [h.namedType_eq, h.typeExpr_eq, funext (h.importPath?_eq i)]

theorem isLocal_eq (t : Ty) : (Env.ofPackage p').isLocal t = (Env.ofPackage p).isLocal t := by
  cases t with
  | container kind elem => rfl
  | named pkg name pointer =>
    change (decide (pkg = p'.name) && _) = (decide (pkg = p.name) && _)
    rw [h.name, isSome_eq_of_rel (h.rel_types name)]

/-- The fields of a declared struct have the same types. -/
theorem fieldType_eq (type field : String) :
    (Env.ofPackage p').fieldType type field = (Env.ofPackage p).fieldType type field := by
  refine (bind_eq_of_rel (h.rel_types type) ?_).symm
  rintro r r' ⟨hfile, hbare⟩
  refine bind_eq_of_rel (Tree.rel_child? hbare .type) ?_
  intro struct struct' hstruct
  have hfields : List.Forall₂ (fun d d' => d.bare = d'.bare) struct.structFields
      struct'.structFields := by
    rw [Tree.forall₂_bare_iff, ← Tree.structFields_bare, hstruct, Tree.structFields_bare]
  rw [← Tree.kind_bare, hstruct, Tree.kind_bare]
  split_ifs
  · refine bind_eq_of_rel (rel_find? ?_ hfields) ?_
    · intro d d' hd
      rw [← Tree.names_bare, hd, Tree.names_bare]
    · intro d d' hd
      refine bind_eq_of_rel (Tree.rel_child? hd .type) ?_
      intro t t' ht
      rw [hfile, h.typeExpr_congr _ ht]
  · rfl

/-- Functions and methods that are declared with the same result have the same results. -/
theorem declaredResult_eq {decl decl' : Ref} (hfile : decl.file = decl'.file)
    (hresult : (decl.node.child? .result).map Tree.bare =
      (decl'.node.child? .result).map Tree.bare) (i : Nat) :
    (Env.ofPackage p').declaredResult decl' i = (Env.ofPackage p).declaredResult decl i := by
  refine (bind_eq_of_rel (Tree.rel_of_map_bare hresult) ?_).symm
  intro result result' hbare
  have htype : ∀ t t' : Tree, t.bare = t'.bare → (Env.ofPackage p).typeExpr decl.file t =
      (Env.ofPackage p').typeExpr decl'.file t' := by
    intro t t' ht
    rw [hfile, h.typeExpr_congr _ ht]
  have hdecls : List.Forall₂ (fun d d' => d.bare = d'.bare) result.paramDecls
      result'.paramDecls := by
    rw [Tree.forall₂_bare_iff, ← Tree.paramDecls_bare, hbare, Tree.paramDecls_bare]
  have htypes : List.Forall₂ (Option.Rel fun t t' => t.bare = t'.bare)
      (result.paramDecls.flatMap fun d =>
        List.replicate (max 1 (d.childrenIn .name).length) (d.child? .type))
      (result'.paramDecls.flatMap fun d =>
        List.replicate (max 1 (d.childrenIn .name).length) (d.child? .type)) := by
    refine List.rel_flatMap hdecls ?_
    intro d d' hd
    have hlength : (d.childrenIn .name).length = (d'.childrenIn .name).length := by
      have hnames := congrArg (fun t => (t.childrenIn .name).length) hd
      simpa only [Tree.childrenIn_bare, List.length_map] using hnames
    dsimp only
    rw [hlength]
    exact forall₂_replicate (Tree.rel_child? hd .type) _
  rw [← Tree.kind_bare, hbare, Tree.kind_bare]
  split_ifs
  · dsimp only
    obtain ⟨ha, hb⟩ | ⟨a, b, ha, hb, hab⟩ := rel_cases (rel_getElem? htypes i)
    · rw [ha, hb]
      rfl
    · rw [ha, hb]
      exact bind_eq_of_rel hab htype
  · exact htype _ _ hbare
  · rfl

end Package.Exchanged

end CtxThread

import CtxThread.Proofs.Types.Exchanged
import CtxThread.Proofs.Types.Match

/-!
# Scripts of twins

When a file of a package is exchanged for one that tells the same, a name is bound by the twin of
what bound it before, although the two stand in different places: what matters is only which
declarations come earlier, and nothing that binds a name is empty. So the scripts of questions about
twins are the same up to twins.

## Main statements

- `Package.Exchanged.rel_origin`: twins are bound by twins
- `Package.Exchanged.script_alike`: what is asked about twins, is asked about twins
- `Package.Exchanged.matching`: twins correspond to one another
-/

namespace CtxThread

open Code (Tree Site Role Kind)

theorem map_eq_of_rel {α β γ : Type} {R : α → β → Prop} {a : Option α} {b : Option β}
    {f : α → γ} {g : β → γ} (h : Option.Rel R a b) (hfg : ∀ a b, R a b → f a = g b) :
    a.map f = b.map g := by
  cases h with
  | none => rfl
  | some hab => exact congrArg some (hfg _ _ hab)

/-- What comes first before a tree of a row, looked for from the end. -/
theorem Code.Row.find?_earlier {lo hi j : Nat} {ts : List Tree} {t : Tree} (h : Row lo ts hi)
    (hj : ts[j]? = some t) {p : Tree → Bool} (hp : ∀ c ∈ ts, p c = true → c.start < c.stop) :
    (ts.filter fun c => c.start < t.start).reverse.find? p = (ts.take j).reverse.find? p := by
  rw [← List.head?_filter, ← List.head?_filter, List.filter_reverse, List.filter_reverse,
    h.filter_earlier hj hp]

namespace Env

/-- What the alias of a type switch is bound to in a case of the types `types`. -/
def aliasBinding (env : Env) (i : Nat) : List Tree → Binding
  | [type] => .ofType (env.typeExpr i type)
  | _ => .unknown

theorem bindCase_cons (env : Env) (i : Nat) (t switch : Tree) (around : List Tree) (name : String) :
    env.bindCase ⟨i, ⟨t, switch :: around⟩⟩ name =
      (Site.child? ⟨switch, around⟩ .binder).bind fun guard =>
        if guard.exprNames.contains (some name) then
          some (env.aliasBinding i (if t.kind = .typeCase then t.childrenIn .type else []))
        else none := by
  unfold bindCase
  dsimp only [Ref.node]
  congr 1
  funext guard
  by_cases hname : guard.exprNames.contains (some name) = true
  · rw [if_pos hname, if_pos hname]
    have htypes : ∀ types : List Tree, (match types with
        | [type] => some (Binding.ofType (env.typeExpr i type))
        | _ => some .unknown) = some (env.aliasBinding i types)
      | [] => rfl
      | [_] => rfl
      | _ :: _ :: _ => rfl
    exact htypes _
  · rw [if_neg hname, if_neg hname]

end Env

/-! ## Binders in front of a node -/

namespace Env

variable {env : Env}

/-- What binds `name` among what comes before the node `inner` in the node around it. -/
def binderBefore (file : Nat) (name : String) (inner outer : Tree) (around : List Tree) :
    Option Tree :=
  (outer.children.filter fun t => t.start < inner.start).reverse.find? fun t =>
    Ref.binds ⟨file, ⟨t, outer :: around⟩⟩ name

theorem climbOrigin_cons (env : Env) (file : Nat) (name : String) (inner outer : Tree)
    (around : List Tree) :
    env.climbOrigin file name inner (outer :: around) =
      match binderBefore file name inner outer around with
      | some t => some (.declared ⟨file, ⟨t, outer :: around⟩⟩)
      | none =>
        match env.caseBinding ⟨file, ⟨outer, around⟩⟩ name with
        | some b => some (.inCase b)
        | none => env.climbOrigin file name outer around := rfl

/-- Binders are not empty, so where a node starts matters only for which of them are in front of
it. Nodes that bind nothing can be left out. -/
theorem binderBefore_eq (hparsed : ∀ f ∈ env.files, Code.parse? f.src = some f.root)
    {file j : Nat} {name : String} {inner outer : Tree} {around : List Tree}
    (houter : ⟨file, ⟨outer, around⟩⟩ ∈ env.refs) {keep : Tree → Bool}
    (hkeep : ∀ t ∈ outer.children, Ref.binds ⟨file, ⟨t, outer :: around⟩⟩ name = true →
      keep t = true)
    (hinner : (outer.children.filter keep)[j]? = some inner) :
    binderBefore file name inner outer around =
      ((outer.children.filter keep).take j).reverse.find? fun t =>
        Ref.binds ⟨file, ⟨t, outer :: around⟩⟩ name := by
  obtain ⟨src, hlaid⟩ := laid_of_mem_refs hparsed houter
  have hrow : Code.Row outer.start (outer.children.filter keep) outer.stop :=
    hlaid.row.sublist List.filter_sublist
  have hspan : ∀ t ∈ outer.children.filter keep,
      Ref.binds ⟨file, ⟨t, outer :: around⟩⟩ name = true → t.start < t.stop := by
    intro t ht hbinds
    have hmem := mem_refs_enter houter (List.mem_filter.mp ht).1
    exact start_lt_stop_of_binds hparsed hmem hbinds
  rw [← hrow.find?_earlier hinner hspan, binderBefore, ← List.head?_filter, ← List.head?_filter,
    List.filter_reverse, List.filter_reverse, List.filter_filter, List.filter_filter,
    List.filter_filter]
  congr 2
  refine List.filter_congr fun t ht => ?_
  cases hbinds : Ref.binds ⟨file, ⟨t, outer :: around⟩⟩ name with
  | false => rfl
  | true => simp [hkeep t ht hbinds]

theorem binderBefore_getElem? (hparsed : ∀ f ∈ env.files, Code.parse? f.src = some f.root)
    {file j : Nat} {name : String} {inner outer : Tree} {around : List Tree}
    (houter : ⟨file, ⟨outer, around⟩⟩ ∈ env.refs) (hinner : outer.children[j]? = some inner) :
    binderBefore file name inner outer around =
      (outer.children.take j).reverse.find? fun t =>
        Ref.binds ⟨file, ⟨t, outer :: around⟩⟩ name := by
  have hall : outer.children.filter (fun _ => true) = outer.children :=
    List.filter_eq_self.mpr fun _ _ => rfl
  conv_rhs => rw [← hall]
  exact binderBefore_eq hparsed houter (fun _ _ _ => rfl) (by rwa [hall])

/-- What binds a name at the top of a file can be seen by other files. -/
theorem isTelling_of_binds (hparsed : ∀ f ∈ env.files, Code.parse? f.src = some f.root)
    {file : Nat} {name : String} {t root : Tree} (ht : ⟨file, ⟨t, [root]⟩⟩ ∈ env.refs)
    (hroot : root.kind = .sourceFile) (hbinds : Ref.binds ⟨file, ⟨t, [root]⟩⟩ name = true) :
    t.kind.isTelling = true := by
  unfold Ref.binds at hbinds
  split at hbinds
  case h_2 hkind | h_3 hkind =>
    change t.kind = _ at hkind
    rw [hkind]
    rfl
  case h_6 => cases hbinds
  all_goals
    -- neither parameters nor the heads of loops stand at the top of a file
    rename_i hkind
    change t.kind = _ at hkind
    have hadmits := admits_of_mem_refs hparsed ht (by rw [hkind]; rfl)
    simp [Code.declaring, Tree.mark, hkind, hroot] at hadmits

theorem binderBefore_top {p : Package} (hparsed : ∀ f ∈ p.files, Code.parse? f.src = some f.root)
    {i k : Nat} {name : String} {f : SourceFile} {d : Tree} (hf : p.files[i]? = some f)
    (hd : f.root.declarations[k]? = some d) :
    binderBefore i name d f.root [] = (f.root.declarations.take k).reverse.find? fun t =>
      Ref.binds ⟨i, ⟨t, [f.root]⟩⟩ name := by
  have hroot : ⟨i, ⟨f.root, []⟩⟩ ∈ (ofPackage p).refs :=
    mem_refs.mpr ⟨f, hf, Site.mem_walk_self _⟩
  refine binderBefore_eq hparsed hroot ?_ hd
  intro t ht hbinds
  exact isTelling_of_binds hparsed (mem_refs_enter hroot ht)
    (Code.kind_of_parse? (hparsed f (List.mem_of_getElem? hf))) hbinds

end Env

namespace Package

variable {p p' : Package} {n : Nat} {g g' : SourceFile}

/-! ## Names of twins -/

namespace Twin

variable {r r' : Ref} (hr : p.Twin n g g' r r')

include hr

theorem names : r.node.names = r'.node.names := by
  rw [← Tree.names_bare, hr.bare, Tree.names_bare]

theorem forall₂_paramDecls : List.Forall₂ (fun d d' => d.bare = d'.bare) r.node.paramDecls
    r'.node.paramDecls := by
  rw [Tree.forall₂_bare_iff, ← Tree.paramDecls_bare, hr.bare, Tree.paramDecls_bare]

theorem leftNames : r.leftNames = r'.leftNames := by
  rw [Ref.leftNames, Ref.leftNames]
  congr 1
  exact map_eq_of_rel (hr.child? .left) fun left left' hleft =>
    Site.exprNames_congr hleft.bare

theorem declares : r.declares = r'.declares := by
  refine any_eq_of_forall₂ ?_ (Tree.forall₂_children hr.bare)
  intro c c' hc
  rw [← Tree.kind_bare, hc, Tree.kind_bare]

theorem shortInitializer? :
    Option.Rel (p.Twin n g g') r.shortInitializer? r'.shortInitializer? := by
  rw [Ref.shortInitializer?, Ref.shortInitializer?]
  obtain ⟨hinit, hinit'⟩ | ⟨init, init', hinit, hinit', htwin⟩ := rel_cases (hr.child? .initializer)
  · rw [hinit, hinit']
    exact .none
  · rw [hinit, hinit', Option.filter_some, Option.filter_some, htwin.kind]
    split_ifs
    · exact .some htwin
    · exact .none

/-- Twins bind the same names. -/
theorem binds (name : String) : r.binds name = r'.binds name := by
  unfold Ref.binds
  rw [hr.kind]
  split
  · refine any_eq_of_forall₂ ?_ hr.forall₂_paramDecls
    intro d d' hd
    rw [← Tree.names_bare, hd, Tree.names_bare]
  · rw [hr.leftNames]
  · exact any_eq_of_forall₂ (fun a b hab => by rw [hab.names]) hr.specs
  · obtain ⟨hinit, hinit'⟩ | ⟨init, init', hinit, hinit', htwin⟩ := rel_cases hr.shortInitializer?
    · rw [hinit, hinit']
    · rw [hinit, hinit', Option.any_some, Option.any_some, htwin.leftNames]
  · rw [hr.declares, hr.leftNames]
  · rfl

end Twin

/-! ## What binds a name -/

/-- What binds a name: twins, or the same alias. -/
inductive Bound (T : Ref → Ref → Prop) : Env.Origin → Env.Origin → Prop
  | declared {stmt stmt' : Ref} (h : T stmt stmt') : Bound T (.declared stmt) (.declared stmt')
  | inCase (b : Binding) : Bound T (.inCase b) (.inCase b)

namespace Exchanged

variable (h : p.Exchanged p' n g g')

include h

/-- The alias of a type switch is bound to the same by the same types. -/
theorem aliasBinding_eq (i : Nat) {types types' : List Tree}
    (htypes : List.Forall₂ (fun t t' => t.bare = t'.bare) types types') :
    (Env.ofPackage p').aliasBinding i types' = (Env.ofPackage p).aliasBinding i types := by
  cases htypes with
  | nil => rfl
  | cons htype hrest =>
    cases hrest with
    | nil =>
      change Binding.ofType _ = Binding.ofType _
      rw [h.typeExpr_congr i htype]
    | cons => rfl

/-- A name is an alias in a case as it is in the twin of the case. -/
theorem caseBinding_eq {i : Nat} {s s' : Site} (hs : p.Twins n g g' i s s') (name : String) :
    (Env.ofPackage p').caseBinding ⟨i, s'⟩ name = (Env.ofPackage p).caseBinding ⟨i, s⟩ name := by
  have hkind : s'.node.kind = s.node.kind := by
    rw [← Tree.kind_bare, ← hs.bare, Tree.kind_bare]
  unfold Env.caseBinding Ref.node
  dsimp only
  rw [hkind]
  by_cases hcase : s.node.kind = .typeCase ∨ s.node.kind = .defaultCase
  · rw [if_pos hcase, if_pos hcase]
    cases hs with
    | root => rfl
    | top _ _ _ hdecl =>
      -- what declares variables is no case
      dsimp only at hcase
      rcases hdecl with hdecl | hdecl
      · rw [hdecl] at hcase
        exact absurd hcase (by decide)
      · rw [hdecl] at hcase
        exact absurd hcase (by decide)
    | @enter _ switch switch' t t' around around' hswitch ht ht' =>
      have hbare := (Twins.enter hswitch ht ht').bare
      have hguard : Option.Rel (fun s s' : Site => s.node.bare = s'.node.bare)
          (Site.child? ⟨switch, around⟩ .binder) (Site.child? ⟨switch', around'⟩ .binder) :=
        rel_map (Tree.rel_child? hswitch.bare .binder) fun _ _ hc => hc
      have htypes : List.Forall₂ (fun c c' => c.bare = c'.bare)
          (if t.kind = .typeCase then t.childrenIn .type else [])
          (if t'.kind = .typeCase then t'.childrenIn .type else []) := by
        dsimp only at hkind hbare
        rw [hkind]
        split_ifs
        · rw [Tree.forall₂_bare_iff, ← Tree.childrenIn_bare, hbare, Tree.childrenIn_bare]
        · exact .nil
      rw [Env.bindCase_cons, Env.bindCase_cons]
      refine (bind_eq_of_rel hguard ?_).symm
      intro guard guard' hguard
      rw [Site.exprNames_congr hguard, h.aliasBinding_eq i htypes]
  · rw [if_neg hcase, if_neg hcase]

omit h in
/-- Of the declarations that other files can see, those of variables bind names. -/
theorem kind_of_binds {r : Ref} {name : String} (hbinds : r.binds name = true)
    (htelling : r.node.kind.isTelling = true) :
    r.node.kind = .varDeclaration ∨ r.node.kind = .shortVarDeclaration := by
  unfold Ref.binds at hbinds
  split at hbinds
  case h_2 hkind => exact .inr hkind
  case h_3 hkind => exact .inl hkind
  case h_6 => cases hbinds
  all_goals
    rename_i hkind
    rw [hkind] at htelling
    cases htelling

/-- Among the declarations at the top of two files, those that bind a name are twins. -/
theorem forall₂_binders {i : Nat} {f f' : SourceFile} (hf : p.files[i]? = some f)
    (hf' : p'.files[i]? = some f') (name : String) :
    List.Forall₂ (fun d d' => Ref.binds ⟨i, ⟨d, [f.root]⟩⟩ name = Ref.binds ⟨i, ⟨d', [f'.root]⟩⟩ name ∧
        (Ref.binds ⟨i, ⟨d, [f.root]⟩⟩ name = true →
          p.Twins n g g' i ⟨d, [f.root]⟩ ⟨d', [f'.root]⟩))
      f.root.declarations f'.root.declarations := by
  have hdecls := (List.forall₂_and_left _ _).mpr
    ⟨fun d hd => (List.mem_filter.mp hd).2, h.forall₂_declarations hf hf'⟩
  refine hdecls.imp ?_
  rintro d d' ⟨htelling, halike, htwins⟩
  by_cases hkind : d.kind = .varDeclaration ∨ d.kind = .shortVarDeclaration
  · have htwin : p.Twin n g g' ⟨i, ⟨d, [f.root]⟩⟩ ⟨i, ⟨d', [f'.root]⟩⟩ := ⟨rfl, htwins hkind⟩
    exact ⟨htwin.binds name, fun _ => htwins hkind⟩
  · -- imports, types, functions and methods bind no variable
    have hnone : ∀ (t : Tree) (around : List Tree), t.kind = d.kind →
        Ref.binds ⟨i, ⟨t, around⟩⟩ name = false := by
      intro t around ht
      refine Bool.eq_false_of_not_eq_true fun hbinds => hkind ?_
      rw [← ht] at htelling ⊢
      exact kind_of_binds hbinds htelling
    rw [hnone d _ rfl, hnone d' _ halike.kind.symm]
    exact ⟨rfl, fun hbinds => by cases hbinds⟩

/-- What binds a name before the children of twins. -/
theorem rel_binderBefore {i k : Nat} {outer outer' t t' : Tree} {around around' : List Tree}
    (hs : p.Twins n g g' i ⟨outer, around⟩ ⟨outer', around'⟩) (ht : outer.children[k]? = some t)
    (ht' : outer'.children[k]? = some t') (name : String) :
    Option.Rel (fun c c' => p.Twins n g g' i ⟨c, outer :: around⟩ ⟨c', outer' :: around'⟩)
      (Env.binderBefore i name t outer around) (Env.binderBefore i name t' outer' around') := by
  rw [Env.binderBefore_getElem? h.parsed (hs.mem_refs h.file) ht,
    Env.binderBefore_getElem? h.parsed' ((h.twins_symm hs).mem_refs h.file') ht']
  have hchildren := hs.forall₂_children
  rw [Site.children, Site.children, List.forall₂_map_left_iff,
    List.forall₂_map_right_iff] at hchildren
  refine rel_find? ?_ (List.forall₂_reverse_iff.mpr (List.forall₂_take k hchildren))
  intro c c' hc
  have htwin : p.Twin n g g' ⟨i, ⟨c, outer :: around⟩⟩ ⟨i, ⟨c', outer' :: around'⟩⟩ := ⟨rfl, hc⟩
  exact htwin.binds name

/-- What binds a name before declarations at the top of two files. -/
theorem rel_binderBefore_top {i k : Nat} {f f' : SourceFile} {d d' : Tree}
    (hf : p.files[i]? = some f) (hf' : p'.files[i]? = some f')
    (hd : f.root.declarations[k]? = some d) (hd' : f'.root.declarations[k]? = some d')
    (name : String) :
    Option.Rel (fun c c' => p.Twins n g g' i ⟨c, [f.root]⟩ ⟨c', [f'.root]⟩)
      (Env.binderBefore i name d f.root []) (Env.binderBefore i name d' f'.root []) := by
  rw [Env.binderBefore_top h.parsed hf hd, Env.binderBefore_top h.parsed' hf' hd']
  have hbinders := h.forall₂_binders hf hf' name
  obtain ⟨hnone, hnone'⟩ | ⟨c, c', hc, hc', _, htwins⟩ := rel_cases <|
    rel_find? (fun _ _ hab => hab.1) (List.forall₂_reverse_iff.mpr (List.forall₂_take k hbinders))
  · rw [hnone, hnone']
    exact .none
  · have hbinds := List.find?_some hc
    rw [hc, hc']
    exact .some (htwins hbinds)

/-- What binds a name around twins. -/
theorem rel_climbOrigin {i : Nat} {s s' : Site} (hs : p.Twins n g g' i s s') (name : String) :
    Option.Rel (Bound (p.Twin n g g'))
      ((Env.ofPackage p).climbOrigin i name s.node s.around)
      ((Env.ofPackage p').climbOrigin i name s'.node s'.around) := by
  induction hs with
  | root => exact .none
  | top hi hd hd' _ _ =>
    subst hi
    rw [Env.climbOrigin_cons, Env.climbOrigin_cons]
    obtain ⟨hnone, hnone'⟩ | ⟨c, c', hc, hc', htwins⟩ :=
      rel_cases (h.rel_binderBefore_top h.file h.file' hd hd' name)
    · -- a file is no case, and stands in nothing
      have hcase : ∀ (env : Env) (t : Tree), env.caseBinding ⟨i, ⟨t, []⟩⟩ name = none := by
        intro env t
        unfold Env.caseBinding
        split_ifs
        · rfl
        · rfl
      rw [hnone, hnone', hcase, hcase]
      exact .none
    · rw [hc, hc']
      exact .some (.declared ⟨rfl, htwins⟩)
  | enter hs ht ht' ih =>
    rw [Env.climbOrigin_cons, Env.climbOrigin_cons, h.caseBinding_eq hs]
    obtain ⟨hnone, hnone'⟩ | ⟨c, c', hc, hc', htwins⟩ :=
      rel_cases (h.rel_binderBefore hs ht ht' name)
    · rw [hnone, hnone']
      cases (Env.ofPackage p).caseBinding ⟨i, ⟨_, _⟩⟩ name with
      | some b => exact .some (.inCase b)
      | none => exact ih
    · rw [hc, hc']
      exact .some (.declared ⟨rfl, htwins⟩)

/-- Twins are bound by twins. -/
theorem rel_origin {r r' : Ref} (hr : p.Twin n g g' r r') :
    Option.Rel (Bound (p.Twin n g g')) ((Env.ofPackage p).origin r)
      ((Env.ofPackage p').origin r') := by
  rw [Env.origin, Env.origin, ← hr.text, ← hr.1]
  obtain ⟨hnone, hnone'⟩ | ⟨b, b', hb, hb', hbound⟩ :=
    rel_cases (h.rel_climbOrigin hr.2 r.node.text)
  · rw [show (Env.ofPackage p).climbOrigin r.file r.node.text r.node r.site.around = none from hnone,
      show (Env.ofPackage p').climbOrigin r.file r.node.text r'.node r'.site.around = none
        from hnone', Option.none_or, Option.none_or]
    exact rel_map (h.rel_globals r.node.text) fun _ _ htwin => .declared htwin
  · rw [show (Env.ofPackage p).climbOrigin r.file r.node.text r.node r.site.around = some b from hb,
      show (Env.ofPackage p').climbOrigin r.file r.node.text r'.node r'.site.around = some b'
        from hb', Option.some_or, Option.some_or]
    exact .some hbound

/-! ## Scripts -/

theorem mayBePackage_eq {r r' : Ref} (hr : p.Twin n g g' r r') :
    (Env.ofPackage p').mayBePackage r' = (Env.ofPackage p).mayBePackage r := by
  rw [Env.mayBePackage, Env.mayBePackage, ← hr.kind, ← hr.text, ← hr.1, h.importPath?_eq]

theorem isPackage_eq {r r' : Ref} (hr : p.Twin n g g' r r') :
    (Env.ofPackage p').isPackage r' = (Env.ofPackage p).isPackage r := by
  rw [Env.isPackage, Env.isPackage, h.mayBePackage_eq hr, ← Option.not_isSome,
    ← Option.not_isSome, isSome_eq_of_rel (h.rel_origin hr)]

theorem forall₂_packageQuestions {r r' : Ref} (hr : p.Twin n g g' r r') :
    List.Forall₂ (Question.Alike (p.Twin n g g')) ((Env.ofPackage p).packageQuestions r)
      ((Env.ofPackage p').packageQuestions r') := by
  rw [Env.packageQuestions, Env.packageQuestions, h.mayBePackage_eq hr]
  split_ifs
  · exact .cons (.name hr) .nil
  · exact .nil

theorem fieldOf_eq (field : String) (t : Ty) :
    (Env.ofPackage p').fieldOf field t = (Env.ofPackage p).fieldOf field t := by
  cases t with
  | container kind elem => rfl
  | named pkg name pointer => rw [Env.fieldOf, Env.fieldOf, h.isLocal_eq, h.fieldType_eq]

theorem methodOf_eq (member : String) (i : Nat) (t : Ty) :
    (Env.ofPackage p').methodOf member i t = (Env.ofPackage p).methodOf member i t := by
  cases t with
  | container kind elem => rfl
  | named pkg name pointer =>
    rw [Env.methodOf, Env.methodOf, h.isLocal_eq]
    split_ifs
    · exact (bind_eq_of_rel (h.rel_methods (name, member)) fun _ _ hdecl =>
        (h.declaredResult_eq hdecl.1 hdecl.2 i).symm).symm
    · rfl
    · rfl

theorem typeChild_eq {r r' : Ref} (hr : p.Twin n g g' r r') :
    (Env.ofPackage p').typeChild r' = (Env.ofPackage p).typeChild r := by
  refine (bind_eq_of_rel (Tree.rel_child? hr.bare .type) fun _ _ ht => ?_).symm
  rw [← hr.1, h.typeExpr_congr _ ht]

theorem allocatedType_eq {r r' : Ref} (hr : p.Twin n g g' r r') (name : String) :
    (Env.ofPackage p').allocatedType name r' = (Env.ofPackage p).allocatedType name r := by
  have harguments := congrArg List.head? (congrArg Tree.arguments hr.bare)
  rw [Tree.arguments_bare, Tree.arguments_bare, List.head?_map, List.head?_map] at harguments
  refine (bind_eq_of_rel (Tree.rel_of_map_bare harguments) fun first first' hfirst => ?_).symm
  rw [← hr.1, h.typeOperand_eq, ← Env.typeOperand_bare, hfirst, Env.typeOperand_bare]

theorem resultOf_eq {call call' fn fn' : Ref} (hcall : p.Twin n g g' call call')
    (hfn : p.Twin n g g' fn fn') (i : Nat) :
    (Env.ofPackage p').resultOf call' fn' i = (Env.ofPackage p).resultOf call fn i := by
  unfold Env.resultOf
  rw [← hfn.text, h.namedType_eq, h.allocatedType_eq hcall,
    isSome_eq_of_rel (h.rel_types fn.node.text)]
  obtain ⟨hnone, hnone'⟩ | ⟨decl, decl', hdecl, hdecl', hfile, hresult⟩ :=
    rel_cases (h.rel_funcs fn.node.text)
  · rw [hnone, hnone']
  · rw [hdecl, hdecl']
    exact h.declaredResult_eq hfile hresult i

theorem bindParameter_eq {r r' : Ref} (hr : p.Twin n g g' r r') (name : String) :
    (Env.ofPackage p').bindParameter r' name = (Env.ofPackage p).bindParameter r name := by
  refine (map_eq_of_rel (rel_find? ?_ hr.forall₂_paramDecls) ?_).symm
  · intro d d' hd
    rw [← Tree.names_bare, hd, Tree.names_bare]
  · intro d d' hd
    rw [← Tree.kind_bare, hd, Tree.kind_bare, ← hr.1,
      bind_eq_of_rel (Tree.rel_child? hd .type) fun _ _ ht => (h.typeExpr_congr r.file ht).symm]

omit h in
theorem through_alike {r r' : Option Ref} (hr : Option.Rel (p.Twin n g g') r r')
    (f : Ty → Option Ty) : (Env.through f r).Alike (p.Twin n g g') (Env.through f r') := by
  cases hr with
  | none => exact ⟨.nil, .known none⟩
  | some hr => exact ⟨.nil, .follow (.type hr) f⟩

omit h in
theorem valueOutcome_alike {values values' : Option Ref}
    (hvalues : Option.Rel (p.Twin n g g') values values') (i count : Nat) :
    (Env.valueOutcome i count values).Alike (p.Twin n g g')
      (Env.valueOutcome i count values') := by
  have hrefs := rel_valueRefs hvalues
  unfold Env.valueOutcome
  rw [hrefs.length_eq]
  by_cases hlength : (valueRefs values').length = count
  · rw [if_pos hlength, if_pos hlength]
    obtain ⟨hnone, hnone'⟩ | ⟨e, e', he, he', htwin⟩ := rel_cases (rel_getElem? hrefs i)
    · rw [hnone, hnone']
      exact .known none
    · rw [he, he']
      exact .follow (.type htwin) some
  · rw [if_neg hlength, if_neg hlength]
    generalize valueRefs values = es at hrefs
    generalize valueRefs values' = es' at hrefs
    cases hrefs with
    | nil => exact .known none
    | cons he hrest =>
      cases hrest with
      | nil =>
        dsimp only
        rw [he.kind]
        split_ifs
        · exact .follow (.result he i) some
        · exact .follow (.type he) some
        · exact .known none
      | cons => exact .known none

omit h in
theorem shortOutcome_alike {r r' : Ref} (hr : p.Twin n g g' r r') (name : String) :
    (Env.shortOutcome r name).Alike (p.Twin n g g') (Env.shortOutcome r' name) := by
  rw [Env.shortOutcome, Env.shortOutcome, hr.leftNames]
  exact valueOutcome_alike (hr.child? .right) _ _

theorem specOutcome_alike {r r' : Ref} (hr : p.Twin n g g' r r') (name : String) :
    ((Env.ofPackage p).specOutcome name r).Alike (p.Twin n g g')
      ((Env.ofPackage p').specOutcome name r') := by
  unfold Env.specOutcome
  obtain ⟨hnone, hnone'⟩ | ⟨t, t', ht, ht', hbare⟩ := rel_cases (Tree.rel_child? hr.bare .type)
  · rw [hnone, hnone', hr.names]
    exact valueOutcome_alike (hr.child? .value) _ _
  · rw [ht, ht']
    dsimp only
    rw [← hr.1, h.typeExpr_congr _ hbare]
    exact .known _

theorem specsScript_alike {specs specs' : List Ref}
    (hspecs : List.Forall₂ (p.Twin n g g') specs specs') (name : String) :
    ((Env.ofPackage p).specsScript name specs).Alike (p.Twin n g g')
      ((Env.ofPackage p').specsScript name specs') := by
  induction hspecs with
  | nil => exact ⟨.nil, .known none⟩
  | cons hspec hrest ih =>
    have hfirst := h.specOutcome_alike hspec name
    cases hrest with
    | nil => exact ⟨.nil, hfirst⟩
    | cons =>
      refine ⟨List.rel_append ?_ ih.before, ih.outcome⟩
      revert hfirst
      generalize (Env.ofPackage p).specOutcome name _ = outcome
      generalize (Env.ofPackage p').specOutcome name _ = outcome'
      intro hfirst
      cases hfirst with
      | known => exact .nil
      | follow hq => exact .cons hq .nil

/-- What is asked for a name that a statement binds. -/
theorem bindScript_alike {r r' : Ref} (hr : p.Twin n g g' r r') (name : String) :
    ((Env.ofPackage p).bindScript r name).Alike (p.Twin n g g')
      ((Env.ofPackage p').bindScript r' name) := by
  unfold Env.bindScript
  rw [hr.kind]
  split
  · rw [h.bindParameter_eq hr]
    exact ⟨.nil, .known _⟩
  · exact ⟨.nil, shortOutcome_alike hr name⟩
  · refine h.specsScript_alike (List.rel_filter ?_ hr.specs) name
    intro spec spec' hspec
    simp only [hspec.names]
  · obtain ⟨hnone, hnone'⟩ | ⟨init, init', hinit, hinit', htwin⟩ := rel_cases hr.shortInitializer?
    · rw [hnone, hnone']
      exact ⟨.nil, .known none⟩
    · rw [hinit, hinit']
      exact ⟨.nil, shortOutcome_alike htwin name⟩
  · rw [hr.leftNames]
    split_ifs
    · exact through_alike (hr.child? .right) _
    · exact ⟨.nil, .known none⟩
  · exact ⟨.nil, .known none⟩

theorem nameScript_alike {r r' : Ref} (hr : p.Twin n g g' r r') :
    ((Env.ofPackage p).nameScript r).Alike (p.Twin n g g')
      ((Env.ofPackage p').nameScript r') := by
  unfold Env.nameScript
  obtain ⟨hnone, hnone'⟩ | ⟨b, b', hb, hb', hbound⟩ := rel_cases (h.rel_origin hr)
  · rw [hnone, hnone']
    exact ⟨.nil, .known none⟩
  · rw [hb, hb']
    cases hbound with
    | declared hstmt =>
      dsimp only
      rw [← hr.text]
      exact h.bindScript_alike hstmt r.node.text
    | inCase b => exact ⟨.nil, .known _⟩

/-- What is asked about the operand of a selector. -/
theorem selector_alike {operand operand' : Ref} (hoperand : p.Twin n g g' operand operand')
    (inPackage : Option Ty) (f : Ty → Option Ty) :
    Script.Alike (p.Twin n g g')
      ⟨(Env.ofPackage p).packageQuestions operand,
        if (Env.ofPackage p).isPackage operand then .known inPackage
        else .follow (.type operand) f⟩
      ⟨(Env.ofPackage p').packageQuestions operand',
        if (Env.ofPackage p').isPackage operand' then .known inPackage
        else .follow (.type operand') f⟩ := by
  refine ⟨h.forall₂_packageQuestions hoperand, ?_⟩
  dsimp only
  rw [h.isPackage_eq hoperand]
  split_ifs
  · exact .known inPackage
  · exact .follow (.type hoperand) f

theorem resultScript_alike {r r' : Ref} (hr : p.Twin n g g' r r') (i : Nat) :
    ((Env.ofPackage p).resultScript r i).Alike (p.Twin n g g')
      ((Env.ofPackage p').resultScript r' i) := by
  unfold Env.resultScript
  obtain ⟨hnone, hnone'⟩ | ⟨fn, fn', hfn, hfn', htwin⟩ := rel_cases (hr.child? .function)
  · rw [hnone, hnone']
    exact ⟨.nil, .known none⟩
  · rw [hfn, hfn']
    dsimp only
    rw [htwin.kind]
    split
    · rw [isSome_eq_of_rel (h.rel_origin htwin), h.resultOf_eq hr htwin]
      exact ⟨.cons (.name htwin) .nil, .known _⟩
    · obtain ⟨hnone, hnone'⟩ | ⟨operand, operand', ho, ho', hoperand⟩ :=
        rel_cases (htwin.child? .operand)
      · rw [hnone, hnone']
        exact ⟨.nil, .known none⟩
      · obtain ⟨hnone, hnone'⟩ | ⟨field, field', hf, hf', hfield⟩ :=
          rel_cases (htwin.child? .field)
        · rw [ho, ho', hnone, hnone']
          exact ⟨.nil, .known none⟩
        · rw [ho, ho', hf, hf']
          dsimp only
          rw [← hfield.text, ← hoperand.text, ← hoperand.1, h.importPath?_eq,
            funext (h.methodOf_eq field.node.text i)]
          exact h.selector_alike hoperand _ _
    · exact ⟨.nil, .known none⟩

theorem typeScript_alike {r r' : Ref} (hr : p.Twin n g g' r r') :
    ((Env.ofPackage p).typeScript r).Alike (p.Twin n g g')
      ((Env.ofPackage p').typeScript r') := by
  unfold Env.typeScript
  rw [hr.kind]
  split
  · exact ⟨.nil, .follow (.name hr) some⟩
  · exact through_alike hr.firstItem? some
  · obtain ⟨hnone, hnone'⟩ | ⟨operand, operand', ho, ho', hoperand⟩ :=
      rel_cases (hr.child? .operand)
    · rw [hnone, hnone']
      exact ⟨.nil, .known none⟩
    · obtain ⟨hnone, hnone'⟩ | ⟨field, field', hf, hf', hfield⟩ := rel_cases (hr.child? .field)
      · rw [ho, ho', hnone, hnone']
        exact ⟨.nil, .known none⟩
      · rw [ho, ho', hf, hf']
        dsimp only
        rw [← hfield.text, funext (h.fieldOf_eq field.node.text)]
        exact h.selector_alike hoperand none _
  · exact ⟨.nil, .follow (.result hr 0) some⟩
  · rw [h.typeChild_eq hr]
    exact ⟨.nil, .known _⟩
  · rw [h.typeChild_eq hr]
    exact ⟨.nil, .known _⟩
  · exact through_alike (hr.child? .operand) _
  · exact through_alike (hr.child? .operand) _
  · obtain ⟨hnone, hnone'⟩ | ⟨operator, operator', hop, hop', hbare⟩ :=
      rel_cases (Tree.rel_child? hr.bare .operator)
    · rw [hnone, hnone']
      exact ⟨.nil, .known none⟩
    · obtain ⟨hnone, hnone'⟩ | ⟨operand, operand', ho, ho', hoperand⟩ :=
        rel_cases (hr.child? .operand)
      · rw [hop, hop', hnone, hnone']
        exact ⟨.nil, .known none⟩
      · rw [hop, hop', ho, ho']
        dsimp only
        rw [← Tree.kind_bare, hbare, Tree.kind_bare, hoperand.kind]
        split_ifs
        · exact ⟨.nil, .follow (.type hoperand) _⟩
        · exact ⟨.nil, .known none⟩
  · exact ⟨.nil, .known none⟩

/-- What is asked about a node, is asked about its twin. -/
theorem script_alike {q q' : Question} (hq : q.Alike (p.Twin n g g') q') :
    ((Env.ofPackage p).script q).Alike (p.Twin n g g') ((Env.ofPackage p').script q') := by
  cases hq with
  | type hr => exact h.typeScript_alike hr
  | name hr => exact h.nameScript_alike hr
  | result hr i => exact h.resultScript_alike hr i

/-! ## Twins correspond to one another -/

/-- A node whose type is looked for shares its identity only with itself, and so does its twin. -/
theorem id_eq_of_id_eq {r r' s s' : Ref} (hr : p.Twin n g g' r r') (hs : p.Twin n g g' s s')
    (hbusy : ¬ (Env.ofPackage p).Idle (.type r)) (hid : r.id = s.id) : r'.id = s'.id := by
  have hmem : r ∈ (Env.ofPackage p).refs := hr.2.mem_refs h.file
  have hmem' : s ∈ (Env.ofPackage p).refs := hs.2.mem_refs h.file
  have hanchored : r.node.kind.isAnchored = true :=
    Bool.eq_true_of_not_eq_false fun hfree => hbusy (Env.idle_of_not_anchored hfree)
  have hspan : r.node.start < r.node.stop := by
    obtain ⟨f, hf, hwalk⟩ := Env.mem_refs.mp hmem
    have hparse := h.parsed f (List.mem_of_getElem? hf)
    have hnode := Tree.node_mem_walk hwalk
    exact ((Code.parse?_laid hparse).of_mem_walk hnode).start_lt_stop
      (fun m hm => Code.parse?_formed Code.anchors_agrees hparse (Tree.mem_walk_trans hnode hm))
      hanchored
  obtain rfl := (Env.eq_or_idle_of_id_eq h.parsed hmem hmem' hid).resolve_right
    fun hidle => hbusy hidle.1
  rw [Ref.id, Ref.id, Ref.node, Ref.node, h.twins_unique hr.2 hs.2 hspan, ← hr.1, ← hs.1]

theorem matching : (Env.ofPackage p).Matching (Env.ofPackage p') (p.Twin n g g') where
  lawful := ⟨Env.closed_ofPackage p, Env.listed_ofPackage p, h.parsed⟩
  lawful' := ⟨Env.closed_ofPackage p', Env.listed_ofPackage p', h.parsed'⟩
  mem r r' hr := hr.2.mem_refs h.file
  mem' r r' hr := (h.twin_symm hr).2.mem_refs h.file'
  script q q' hq := h.script_alike hq
  same r r' s s' hr hs hbusy := by
    have hbusy' : ¬ (Env.ofPackage p').Idle (.type r') := fun hidle =>
      hbusy ((h.script_alike (.type hr)).idle_iff.mpr hidle)
    constructor
    · exact h.id_eq_of_id_eq hr hs hbusy
    · exact h.symm.id_eq_of_id_eq (h.twin_symm hr) (h.twin_symm hs) hbusy'

end Exchanged

end Package

end CtxThread

import CtxThread.Proofs.Shadow
import CtxThread.Proofs.Types.Written

/-!
# Imported types and types of the package

A type that a question asks for stems from a type written in a file, with a plain name or with that of
an imported package. Answers only tell the package and the name of a type, and a package may import
another one by its own name. Where that does not come in between, the answers keep the two sorts of
types apart: what is answered for a selector or a call is told by the declarations of the package
only if the value it is selected from stems from a type of the package.

## Main definitions

- `Env.Stems`: the type that a question asks for is spelled so where it is written
- `Env.Shared`: a question leads to a type of an imported package that goes by the name of the
  package itself
- `Env.KeepsApart`: the answers from a memo take no imported type for one of the package

## Main statements

- `Env.exists_stems_of_means`, `Env.Stems.type_eq`: a question stands for the type it stems from
- `Env.not_shared`: no question is shared if no file imports a package by the name of the package
- `Env.Reached.keepsApart`: unless a question is shared, imported types are kept apart
-/

namespace CtxThread

open Code (Tree)

open Relation (ReflTransGen)

namespace Env

variable (env : Env)

/-- The type that a question asks for is spelled so where it is written. -/
inductive Stems : Question → Spelling → Prop
  | written {q : Question} {file : Nat} {e : TypeExpr} {s : Spelling} (h : env.Writes q file e)
      (hs : env.Spells file e s) : Stems q s
  /-- Only a container is made. -/
  | make {call fn : Ref} {t : Tree} {kind : Container} {s : Spelling}
      (hfn : call.child? .function = some fn) (hkind : fn.node.kind = .identifier)
      (h : env.origin fn = none) (hfunc : env.index.funcs.lookup fn.node.text = none)
      (htype : env.index.types.lookup fn.node.text = none) (hmake : fn.node.text = "make")
      (ht : call.node.arguments.head? = some t)
      (hs : env.Spells call.file (.ofOperand t) (.container kind s)) :
      Stems (.result call 0) (.container kind s)
  /-- The type is that of another expression. -/
  | same {q q' : Question} {s : Spelling} (h : (env.script q).outcome = .follow q' some)
      (hs : Stems q' s) : Stems q s
  | element {q q' : Question} {s s' : Spelling} (h : (env.script q).outcome = .follow q' Ty.elem?)
      (hs : Stems q' s) (hs' : s.elem? = some s') : Stems q s'
  | slice {q q' : Question} {s s' : Spelling} (h : (env.script q).outcome = .follow q' Ty.sliced?)
      (hs : Stems q' s) (hs' : s.sliced? = some s') : Stems q s'
  | address {q q' : Question} {s s' : Spelling}
      (h : (env.script q).outcome = .follow q' Ty.address?) (hs : Stems q' s)
      (hs' : s.address? = some s') : Stems q s'
  /-- A field is written by the struct type that the operand is of. -/
  | field {sel operand field : Ref} {t : Tree} {name : String} {pointer : Bool} {file : Nat}
      {s : Spelling} (hsel : sel.selected? = some (operand, field))
      (hpackage : env.isPackage operand = false) (ho : Stems (.type operand) (.declared name pointer))
      (ht : env.fieldType? name field.node.text = some (file, t)) (hs : env.Spells file (.ofTree t) s) :
      Stems (.type sel) s
  /-- A method writes its results. -/
  | method {call fn operand field decl : Ref} {i : Nat} {t : Tree} {name : String}
      {pointer : Bool} {s : Spelling} (hfn : call.child? .function = some fn)
      (hsel : fn.selected? = some (operand, field)) (hpackage : env.isPackage operand = false)
      (ho : Stems (.type operand) (.declared name pointer))
      (hdecl : env.index.methods.lookup (name, field.node.text) = some decl)
      (ht : resultType? decl i = some t) (hs : env.Spells decl.file (.ofTree t) s) :
      Stems (.result call i) s
  /-- A function of an imported package has known results, -/
  | function {call fn operand field : Ref} {i : Nat} {path name : String}
      (hfn : call.child? .function = some fn) (hsel : fn.selected? = some (operand, field))
      (hpackage : env.isPackage operand = true)
      (hpath : env.importPath? operand.file operand.node.text = some path)
      (h : Known.functionResult? path field.node.text i = some (.named path name true)) :
      Stems (.result call i) (.imported path name true)
  /-- and so has a method of a pointer to an imported type. -/
  | knownMethod {call fn operand field : Ref} {i : Nat} {path type name : String}
      (hfn : call.child? .function = some fn) (hsel : fn.selected? = some (operand, field))
      (hpackage : env.isPackage operand = false)
      (ho : Stems (.type operand) (.imported path type true))
      (h : Known.methodResult? path type field.node.text i = some (.named path name true)) :
      Stems (.result call i) (.imported path name true)

/-- A question leads to a type of an imported package that goes by the name of the package itself,
which declares a type of the same name. -/
def Shared (q : Question) : Prop :=
  ∃ q', ReflTransGen env.Leads q q' ∧ ∃ name pointer,
    env.Stems q' (.imported env.package name pointer) ∧ (env.index.types.lookup name).isSome

variable {env : Env} {q q' : Question} {s s' : Spelling} {t : Ty}

/-! ## Where types stem from -/

theorem Stems.finds (hs : env.Stems q s) : env.Finds s := by
  induction hs with
  | written _ hs => exact hs.finds
  | make _ _ _ _ _ _ _ hs => exact hs.finds
  | same _ _ ih => exact ih
  | element _ _ hs' ih => exact ih.elem? hs'
  | slice _ _ hs' ih => exact ih.sliced? hs'
  | address _ _ hs' ih => exact ih.address? hs'
  | field _ _ _ _ hs => exact hs.finds
  | method _ _ _ _ _ _ hs => exact hs.finds
  | function _ _ _ hpath _ => exact ⟨_, _, hpath⟩
  | knownMethod _ _ _ _ _ ih => exact ih

/-- The type of a declared name is one of the package. -/
theorem isLocal_of_finds {name : String} {pointer : Bool}
    (h : env.Finds (.declared name pointer)) :
    env.isLocal (.named env.package name pointer) = true := by
  have hsome : (env.index.types.lookup name).isSome = true := h
  simp [isLocal, hsome]

theorem Shared.of_leads (hlead : env.Leads q q') (h : env.Shared q') : env.Shared q := by
  obtain ⟨r, hr, h⟩ := h
  exact ⟨r, .head hlead hr, h⟩

theorem leads_of_follow {f : Ty → Option Ty} (h : (env.script q).outcome = .follow q' f) :
    env.Leads q q' := by
  rw [Leads, h]
  rfl

/-- An imported type is not taken for one of the package. -/
theorem Stems.isLocal_eq_false {path name : String} {pointer : Bool}
    (hs : env.Stems q (.imported path name pointer)) (hq : ¬ env.Shared q) :
    env.isLocal (.named path name pointer) = false := by
  by_contra hlocal
  rw [Bool.not_eq_false, isLocal, Bool.and_eq_true, decide_eq_true_eq] at hlocal
  obtain ⟨rfl, hname⟩ := hlocal
  exact hq ⟨q, .refl, name, pointer, hs, hname⟩

/-- The fields of a value are those of a declared type. -/
theorem exists_stems_field {sel operand field : Ref}
    (hsel : sel.selected? = some (operand, field)) (hpackage : env.isPackage operand = false)
    (ho : env.Stems (.type operand) s) (hshared : ¬ env.Shared (.type operand))
    (h : env.fieldOf field.node.text (s.type env.package) = some t) :
    ∃ s', env.Stems (.type sel) s' ∧ s'.type env.package = t := by
  cases s with
  | declared name pointer =>
    have h : env.fieldType name field.node.text = some t := by
      simpa only [Spelling.type, fieldOf, if_pos (isLocal_of_finds ho.finds)] using h
    rw [fieldType_eq] at h
    obtain ⟨⟨file, tree⟩, htree, h⟩ := Option.bind_eq_some_iff.mp h
    obtain ⟨s', hs', hst⟩ := exists_spells h
    exact ⟨s', .field hsel hpackage ho htree hs', hst⟩
  | imported path name pointer =>
    rw [Spelling.type, fieldOf, ho.isLocal_eq_false hshared] at h
    cases h
  | container kind elem => cases h

/-- The methods of a value are those of a declared type, or known ones of an imported type. -/
theorem exists_stems_method {call fn operand field : Ref} {i : Nat}
    (hfn : call.child? .function = some fn) (hsel : fn.selected? = some (operand, field))
    (hpackage : env.isPackage operand = false) (ho : env.Stems (.type operand) s)
    (hshared : ¬ env.Shared (.type operand))
    (h : env.methodOf field.node.text i (s.type env.package) = some t) :
    ∃ s', env.Stems (.result call i) s' ∧ s'.type env.package = t := by
  cases s with
  | declared name pointer =>
    rw [Spelling.type, methodOf, if_pos (isLocal_of_finds ho.finds)] at h
    obtain ⟨decl, hdecl, h⟩ := Option.bind_eq_some_iff.mp h
    rw [declaredResult_eq] at h
    obtain ⟨tree, htree, h⟩ := Option.bind_eq_some_iff.mp h
    obtain ⟨s', hs', hst⟩ := exists_spells h
    exact ⟨s', .method hfn hsel hpackage ho hdecl htree hs', hst⟩
  | imported path name pointer =>
    rw [Spelling.type, methodOf, ho.isLocal_eq_false hshared, if_neg Bool.false_ne_true] at h
    cases pointer with
    | false => cases h
    | true =>
      obtain ⟨result, rfl⟩ := exists_of_methodResult? h
      exact ⟨_, .knownMethod hfn hsel hpackage ho h, rfl⟩
  | container kind elem => cases h

/-- A type that a question stands for stems from where it is written. -/
theorem exists_stems_of_means (h : env.Means q t) (hq : ¬ env.Shared q) :
    ∃ s, env.Stems q s ∧ s.type env.package = t := by
  induction h with
  | @known q t h =>
    have hway : env.Way q _ := way_script q
    rw [h] at hway
    cases hway with
    | written hq ha =>
      obtain ⟨s, hs, hst⟩ := exists_spells ha
      exact ⟨s, .written hq hs, hst⟩
    | make hfn hkind horigin hfunc htype hmake ht ha =>
      obtain ⟨t', ht', ha⟩ := Option.bind_eq_some_iff.mp ha
      obtain ⟨elem, helem, rfl⟩ := Option.map_eq_some_iff.mp ha
      obtain ⟨s, hs, rfl⟩ := exists_spells ht'
      rw [Spelling.elem?_type] at helem
      cases s with
      | declared => cases helem
      | imported => cases helem
      | container kind s => exact ⟨_, .make hfn hkind horigin hfunc htype hmake ht hs, rfl⟩
    | function hfn hsel hpackage ha =>
      obtain ⟨path, hpath, ha⟩ := Option.bind_eq_some_iff.mp ha
      obtain ⟨name, rfl⟩ := exists_of_functionResult? ha
      exact ⟨_, .function hfn hsel hpackage hpath ha, rfl⟩
  | @follow q q' f t t' h hmeans ht ih =>
    have hq' : ¬ env.Shared q' := fun hshared => hq (hshared.of_leads (leads_of_follow h))
    obtain ⟨s, hs, rfl⟩ := ih hq'
    have hway : env.Way q _ := way_script q
    rw [h] at hway
    cases hway with
    | same =>
      cases ht
      exact ⟨s, .same h hs, rfl⟩
    | element =>
      rw [Spelling.elem?_type] at ht
      obtain ⟨s', hs', rfl⟩ := Option.map_eq_some_iff.mp ht
      exact ⟨s', .element h hs hs', rfl⟩
    | slice =>
      rw [Spelling.sliced?_type] at ht
      obtain ⟨s', hs', rfl⟩ := Option.map_eq_some_iff.mp ht
      exact ⟨s', .slice h hs hs', rfl⟩
    | address =>
      rw [Spelling.address?_type] at ht
      obtain ⟨s', hs', rfl⟩ := Option.map_eq_some_iff.mp ht
      exact ⟨s', .address h hs hs', rfl⟩
    | field hsel hpackage => exact exists_stems_field hsel hpackage hs hq' ht
    | method hfn hsel hpackage => exact exists_stems_method hfn hsel hpackage hs hq' ht

/-- Where an answer is made from another one, its spelling is made in the same way. -/
theorem type_eq_of_follow {f : Ty → Option Ty} {g : Spelling → Option Spelling}
    (houtcome : (env.script q).outcome = .follow q' f)
    (hfg : f (s.type env.package) = (g s).map (Spelling.type env.package)) (hs' : g s = some s')
    (heq : ∀ t', env.Means q' t' → s.type env.package = t') (h : env.Means q t) :
    s'.type env.package = t := by
  obtain ⟨t', hmeans, ht'⟩ := (means_iff_follow houtcome).mp h
  rw [← heq t' hmeans, hfg, hs'] at ht'
  exact Option.some.inj ht'

/-- A question stands for no other type than the one it stems from. -/
theorem Stems.type_eq (hs : env.Stems q s) (hq : ¬ env.Shared q) (h : env.Means q t) :
    s.type env.package = t := by
  induction hs generalizing t with
  | written hwrites hs => exact hs.type_eq ((means_iff_known hwrites.outcome_eq).mp h)
  | make hfn hkind horigin hfunc htype hmake ht hs =>
    rw [means_iff_known (outcome_call _ hfn hkind horigin),
      resultOf_of_allocation hfunc htype (.inr hmake), allocatedType, ht, Option.bind_some,
      typeOperand_eq] at h
    obtain ⟨t', ht', h⟩ := Option.bind_eq_some_iff.mp h
    rw [if_pos hmake] at h
    obtain ⟨_, _, rfl⟩ := Option.map_eq_some_iff.mp h
    exact hs.type_eq ht'
  | same houtcome _ ih =>
    have hq' := fun hs => hq (Shared.of_leads (leads_of_follow houtcome) hs)
    exact type_eq_of_follow (g := some) houtcome rfl rfl (fun _ => ih hq') h
  | element houtcome _ hs' ih =>
    have hq' := fun hs => hq (Shared.of_leads (leads_of_follow houtcome) hs)
    exact type_eq_of_follow houtcome (Spelling.elem?_type _ _) hs' (fun _ => ih hq') h
  | slice houtcome _ hs' ih =>
    have hq' := fun hs => hq (Shared.of_leads (leads_of_follow houtcome) hs)
    exact type_eq_of_follow houtcome (Spelling.sliced?_type _ _) hs' (fun _ => ih hq') h
  | address houtcome _ hs' ih =>
    have hq' := fun hs => hq (Shared.of_leads (leads_of_follow houtcome) hs)
    exact type_eq_of_follow houtcome (Spelling.address?_type _ _) hs' (fun _ => ih hq') h
  | field hsel hpackage ho ht hs ih =>
    have houtcome := outcome_field hsel hpackage
    have hq' := fun hs => hq (Shared.of_leads (leads_of_follow houtcome) hs)
    obtain ⟨t', hmeans, ht'⟩ := (means_iff_follow houtcome).mp h
    rw [← ih hq' hmeans, Spelling.type, fieldOf, if_pos (isLocal_of_finds ho.finds),
      fieldType_eq, ht] at ht'
    exact hs.type_eq ht'
  | @method _ _ _ _ _ i _ _ _ _ hfn hsel hpackage ho hdecl ht hs ih =>
    have houtcome := outcome_method i hfn hsel hpackage
    have hq' := fun hs => hq (Shared.of_leads (leads_of_follow houtcome) hs)
    obtain ⟨t', hmeans, ht'⟩ := (means_iff_follow houtcome).mp h
    rw [← ih hq' hmeans, Spelling.type, methodOf, if_pos (isLocal_of_finds ho.finds), hdecl,
      Option.bind_some, declaredResult_eq, ht] at ht'
    exact hs.type_eq ht'
  | function hfn hsel hpackage hpath hresult =>
    rw [means_iff_known (outcome_function _ hfn hsel hpackage), hpath, Option.bind_some,
      hresult] at h
    exact Option.some.inj h
  | @knownMethod _ _ _ _ i _ _ _ hfn hsel hpackage ho hresult ih =>
    have houtcome := outcome_method i hfn hsel hpackage
    have hq' := fun hs => hq (Shared.of_leads (leads_of_follow houtcome) hs)
    obtain ⟨t', hmeans, ht'⟩ := (means_iff_follow houtcome).mp h
    rw [← ih hq' hmeans, Spelling.type, methodOf, ho.isLocal_eq_false hq',
      if_neg Bool.false_ne_true, if_pos rfl, hresult] at ht'
    exact Option.some.inj ht'

/-- No question is shared in a package that no file imports a package by the name of. -/
theorem not_shared (h : ∀ file name, env.importPath? file name ≠ some env.package)
    (q : Question) : ¬ env.Shared q := by
  rintro ⟨q', _, name, pointer, hs, _⟩
  obtain ⟨file, name, himport⟩ := hs.finds
  exact h file name himport

/-! ## Answers -/

theorem ne_some_of_eq_none {f : Ty → Option Ty} (h : f t = none) : f ≠ some := by
  rintro rfl
  cases h

/-- Where an answer is that to another question, both stem from the same type. -/
theorem Stems.of_follow (hs : env.Stems q s) (h : (env.script q).outcome = .follow q' some) :
    env.Stems q' s := by
  cases hs with
  | written hwrites _ =>
    rw [hwrites.outcome_eq] at h
    cases h
  | make hfn hkind horigin _ _ _ _ _ =>
    rw [outcome_call _ hfn hkind horigin] at h
    cases h
  | same houtcome hs =>
    rw [houtcome] at h
    cases h
    exact hs
  | element houtcome _ _ =>
    rw [houtcome] at h
    exact absurd (Outcome.follow.inj h).2 (ne_some_of_eq_none (t := .named "" "" true) rfl)
  | slice houtcome _ _ =>
    rw [houtcome] at h
    exact absurd (Outcome.follow.inj h).2 (ne_some_of_eq_none (t := .named "" "" true) rfl)
  | address houtcome _ _ =>
    rw [houtcome] at h
    exact absurd (Outcome.follow.inj h).2 (ne_some_of_eq_none (t := .named "" "" true) rfl)
  | field hsel hpackage _ _ _ =>
    rw [outcome_field hsel hpackage] at h
    exact absurd (Outcome.follow.inj h).2
      (ne_some_of_eq_none (t := .container .map (.named "" "" true)) rfl)
  | method hfn hsel hpackage _ _ _ _ =>
    rw [outcome_method _ hfn hsel hpackage] at h
    exact absurd (Outcome.follow.inj h).2
      (ne_some_of_eq_none (t := .container .map (.named "" "" true)) rfl)
  | function hfn hsel hpackage _ _ =>
    rw [outcome_function _ hfn hsel hpackage] at h
    cases h
  | knownMethod hfn hsel hpackage _ _ =>
    rw [outcome_method _ hfn hsel hpackage] at h
    exact absurd (Outcome.follow.inj h).2
      (ne_some_of_eq_none (t := .container .map (.named "" "" true)) rfl)

/-- A name whose type is written somewhere is bound there. -/
theorem Stems.origin_ne_none {x : Ref} (hs : env.Stems (.name x) s) : env.origin x ≠ none := by
  intro horigin
  have houtcome : (env.script (.name x)).outcome = .known none :=
    congrArg Script.outcome (idle_name_of_origin horigin)
  cases hs with
  | written hwrites _ =>
    cases hwrites with
    | parameter h => rw [horigin] at h; cases h
    | spec h => rw [horigin] at h; cases h
    | inCase h => rw [horigin] at h; cases h
  | same h _ => rw [houtcome] at h; cases h
  | element h _ _ => rw [houtcome] at h; cases h
  | slice h _ _ => rw [houtcome] at h; cases h
  | address h _ _ => rw [houtcome] at h; cases h

/-- A name that stands for a package has no type. -/
theorem isPackage_eq_false_of_stems {operand : Ref} (hs : env.Stems (.type operand) s) :
    env.isPackage operand = false := by
  by_contra hpackage
  rw [Bool.not_eq_false, isPackage, Bool.and_eq_true, mayBePackage, Bool.and_eq_true,
    decide_eq_true_eq, Option.isNone_iff_eq_none] at hpackage
  obtain ⟨⟨hkind, _⟩, horigin⟩ := hpackage
  have htype : (env.script (.type operand)).outcome = .follow (.name operand) some := by
    simp [script, typeScript, hkind]
  exact (hs.of_follow htype).origin_ne_none horigin

/-- Answers from the memo `m` take no imported type for one of the package. -/
structure KeepsApart (env : Env) (m : Memo) : Prop where
  /-- An answer is the type that the question stems from, and it is one of the package exactly if
  it is written with a plain name. -/
  answer {q : Question} {t : Ty} {m' : Memo} (hq : q.subject ∈ env.refs)
    (hshared : ¬ env.Shared q) (h : (env.oracle env.depth).ask q m = some (some t, m')) :
    ∃ s, env.Stems q s ∧ s.type env.package = t ∧
      (env.isLocal t = true ↔ ∃ name pointer, s = .declared name pointer)
  /-- A value of an imported type has no fields here. -/
  selector {sel operand field : Ref} {path name : String} {pointer : Bool} {a : Option Ty}
    {m' : Memo} (hmem : sel ∈ env.refs) (hsel : sel.selected? = some (operand, field))
    (hs : env.Stems (.type operand) (.imported path name pointer))
    (hshared : ¬ env.Shared (.type operand)) (h : env.typeOf sel m = some (a, m')) : a = none
  /-- Of its methods only known ones have results. -/
  method {call fn operand field : Ref} {i : Nat} {path name : String} {pointer : Bool} {t : Ty}
    {m' : Memo} (hmem : call ∈ env.refs) (hfn : call.child? .function = some fn)
    (hsel : fn.selected? = some (operand, field))
    (hs : env.Stems (.type operand) (.imported path name pointer))
    (hshared : ¬ env.Shared (.type operand)) (h : env.callResult call i m = some (some t, m')) :
    pointer = true ∧ Known.methodResult? path name field.node.text i = some t

/-- A spelling is of a type of the package exactly if it is a plain name. -/
theorem isLocal_type_iff (hs : env.Stems q s) (hq : ¬ env.Shared q) :
    env.isLocal (s.type env.package) = true ↔ ∃ name pointer, s = .declared name pointer := by
  cases s with
  | declared name pointer =>
    exact ⟨fun _ => ⟨name, pointer, rfl⟩, fun _ => isLocal_of_finds hs.finds⟩
  | imported path name pointer => simp [Spelling.type, hs.isLocal_eq_false hq]
  | container kind elem => simp [Spelling.type, isLocal]

/-- Unless a question leads to a type of a package imported by the name of the package itself,
imported types are never taken for types of the package. -/
theorem Reached.keepsApart {p : Package}
    (hparsed : ∀ f ∈ p.files, Code.parse? f.src = some f.root) {m : Memo}
    (hm : (ofPackage p).Reached m) : (ofPackage p).KeepsApart m where
  answer := by
    intro q t m' hq hshared h
    have hmeans := hm.means (closed_ofPackage p) (listed_ofPackage p) hparsed hq h rfl
    obtain ⟨s, hs, rfl⟩ := exists_stems_of_means hmeans hshared
    exact ⟨s, hs, rfl, isLocal_type_iff hs hshared⟩
  selector := by
    intro sel operand field path name pointer a m' hmem hsel hs hshared h
    cases a with
    | none => rfl
    | some t =>
      have hmeans := hm.means (closed_ofPackage p) (listed_ofPackage p) hparsed (q := .type sel)
        hmem h rfl
      have houtcome := outcome_field hsel (isPackage_eq_false_of_stems hs)
      obtain ⟨t', ht', ht⟩ := (means_iff_follow houtcome).mp hmeans
      rw [← hs.type_eq hshared ht', Spelling.type, fieldOf, hs.isLocal_eq_false hshared] at ht
      cases ht
  method := by
    intro call fn operand field i path name pointer t m' hmem hfn hsel hs hshared h
    have hmeans := hm.means (closed_ofPackage p) (listed_ofPackage p) hparsed (q := .result call i)
      hmem h rfl
    have houtcome := outcome_method i hfn hsel (isPackage_eq_false_of_stems hs)
    obtain ⟨t', ht', ht⟩ := (means_iff_follow houtcome).mp hmeans
    rw [← hs.type_eq hshared ht', Spelling.type, methodOf, hs.isLocal_eq_false hshared,
      if_neg Bool.false_ne_true] at ht
    cases pointer with
    | false => cases ht
    | true => exact ⟨rfl, ht⟩

/-! ## A type of the same name -/

/-- A selector of a parameter whose type is written as the type `name` of the package imported from
`path`. -/
def selectsImported (env : Env) (path name : String) (sel : Ref) : Bool :=
  sel.selected?.any fun (operand, _) =>
    operand.node.kind = .identifier &&
      match env.origin operand with
      | some (.declared list) =>
        list.node.kind = .parameterList &&
          (list.node.paramDecls.find? (·.names.contains operand.node.text)).any fun d =>
            d.kind ≠ .variadicParameterDeclaration &&
              (d.child? .type).any fun t =>
                match TypeExpr.ofTree t with
                | .qualified pkg n => n = name && env.importPath? list.file pkg = some path
                | _ => false
      | _ => false

theorem stems_of_selectsImported {path name : String} {sel : Ref}
    (h : env.selectsImported path name sel = true) :
    ∃ operand field, sel.selected? = some (operand, field) ∧
      env.Stems (.type operand) (.imported path name false) := by
  obtain ⟨⟨operand, field⟩, hsel, h⟩ := (Option.any_eq_true _ _).mp h
  rw [Bool.and_eq_true, decide_eq_true_eq] at h
  obtain ⟨hident, h⟩ := h
  have houtcome : (env.script (.type operand)).outcome = .follow (.name operand) some := by
    simp [script, typeScript, hident]
  refine ⟨operand, field, hsel, .same houtcome ?_⟩
  split at h
  · rename_i list horigin
    rw [Bool.and_eq_true, decide_eq_true_eq] at h
    obtain ⟨hkind, h⟩ := h
    obtain ⟨d, hd, h⟩ := (Option.any_eq_true _ _).mp h
    rw [Bool.and_eq_true, decide_eq_true_eq] at h
    obtain ⟨hfixed, h⟩ := h
    obtain ⟨t, ht, h⟩ := (Option.any_eq_true _ _).mp h
    split at h
    · rename_i pkg n he
      rw [Bool.and_eq_true, decide_eq_true_eq, decide_eq_true_eq] at h
      obtain ⟨rfl, himport⟩ := h
      refine .written (.parameter horigin hkind hd hfixed ht) ?_
      rw [he]
      exact .imported himport
    · cases h
  · cases h

/-- A package with a type that has the name of a type of an imported package. -/
def ownStructField : Bytes := Bytes.ofString <|
  "package p\n\nimport (\n\t\"reflect\"\n\n\t\"github.com/jmoiron/sqlx\"\n)\n\n" ++
  "type StructField struct \x7b\n\tTag *sqlx.DB\n\x7d\n\n" ++
  "func f(s reflect.StructField) string \x7b\n\treturn s.Tag.Get(\"json\")\n\x7d\n"

/-- The field of the imported type is not looked for in the package. -/
theorem keepsApart_ownStructField :
    ∃ f, SourceFile.read? ⟨"", ["a.go"]⟩ ownStructField = some f ∧
      ∃ sel operand field m', sel ∈ (ofPackage ⟨"p", [f]⟩).refs ∧
        sel.selected? = some (operand, field) ∧
        (ofPackage ⟨"p", [f]⟩).Stems (.type operand) (.imported "reflect" "StructField" false) ∧
        ¬ (ofPackage ⟨"p", [f]⟩).Shared (.type operand) ∧
        (ofPackage ⟨"p", [f]⟩).fieldType "StructField" field.node.text = Known.sqlx "DB" ∧
        (ofPackage ⟨"p", [f]⟩).typeOf sel {} = some (none, m') ∧
        (ofPackage ⟨"p", [f]⟩).KeepsApart {} := by
  have h : ((SourceFile.read? ⟨"", ["a.go"]⟩ ownStructField).map fun f =>
      (f.imports.all (·.2 ≠ "p"),
        (ofPackage ⟨"p", [f]⟩).refs.any fun sel =>
          (ofPackage ⟨"p", [f]⟩).selectsImported "reflect" "StructField" sel &&
          sel.selected?.any (fun (_, field) =>
            (ofPackage ⟨"p", [f]⟩).fieldType "StructField" field.node.text = Known.sqlx "DB") &&
          ((ofPackage ⟨"p", [f]⟩).typeOf sel {}).isSome)) = some (true, true) := by
    decide +kernel
  obtain ⟨f, hf, h⟩ := Option.map_eq_some_iff.mp h
  obtain ⟨himports, hsel⟩ := Prod.mk.inj h
  obtain ⟨sel, hmem, h⟩ := List.any_eq_true.mp hsel
  rw [Bool.and_eq_true, Bool.and_eq_true] at h
  obtain ⟨⟨hselects, hfield⟩, hanswer⟩ := h
  obtain ⟨operand, field, hsel, hs⟩ := stems_of_selectsImported hselects
  rw [hsel] at hfield
  obtain ⟨⟨a, m'⟩, hanswer⟩ := Option.isSome_iff_exists.mp hanswer
  have hparsed : ∀ f' ∈ [f], Code.parse? f'.src = some f'.root := by
    obtain ⟨root, hroot, rfl⟩ := Option.map_eq_some_iff.mp hf
    simp [hroot]
  have hshared : ¬ (ofPackage ⟨"p", [f]⟩).Shared (.type operand) := by
    refine not_shared (fun file name himport => ?_) _
    obtain ⟨f', hf', hpath⟩ := Option.bind_eq_some_iff.mp himport
    rw [List.mem_singleton.mp (List.mem_of_getElem? hf')] at hpath
    have hne := List.all_eq_true.mp himports _ (mem_of_lookup_eq_some hpath)
    exact of_decide_eq_true hne rfl
  have happly := Reached.keepsApart (p := ⟨"p", [f]⟩) hparsed .empty
  have hnone : a = none := happly.selector hmem hsel hs hshared hanswer
  rw [hnone] at hanswer
  exact ⟨f, hf, sel, operand, field, m', hmem, hsel, hs, hshared, of_decide_eq_true hfield, hanswer,
    happly⟩

/-- The same in a package that goes by the path of the imported one. -/
def namesake : Bytes := Bytes.ofString <|
  "package reflect\n\nimport (\n\t\"reflect\"\n\n\t\"github.com/jmoiron/sqlx\"\n)\n\n" ++
  "type StructField struct \x7b\n\tTag *sqlx.DB\n\x7d\n\n" ++
  "func f(s reflect.StructField) string \x7b\n\treturn s.Tag.Get(\"json\")\n\x7d\n"

/-- There the field is found in the struct type of the package. -/
theorem typeOf_taken_namesake :
    ∃ f, SourceFile.read? ⟨"", ["a.go"]⟩ namesake = some f ∧ f.packageName = "reflect" ∧
      ∃ sel operand field m', sel ∈ (ofPackage ⟨"reflect", [f]⟩).refs ∧
        sel.selected? = some (operand, field) ∧
        (ofPackage ⟨"reflect", [f]⟩).Stems (.type operand)
          (.imported "reflect" "StructField" false) ∧
        (ofPackage ⟨"reflect", [f]⟩).fieldType "StructField" field.node.text = Known.sqlx "DB" ∧
        (ofPackage ⟨"reflect", [f]⟩).typeOf sel {} = some (Known.sqlx "DB", m') := by
  have h : ((SourceFile.read? ⟨"", ["a.go"]⟩ namesake).map fun f =>
      (f.packageName,
        (ofPackage ⟨"reflect", [f]⟩).refs.any fun sel =>
          (ofPackage ⟨"reflect", [f]⟩).selectsImported "reflect" "StructField" sel &&
          sel.selected?.any (fun (_, field) =>
            (ofPackage ⟨"reflect", [f]⟩).fieldType "StructField" field.node.text =
              Known.sqlx "DB") &&
          ((ofPackage ⟨"reflect", [f]⟩).typeOf sel {}).any (·.1 = Known.sqlx "DB"))) =
      some ("reflect", true) := by
    decide +kernel
  obtain ⟨f, hf, h⟩ := Option.map_eq_some_iff.mp h
  obtain ⟨hname, hsel⟩ := Prod.mk.inj h
  obtain ⟨sel, hmem, h⟩ := List.any_eq_true.mp hsel
  rw [Bool.and_eq_true, Bool.and_eq_true] at h
  obtain ⟨⟨hselects, hfield⟩, hanswer⟩ := h
  obtain ⟨operand, field, hsel, hs⟩ := stems_of_selectsImported hselects
  rw [hsel] at hfield
  obtain ⟨⟨a, m'⟩, htype, hanswer⟩ := (Option.any_eq_true _ _).mp hanswer
  rw [show a = Known.sqlx "DB" from of_decide_eq_true hanswer] at htype
  exact ⟨f, hf, hname, sel, operand, field, m', hmem, hsel, hs, of_decide_eq_true hfield, htype⟩

end Env

end CtxThread

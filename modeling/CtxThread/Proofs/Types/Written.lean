import CtxThread.Proofs.Types.Spelling

/-!
# Where types are written

Every type that is answered is written somewhere: by the expression itself, by the declaration of a
name, or by the function that is called. Or it is made from the type of another expression, or it is
one of the known results.

## Main definitions

- `Env.Writes`: the type that a question asks for is written in a file
- `Env.Way`: all the ways in which a question is answered

## Main statements

- `Env.Writes.outcome_eq`: a type that is written is known from there
- `Env.way_script`: every question is answered in one of these ways
-/

namespace CtxThread

open Code (Tree)

/-- The operand and the field of a selector. -/
def Ref.selected? (sel : Ref) : Option (Ref × Ref) :=
  if sel.node.kind = .selectorExpression then
    (sel.child? .operand).bind fun operand => (sel.child? .field).map fun field => (operand, field)
  else none

namespace Env

variable (env : Env)

/-- The nearest case around a node that binds `name`. -/
def caseAround (file : Nat) (name : String) : List Tree → Option Ref
  | [] => none
  | outer :: around =>
    if (env.caseBinding ⟨file, ⟨outer, around⟩⟩ name).isSome then some ⟨file, ⟨outer, around⟩⟩
    else caseAround file name around

/-- The type that a question asks for is written in a file: by the expression itself, by the
declaration of a name, or by the function that is called. -/
inductive Writes : Question → Nat → TypeExpr → Prop
  | expression {r : Ref} {t : Tree}
      (hkind : r.node.kind = .typeAssertionExpression ∨ r.node.kind = .compositeLiteral)
      (ht : r.node.child? .type = some t) : Writes (.type r) r.file (.ofTree t)
  | parameter {x list : Ref} {d t : Tree} (h : env.origin x = some (.declared list))
      (hkind : list.node.kind = .parameterList)
      (hd : list.node.paramDecls.find? (·.names.contains x.node.text) = some d)
      (hfixed : d.kind ≠ .variadicParameterDeclaration) (ht : d.child? .type = some t) :
      Writes (.name x) list.file (.ofTree t)
  | spec {x decl spec : Ref} {t : Tree} (h : env.origin x = some (.declared decl))
      (hkind : decl.node.kind = .varDeclaration)
      (hspec : (decl.specs.filter (·.node.names.contains x.node.text)).getLast? = some spec)
      (ht : spec.node.child? .type = some t) : Writes (.name x) spec.file (.ofTree t)
  | inCase {x case : Ref} {b : Binding} {t : Tree} (h : env.origin x = some (.inCase b))
      (hcase : env.caseAround x.file x.node.text x.site.around = some case)
      (hkind : case.node.kind = .typeCase) (ht : case.node.childrenIn .type = [t]) :
      Writes (.name x) case.file (.ofTree t)
  | result {call fn decl : Ref} {i : Nat} {t : Tree} (hfn : call.child? .function = some fn)
      (hkind : fn.node.kind = .identifier) (h : env.origin fn = none)
      (hdecl : env.index.funcs.lookup fn.node.text = some decl)
      (ht : resultType? decl i = some t) : Writes (.result call i) decl.file (.ofTree t)
  | conversion {call fn : Ref} (hfn : call.child? .function = some fn)
      (hkind : fn.node.kind = .identifier) (h : env.origin fn = none)
      (hfunc : env.index.funcs.lookup fn.node.text = none)
      (htype : (env.index.types.lookup fn.node.text).isSome) :
      Writes (.result call 0) call.file (.name fn.node.text)
  | new {call fn : Ref} {t : Tree} (hfn : call.child? .function = some fn)
      (hkind : fn.node.kind = .identifier) (h : env.origin fn = none)
      (hfunc : env.index.funcs.lookup fn.node.text = none)
      (htype : env.index.types.lookup fn.node.text = none) (hnew : fn.node.text = "new")
      (ht : call.node.arguments.head? = some t) :
      Writes (.result call 0) call.file (.pointer (.ofOperand t))

variable {env : Env} {q q' : Question} {file : Nat} {e : TypeExpr} {t : Ty}

/-! ## Where answers are written -/

theorem selected?_eq_some {sel operand field : Ref} :
    sel.selected? = some (operand, field) ↔ sel.node.kind = .selectorExpression ∧
      sel.child? .operand = some operand ∧ sel.child? .field = some field := by
  unfold Ref.selected?
  by_cases hkind : sel.node.kind = .selectorExpression
  · rw [if_pos hkind]
    simp [hkind, Option.bind_eq_some_iff]
  · rw [if_neg hkind]
    simp [hkind]

theorem outcome_field {sel operand field : Ref} (hsel : sel.selected? = some (operand, field))
    (hpackage : env.isPackage operand = false) :
    (env.script (.type sel)).outcome =
      .follow (.type operand) (env.fieldOf field.node.text) := by
  obtain ⟨hkind, hoperand, hfield⟩ := selected?_eq_some.mp hsel
  simp [script, typeScript, hkind, hoperand, hfield, hpackage]

theorem outcome_package {sel operand field : Ref} (hsel : sel.selected? = some (operand, field))
    (hpackage : env.isPackage operand = true) :
    (env.script (.type sel)).outcome = .known none := by
  obtain ⟨hkind, hoperand, hfield⟩ := selected?_eq_some.mp hsel
  simp [script, typeScript, hkind, hoperand, hfield, hpackage]

theorem outcome_method {call fn operand field : Ref} (i : Nat)
    (hfn : call.child? .function = some fn) (hsel : fn.selected? = some (operand, field))
    (hpackage : env.isPackage operand = false) :
    (env.script (.result call i)).outcome =
      .follow (.type operand) (env.methodOf field.node.text i) := by
  obtain ⟨hkind, hoperand, hfield⟩ := selected?_eq_some.mp hsel
  simp [script, resultScript, hfn, hkind, hoperand, hfield, hpackage]

theorem outcome_function {call fn operand field : Ref} (i : Nat)
    (hfn : call.child? .function = some fn) (hsel : fn.selected? = some (operand, field))
    (hpackage : env.isPackage operand = true) :
    (env.script (.result call i)).outcome =
      .known ((env.importPath? operand.file operand.node.text).bind fun path =>
        Known.functionResult? path field.node.text i) := by
  obtain ⟨hkind, hoperand, hfield⟩ := selected?_eq_some.mp hsel
  simp [script, resultScript, hfn, hkind, hoperand, hfield, hpackage]

theorem outcome_call {call fn : Ref} (i : Nat) (hfn : call.child? .function = some fn)
    (hkind : fn.node.kind = .identifier) (h : env.origin fn = none) :
    (env.script (.result call i)).outcome = .known (env.resultOf call fn i) := by
  simp [script, resultScript, hfn, hkind, h]

/-- A call of `new` or `make`, unless the package declares a function or a type so named. -/
theorem resultOf_of_allocation {call fn : Ref}
    (hfunc : env.index.funcs.lookup fn.node.text = none)
    (htype : env.index.types.lookup fn.node.text = none)
    (hname : fn.node.text = "new" ∨ fn.node.text = "make") :
    env.resultOf call fn 0 = env.allocatedType fn.node.text call := by
  rw [resultOf, hfunc, htype]
  exact if_pos hname

theorem valueOutcome_cases (i count : Nat) (values : Option Ref) :
    valueOutcome i count values = .known none ∨
      ∃ q, valueOutcome i count values = .follow q some := by
  unfold valueOutcome
  split
  · split
    · exact .inr ⟨_, rfl⟩
    · exact .inl rfl
  · split
    · split
      · exact .inr ⟨_, rfl⟩
      · split
        · exact .inr ⟨_, rfl⟩
        · exact .inl rfl
    · exact .inl rfl

/-- Of several specs that have a name, the last counts. -/
theorem outcome_specsScript (name : String) {specs : List Ref} {spec : Ref}
    (h : specs.getLast? = some spec) :
    (env.specsScript name specs).outcome = env.specOutcome name spec := by
  induction specs with
  | nil => cases h
  | cons first specs ih =>
    cases specs with
    | nil =>
      cases h
      rfl
    | cons second specs =>
      rw [List.getLast?_cons_cons] at h
      rw [specsScript]
      · exact ih h
      · simp

/-- A name that a case binds is bound by the nearest case that does. -/
theorem exists_caseAround {file : Nat} {name : String} {inner : Tree} {around : List Tree}
    {b : Binding} (h : env.climbOrigin file name inner around = some (.inCase b)) :
    ∃ case, env.caseAround file name around = some case ∧ env.caseBinding case name = some b := by
  induction around generalizing inner with
  | nil => cases h
  | cons outer around ih =>
    rw [climbOrigin] at h
    dsimp only at h
    split at h
    · cases h
    · rw [caseAround]
      split at h
      · rename_i b' hb
        cases h
        exact ⟨_, if_pos (by rw [hb]; rfl), hb⟩
      · rename_i hnone
        rw [if_neg (by rw [hnone]; exact Bool.false_ne_true)]
        exact ih h

theorem exists_caseAround_of_origin {x : Ref} {b : Binding} (h : env.origin x = some (.inCase b)) :
    ∃ case, env.caseAround x.file x.node.text x.site.around = some case ∧
      env.caseBinding case x.node.text = some b := by
  rw [origin, Option.or_eq_some_iff] at h
  rcases h with h | ⟨_, h⟩
  · exact exists_caseAround h
  · obtain ⟨_, _, h⟩ := Option.map_eq_some_iff.mp h
    cases h

/-- A case of one type binds a name to that type, any other to a value of unknown type. -/
theorem type?_of_caseBinding {case : Ref} {name : String} {b : Binding}
    (h : env.caseBinding case name = some b) :
    (∃ t, case.node.kind = .typeCase ∧ case.node.childrenIn .type = [t] ∧
        b.type? = env.typeExpr case.file t) ∨
      (∀ t, ¬ (case.node.kind = .typeCase ∧ case.node.childrenIn .type = [t])) ∧
        b.type? = none := by
  unfold caseBinding at h
  split at h
  · unfold bindCase at h
    split at h
    · cases h
    · obtain ⟨guard, _, h⟩ := Option.bind_eq_some_iff.mp h
      split at h
      · split at h
        · rename_i t ht
          cases h
          split at ht
          · rename_i hkind
            exact .inl ⟨t, hkind, ht, Binding.type?_ofType _⟩
          · cases ht
        · rename_i hnone
          cases h
          refine .inr ⟨fun t ht => hnone t ?_, rfl⟩
          rw [if_pos ht.1, ht.2]
      · cases h
  · cases h

/-- A type that is written is known from there. -/
theorem Writes.outcome_eq (h : env.Writes q file e) :
    (env.script q).outcome = .known (env.resolved file e) := by
  cases h with
  | expression hkind ht =>
    rcases hkind with hkind | hkind
    · simp [script, typeScript, hkind, typeChild, ht]
      rfl
    · simp [script, typeScript, hkind, typeChild, ht]
      rfl
  | parameter h hkind hd hfixed ht =>
    simp only [script, nameScript, h, bindScript, hkind, bindParameter, hd, Option.map_some,
      if_neg hfixed, ht, Option.bind_some, Binding.type?_ofType]
    rfl
  | spec h hkind hspec ht =>
    simp only [script, nameScript, h, bindScript, hkind, outcome_specsScript _ hspec, specOutcome, ht]
    rfl
  | @inCase x case b t h hcase hkind ht =>
    obtain ⟨case', hcase', hb⟩ := exists_caseAround_of_origin h
    rw [hcase] at hcase'
    cases hcase'
    have houtcome : (env.script (.name x)).outcome = .known b.type? := by
      simp [script, nameScript, h]
    rcases type?_of_caseBinding hb with ⟨t', _, ht', hb⟩ | ⟨hnone, _⟩
    · rw [ht] at ht'
      cases ht'
      rw [houtcome, hb]
      rfl
    · exact absurd ⟨hkind, ht⟩ (hnone t)
  | result hfn hkind h hdecl ht =>
    rw [outcome_call _ hfn hkind h, resultOf, hdecl]
    simp only [declaredResult_eq, ht, Option.bind_some]
    rfl
  | conversion hfn hkind h hfunc htype =>
    rw [outcome_call _ hfn hkind h, resultOf, hfunc]
    simp only [if_true, htype]
    rfl
  | new hfn hkind h hfunc htype hnew ht =>
    rw [outcome_call _ hfn hkind h, resultOf_of_allocation hfunc htype (.inl hnew), hnew,
      allocatedType, ht]
    simp only [Option.bind_some, typeOperand_eq]
    rfl

/-! ## Ways to an answer -/

/-- All the ways in which a question is answered: the type is written or known, or it is made from
the answer to another question. -/
inductive Way (env : Env) : Question → Outcome → Prop
  | none (q : Question) : Way env q (.known none)
  | written {q : Question} {file : Nat} {e : TypeExpr} {a : Option Ty} (h : env.Writes q file e)
      (ha : env.resolved file e = a) : Way env q (.known a)
  | make {call fn : Ref} {t : Tree} {a : Option Ty} (hfn : call.child? .function = some fn)
      (hkind : fn.node.kind = .identifier) (h : env.origin fn = none)
      (hfunc : env.index.funcs.lookup fn.node.text = none)
      (htype : env.index.types.lookup fn.node.text = none) (hmake : fn.node.text = "make")
      (ht : call.node.arguments.head? = some t)
      (ha : ((env.resolved call.file (.ofOperand t)).bind fun t => t.elem?.map fun _ => t) = a) :
      Way env (.result call 0) (.known a)
  | function {call fn operand field : Ref} {i : Nat} {a : Option Ty}
      (hfn : call.child? .function = some fn) (hsel : fn.selected? = some (operand, field))
      (hpackage : env.isPackage operand = true)
      (ha : ((env.importPath? operand.file operand.node.text).bind fun path =>
        Known.functionResult? path field.node.text i) = a) : Way env (.result call i) (.known a)
  | same (q q' : Question) : Way env q (.follow q' some)
  | element (q q' : Question) : Way env q (.follow q' Ty.elem?)
  | slice (q q' : Question) : Way env q (.follow q' Ty.sliced?)
  | address (q q' : Question) : Way env q (.follow q' Ty.address?)
  | field {sel operand field : Ref} (hsel : sel.selected? = some (operand, field))
      (hpackage : env.isPackage operand = false) :
      Way env (.type sel) (.follow (.type operand) (env.fieldOf field.node.text))
  | method {call fn operand field : Ref} {i : Nat} (hfn : call.child? .function = some fn)
      (hsel : fn.selected? = some (operand, field)) (hpackage : env.isPackage operand = false) :
      Way env (.result call i) (.follow (.type operand) (env.methodOf field.node.text i))

theorem way_valueOutcome (q : Question) (i count : Nat) (values : Option Ref) :
    env.Way q (valueOutcome i count values) := by
  rcases valueOutcome_cases i count values with h | ⟨q', h⟩
  · rw [h]
    exact .none q
  · rw [h]
    exact .same q q'

theorem way_type (r : Ref) : env.Way (.type r) (env.script (.type r)).outcome := by
  cases hsel : r.selected? with
  | some found =>
    obtain ⟨operand, field⟩ := found
    cases hpackage : env.isPackage operand with
    | true =>
      rw [outcome_package hsel hpackage]
      exact .none _
    | false =>
      rw [outcome_field hsel hpackage]
      exact .field hsel hpackage
  | none =>
    have hwritten : (r.node.kind = .typeAssertionExpression ∨ r.node.kind = .compositeLiteral) →
        env.Way (.type r) (.known (env.typeChild r)) := by
      intro hkind
      rw [typeChild]
      cases ht : r.node.child? .type with
      | none => exact .none _
      | some t => exact .written (.expression hkind ht) rfl
    change env.Way _ (env.typeScript r).outcome
    unfold typeScript
    split
    case h_1 => exact .same _ _
    case h_2 =>
      cases r.firstItem? with
      | none => exact .none _
      | some e => exact .same _ _
    case h_3 hkind =>
      split
      · rename_i operand field hoperand hfield
        rw [selected?_eq_some.mpr ⟨hkind, hoperand, hfield⟩] at hsel
        cases hsel
      · exact .none _
    case h_4 => exact .same _ _
    case h_5 hkind => exact hwritten (.inl hkind)
    case h_6 hkind => exact hwritten (.inr hkind)
    case h_7 =>
      cases r.child? .operand with
      | none => exact .none _
      | some e => exact .element _ _
    case h_8 =>
      cases r.child? .operand with
      | none => exact .none _
      | some e => exact .slice _ _
    case h_9 =>
      split
      · split
        · exact .address _ _
        · exact .none _
      · exact .none _
    case h_10 => exact .none _

theorem way_parameter {x list : Ref} (h : env.origin x = some (.declared list))
    (hkind : list.node.kind = .parameterList) :
    env.Way (.name x) (.known ((env.bindParameter list x.node.text).bind Binding.type?)) := by
  unfold bindParameter
  cases hd : list.node.paramDecls.find? fun d => d.names.contains x.node.text with
  | none => exact .none _
  | some d =>
    by_cases hvariadic : d.kind = .variadicParameterDeclaration
    · simp only [Option.map_some, if_pos hvariadic, Option.bind_some]
      exact .none _
    · simp only [Option.map_some, if_neg hvariadic, Option.bind_some, Binding.type?_ofType]
      cases ht : d.child? .type with
      | none => exact .none _
      | some t => exact .written (.parameter h hkind hd hvariadic ht) rfl

theorem way_specs {x decl : Ref} (h : env.origin x = some (.declared decl))
    (hkind : decl.node.kind = .varDeclaration) :
    env.Way (.name x) (env.specsScript x.node.text
      (decl.specs.filter (·.node.names.contains x.node.text))).outcome := by
  cases hspec : (decl.specs.filter (·.node.names.contains x.node.text)).getLast? with
  | none =>
    rw [List.getLast?_eq_none_iff.mp hspec]
    exact .none _
  | some spec =>
    rw [outcome_specsScript _ hspec, specOutcome]
    cases ht : spec.node.child? .type with
    | none => exact way_valueOutcome _ _ _ _
    | some t => exact .written (.spec h hkind hspec ht) rfl

theorem way_name (x : Ref) : env.Way (.name x) (env.script (.name x)).outcome := by
  change env.Way _ (env.nameScript x).outcome
  unfold nameScript
  split
  · rename_i stmt horigin
    unfold bindScript
    split
    case h_1 hkind => exact way_parameter horigin hkind
    case h_2 => exact way_valueOutcome _ _ _ _
    case h_3 hkind => exact way_specs horigin hkind
    case h_4 =>
      split
      · exact way_valueOutcome _ _ _ _
      · exact .none _
    case h_5 =>
      split
      · cases stmt.child? .right with
        | none => exact .none _
        | some right => exact .element _ _
      · exact .none _
    case h_6 => exact .none _
  · rename_i b horigin
    obtain ⟨case, hcase, hb⟩ := exists_caseAround_of_origin horigin
    rcases type?_of_caseBinding hb with ⟨t, hkind, ht, hb⟩ | ⟨_, hb⟩
    · rw [hb]
      exact .written (.inCase horigin hcase hkind ht) rfl
    · rw [hb]
      exact .none _
  · exact .none _

theorem way_allocation {call fn : Ref} (hfn : call.child? .function = some fn)
    (hkind : fn.node.kind = .identifier) (h : env.origin fn = none)
    (hfunc : env.index.funcs.lookup fn.node.text = none)
    (htype : env.index.types.lookup fn.node.text = none)
    (hname : fn.node.text = "new" ∨ fn.node.text = "make") :
    env.Way (.result call 0) (.known (env.allocatedType fn.node.text call)) := by
  unfold allocatedType
  cases ht : call.node.arguments.head? with
  | none => exact .none _
  | some t =>
    rw [Option.bind_some, typeOperand_eq]
    by_cases hmake : fn.node.text = "make"
    · simp only [if_pos hmake]
      exact .make hfn hkind h hfunc htype hmake ht rfl
    · simp only [if_neg hmake]
      exact .written (.new hfn hkind h hfunc htype (hname.resolve_right hmake) ht) rfl

theorem way_call {call fn : Ref} (i : Nat) (hfn : call.child? .function = some fn)
    (hkind : fn.node.kind = .identifier) (h : env.origin fn = none) :
    env.Way (.result call i) (.known (env.resultOf call fn i)) := by
  unfold resultOf
  split
  · rename_i decl hdecl
    rw [declaredResult_eq]
    cases ht : resultType? decl i with
    | none => exact .none _
    | some t => exact .written (.result hfn hkind h hdecl ht) rfl
  · rename_i hfunc
    split_ifs with hzero htype hname
    · subst hzero
      exact .written (.conversion hfn hkind h hfunc htype) rfl
    · subst hzero
      exact way_allocation hfn hkind h hfunc (Option.not_isSome_iff_eq_none.mp htype) hname
    · exact .none _
    · exact .none _

theorem way_result (call : Ref) (i : Nat) :
    env.Way (.result call i) (env.script (.result call i)).outcome := by
  change env.Way _ (env.resultScript call i).outcome
  unfold resultScript
  cases hfn : call.child? .function with
  | none => exact .none _
  | some fn =>
    dsimp only
    split
    · rename_i hkind
      cases h : env.origin fn with
      | some source => exact .none _
      | none => exact way_call i hfn hkind h
    · rename_i hkind
      split
      · rename_i operand field hoperand hfield
        have hsel := selected?_eq_some.mpr ⟨hkind, hoperand, hfield⟩
        cases hpackage : env.isPackage operand with
        | true => exact .function hfn hsel hpackage rfl
        | false => exact .method hfn hsel hpackage
      · exact .none _
    · exact .none _

/-- Every question is answered in one of these ways. -/
theorem way_script (q : Question) : env.Way q (env.script q).outcome := by
  cases q with
  | type r => exact way_type r
  | name x => exact way_name x
  | result call i => exact way_result call i

/-! ## What questions stand for -/

/-- What a question stands for is known, or made from what another one stands for. -/
theorem means_iff_known {a : Option Ty} (h : (env.script q).outcome = .known a) :
    env.Means q t ↔ a = some t := (right_known h t).symm

theorem means_iff_follow {f : Ty → Option Ty} (h : (env.script q).outcome = .follow q' f) :
    env.Means q t ↔ ∃ t', env.Means q' t' ∧ f t' = some t := by
  constructor
  · intro hmeans
    cases hmeans with
    | known h' =>
      rw [h] at h'
      cases h'
    | follow h' hmeans ht =>
      rw [h] at h'
      cases h'
      exact ⟨_, hmeans, ht⟩
  · rintro ⟨t', hmeans, ht⟩
    exact .follow h hmeans ht

end Env

end CtxThread

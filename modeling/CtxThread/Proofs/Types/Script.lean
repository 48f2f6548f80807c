import CtxThread.Proofs.Types.Answers

/-!
# Questions and where their answers come from

Every question about types is answered in one way: some other questions are asked only to be
answered, and then the answer is known, or it is made from the answer to one last question. What is
asked, and in which order, can be seen without knowing any types.

## Main definitions

- `Question`: the type of an expression, what a name is bound to, or one result of a call
- `Script`: what is asked to answer a question
- `Script.run`: answering along a script
- `Env.script`: the script of a question

## Main statements

- `Env.freshType_eq`, `Env.lookupWith_type?`, `Env.callResultWith_eq`: the three questions are
  answered along their scripts
-/

namespace CtxThread

open Code (Tree Site)

/-- A question about types. -/
inductive Question where
  | type (expr : Ref)
  | name (ident : Ref)
  | result (call : Ref) (i : Nat)

/-- Where an answer comes from. -/
inductive Outcome where
  /-- It is known. -/
  | known (t : Option Ty)
  /-- It is made from the answer to another question. -/
  | follow (q : Question) (f : Ty → Option Ty)

/-- What is asked to answer a question: first some questions whose answers do not matter, then
perhaps one that does. -/
structure Script where
  before : List Question := []
  outcome : Outcome

/-- The question that an answer is made from. -/
def Outcome.next? : Outcome → Option Question
  | .known _ => none
  | .follow q _ => some q

/-- All questions of a script. -/
def Script.asks (s : Script) : List Question := s.before ++ s.outcome.next?.toList

namespace Oracle

/-- Asks a question. Of a name only the type is asked for. -/
def ask (o : Oracle) : Question → Resolving (Option Ty)
  | .type r => o.typeOf r
  | .name r => do return (← o.lookup r).bind Binding.type?
  | .result call i => o.callResult call i

/-- Asks questions one after the other and forgets the answers. -/
def askAll (o : Oracle) : List Question → Resolving Unit
  | [] => return ()
  | q :: qs => do
    let _ ← o.ask q
    o.askAll qs

/-- Finds an answer where it comes from. -/
def settle (o : Oracle) : Outcome → Resolving (Option Ty)
  | .known t => return t
  | .follow q f => do return (← o.ask q).bind f

/-- The oracle finds a binding for exactly the names that have an origin. -/
def Sees (o : Oracle) (env : Env) : Prop :=
  ∀ r m b m', o.lookup r m = some (b, m') → b.isSome = (env.origin r).isSome

end Oracle

/-- Answers along a script. -/
def Script.run (s : Script) (o : Oracle) : Resolving (Option Ty) := do
  o.askAll s.before
  o.settle s.outcome

namespace Env

variable (env : Env)

/-- Whether the operand of a selector is looked up because it may stand for a package. -/
def mayBePackage (operand : Ref) : Bool :=
  operand.node.kind = .identifier && (env.importPath? operand.file operand.node.text).isSome

/-- Whether the operand of a selector stands for a package. -/
def isPackage (operand : Ref) : Bool := env.mayBePackage operand && (env.origin operand).isNone

/-- What is asked to see whether an operand stands for a package. -/
def packageQuestions (operand : Ref) : List Question :=
  if env.mayBePackage operand then [.name operand] else []

/-- Every variable of the index is bound by its declaration. -/
def Listed : Prop :=
  ∀ name decl, env.index.globals.lookup name = some decl → decl.binds name = true

/-- The type of a field of a value. -/
def fieldOf (field : String) : Ty → Option Ty
  | .named pkg name pointer =>
    if env.isLocal (.named pkg name pointer) then env.fieldType name field else none
  | .container _ _ => none

/-- The type of one result of a method of a value. -/
def methodOf (member : String) (i : Nat) : Ty → Option Ty
  | .named pkg name pointer =>
    if env.isLocal (.named pkg name pointer) then
      (env.index.methods.lookup (name, member)).bind fun decl => env.declaredResult decl i
    else if pointer then Known.methodResult? pkg name member i
    else none
  | .container _ _ => none

/-- The type of one result of a call by a name that no variable has. -/
def resultOf (call fn : Ref) (i : Nat) : Option Ty :=
  match env.index.funcs.lookup fn.node.text with
  | some decl => env.declaredResult decl i
  | none =>
    if i = 0 then
      if (env.index.types.lookup fn.node.text).isSome then env.namedType fn.node.text
      else if fn.node.text = "new" ∨ fn.node.text = "make" then
        env.allocatedType fn.node.text call
      else none
    else none

/-- The type of an expression is that of another, if there is one. -/
def through (f : Ty → Option Ty) (r : Option Ref) : Script :=
  match r with
  | some r => { outcome := .follow (.type r) f }
  | none => { outcome := .known none }

/-- What is asked for the type of an expression. -/
def typeScript (expr : Ref) : Script :=
  match expr.node.kind with
  | .identifier => { outcome := .follow (.name expr) some }
  | .parenthesizedExpression => through some expr.firstItem?
  | .selectorExpression =>
    match expr.child? .operand, expr.child? .field with
    | some operand, some field =>
      { before := env.packageQuestions operand
        outcome :=
          if env.isPackage operand then .known none
          else .follow (.type operand) (env.fieldOf field.node.text) }
    | _, _ => { outcome := .known none }
  | .callExpression => { outcome := .follow (.result expr 0) some }
  | .typeAssertionExpression | .compositeLiteral => { outcome := .known (env.typeChild expr) }
  | .indexExpression => through Ty.elem? (expr.child? .operand)
  | .sliceExpression => through Ty.sliced? (expr.child? .operand)
  | .unaryExpression =>
    match expr.node.child? .operator, expr.child? .operand with
    | some operator, some operand =>
      if operator.kind = .sign .amp ∧ operand.node.kind = .compositeLiteral then
        { outcome := .follow (.type operand) Ty.address? }
      else { outcome := .known none }
    | _, _ => { outcome := .known none }
  | _ => { outcome := .known none }

/-- Where the type of value `i` of `count` comes from. -/
def valueOutcome (i count : Nat) (values : Option Ref) : Outcome :=
  if (valueRefs values).length = count then
    match (valueRefs values)[i]? with
    | some e => .follow (.type e) some
    | none => .known none
  else
    match valueRefs values with
    | [e] =>
      if e.node.kind = .callExpression then .follow (.result e i) some
      else if count = 2 ∧ i = 0 ∧
          (e.node.kind = .typeAssertionExpression ∨ e.node.kind = .indexExpression) then
        .follow (.type e) some
      else .known none
    | _ => .known none

/-- Where the type that a short declaration binds a name to comes from. -/
def shortOutcome (decl : Ref) (name : String) : Outcome :=
  valueOutcome (decl.leftNames.idxOf (some name)) decl.leftNames.length (decl.child? .right)

/-- Where the type that a spec binds a name to comes from. -/
def specOutcome (name : String) (spec : Ref) : Outcome :=
  match spec.node.child? .type with
  | some type => .known (env.typeExpr spec.file type)
  | none => valueOutcome (spec.node.names.idxOf name) spec.node.names.length (spec.child? .value)

/-- What is asked for a name that several specs have: the last counts. -/
def specsScript (name : String) : List Ref → Script
  | [] => { outcome := .known none }
  | [spec] => { outcome := env.specOutcome name spec }
  | spec :: specs =>
    let rest := specsScript name specs
    { rest with before := (env.specOutcome name spec).next?.toList ++ rest.before }

/-- What is asked for a name that a statement or a clause binds. -/
def bindScript (stmt : Ref) (name : String) : Script :=
  match stmt.node.kind with
  | .parameterList => { outcome := .known ((env.bindParameter stmt name).bind Binding.type?) }
  | .shortVarDeclaration => { outcome := shortOutcome stmt name }
  | .varDeclaration => env.specsScript name (stmt.specs.filter (·.node.names.contains name))
  | .forClause =>
    match stmt.shortInitializer? with
    | some init => { outcome := shortOutcome init name }
    | none => { outcome := .known none }
  | .rangeClause =>
    if stmt.leftNames.idxOf (some name) = 1 then through Ty.elem? (stmt.child? .right)
    else { outcome := .known none }
  | _ => { outcome := .known none }

/-- What is asked for a name. -/
def nameScript (ident : Ref) : Script :=
  match env.origin ident with
  | some (.declared stmt) => env.bindScript stmt ident.node.text
  | some (.inCase b) => { outcome := .known b.type? }
  | none => { outcome := .known none }

/-- What is asked for one result of a call. -/
def resultScript (call : Ref) (i : Nat) : Script :=
  match call.child? .function with
  | none => { outcome := .known none }
  | some fn =>
    match fn.node.kind with
    | .identifier =>
      { before := [.name fn]
        outcome := .known (if (env.origin fn).isSome then none else env.resultOf call fn i) }
    | .selectorExpression =>
      match fn.child? .operand, fn.child? .field with
      | some operand, some field =>
        { before := env.packageQuestions operand
          outcome :=
            if env.isPackage operand then
              .known ((env.importPath? operand.file operand.node.text).bind fun path =>
                Known.functionResult? path field.node.text i)
            else .follow (.type operand) (env.methodOf field.node.text i) }
      | _, _ => { outcome := .known none }
    | _ => { outcome := .known none }

/-- What is asked to answer a question. -/
def script : Question → Script
  | .type r => env.typeScript r
  | .name r => env.nameScript r
  | .result call i => env.resultScript call i

end Env

/-! ## Answering along scripts -/

section Run

variable {env : Env} {o : Oracle} {name : String} {α : Type}

namespace Oracle

theorem settle_follow_some (q : Question) : o.settle (.follow q some) = o.ask q := by
  simp [settle]

theorem askAll_append (qs qs' : List Question) :
    o.askAll (qs ++ qs') = o.askAll qs >>= fun _ => o.askAll qs' := by
  induction qs with
  | nil => simp [askAll]
  | cons q qs ih => simp [askAll, ih]

/-- An answer that is not used is a question that is only asked. -/
theorem settle_bind_const (outcome : Outcome) (rest : Resolving α) :
    (o.settle outcome >>= fun _ => rest) = o.askAll outcome.next?.toList >>= fun _ => rest := by
  cases outcome with
  | known t => simp [settle, Outcome.next?, askAll]
  | follow q f => simp [settle, Outcome.next?, askAll]

end Oracle

theorem Script.run_mk (before : List Question) (outcome : Outcome) :
    Script.run ⟨before, outcome⟩ o = o.askAll before >>= fun _ => o.settle outcome := rfl

theorem Script.run_nil (outcome : Outcome) : Script.run ⟨[], outcome⟩ o = o.settle outcome := rfl

theorem Env.run_through (f : Ty → Option Ty) (r : Option Ref) :
    (through f r).run o = (·.bind f) <$> typeOfChild o r := by
  cases r with
  | none => rfl
  | some r => rfl

@[simp] theorem Binding.type?_ofType (t : Option Ty) : (Binding.ofType t).type? = t := by
  cases t with
  | none => rfl
  | some t => rfl

/-! ### Names -/

theorem Oracle.bindValues_eq (i count : Nat) (values : Option Ref) :
    o.bindValues i count values =
      Binding.ofType <$> o.settle (Env.valueOutcome i count values) := by
  unfold bindValues Env.valueOutcome
  change (if (valueRefs values).length = count then _ else _) = _
  by_cases hlength : (valueRefs values).length = count
  · rw [if_pos hlength, if_pos hlength]
    change (match (valueRefs values)[i]? with | some e => _ | none => _) = _
    cases (valueRefs values)[i]? with
    | none => rfl
    | some e => simp [settle_follow_some, ask]
  · rw [if_neg hlength, if_neg hlength]
    change (match valueRefs values with | [e] => _ | _ => _) = _
    split
    · split_ifs
      · simp [settle_follow_some, ask]
      · simp [settle_follow_some, ask]
      · rfl
    · rfl

namespace Env

theorem bindSpec_eq {spec : Ref} (h : spec.node.names.contains name = true)
    (found : Option Binding) :
    env.bindSpec o name found spec =
      (fun t => some (Binding.ofType t)) <$> o.settle (env.specOutcome name spec) := by
  unfold bindSpec specOutcome
  rw [if_pos h]
  cases spec.node.child? .type with
  | some type => rfl
  | none =>
    dsimp only
    rw [Oracle.bindValues_eq]
    simp

/-- Of several specs that name a variable, the last counts. -/
theorem foldlM_bindSpec_eq {spec : Ref} {specs : List Ref}
    (h : ∀ s ∈ spec :: specs, s.node.names.contains name = true) (found : Option Binding) :
    (·.bind Binding.type?) <$> (spec :: specs).foldlM (env.bindSpec o name) found =
      (env.specsScript name (spec :: specs)).run o := by
  induction specs generalizing spec found with
  | nil =>
    rw [List.foldlM_cons, bindSpec_eq (h spec List.mem_cons_self)]
    simp [specsScript, Script.run_nil]
  | cons spec' specs ih =>
    have ih := fun found => ih (fun s hs => h s (List.mem_cons_of_mem spec hs)) found
    rw [List.foldlM_cons, bindSpec_eq (h spec List.mem_cons_self), specsScript]
    · simp only [map_bind, bind_map_left, ih, Oracle.settle_bind_const]
      rw [Script.run, Script.run, Oracle.askAll_append, bind_assoc]
    · simp

/-- Specs that do not name a variable are passed over. -/
theorem foldlM_bindSpec_filter (specs : List Ref) (found : Option Binding) :
    specs.foldlM (env.bindSpec o name) found =
      (specs.filter (·.node.names.contains name)).foldlM (env.bindSpec o name) found := by
  induction specs generalizing found with
  | nil => rfl
  | cons spec specs ih =>
    rw [List.foldlM_cons, List.filter_cons]
    split
    · rw [List.foldlM_cons]
      exact congrArg _ (funext ih)
    · rename_i h
      rw [bindSpec_of_not_mem (Bool.eq_false_of_not_eq_true h), pure_bind, ih]

theorem bindShort_type? {decl : Ref} (h : decl.leftNames.contains (some name) = true) :
    (·.bind Binding.type?) <$> o.bindShort decl name = o.settle (shortOutcome decl name) := by
  rw [Oracle.bindShort_eq, if_pos h, Oracle.bindValues_eq, shortOutcome]
  simp

theorem bindingIn_type? {stmt : Ref} (h : stmt.binds name = true) :
    (·.bind Binding.type?) <$> env.bindingIn o stmt name = (env.bindScript stmt name).run o := by
  cases Ref.binds_cases h with
  | parameter hkind hname =>
    rw [bindingIn, bindScript, hkind]
    rfl
  | short hkind hname =>
    rw [bindingIn, bindScript, hkind]
    exact bindShort_type? hname
  | @spec hkind spec hspec hname =>
    rw [bindingIn, bindScript, hkind]
    change _ <$> stmt.specs.foldlM (env.bindSpec o name) none = _
    rw [foldlM_bindSpec_filter]
    cases hspecs : stmt.specs.filter (·.node.names.contains name) with
    | nil =>
      have hmem : spec ∈ stmt.specs.filter (·.node.names.contains name) :=
        List.mem_filter.mpr ⟨hspec, hname⟩
      rw [hspecs] at hmem
      cases hmem
    | cons spec specs =>
      apply foldlM_bindSpec_eq
      intro s hs
      rw [← hspecs] at hs
      exact (List.mem_filter.mp hs).2
  | loop hkind hinit hname =>
    rw [bindingIn_forClause hkind, bindScript, hkind, hinit]
    exact bindShort_type? hname
  | range hkind hname =>
    rw [bindingIn, bindScript, hkind]
    dsimp only
    rw [Oracle.bindRange_eq, if_pos hname]
    split
    · rw [run_through]
      split
      · rename_i right hright
        simp [hright, typeOfChild]
      · rename_i hright
        simp [hright, typeOfChild, Binding.type?]
    · rfl

theorem listed_ofPackage (p : Package) : (ofPackage p).Listed := by
  intro name decl h
  obtain ⟨_, _, _, hkind, hname⟩ := lookup_globals_eq_some h
  obtain ⟨spec, hspec, hname⟩ := List.mem_flatMap.mp hname
  unfold Ref.binds
  rw [hkind]
  exact List.any_eq_true.mpr
    ⟨decl.move spec, List.mem_map_of_mem hspec, List.contains_iff_mem.mpr hname⟩

/-- What binds a name, binds it. -/
theorem binds_of_origin (hindex : env.Listed) {ident stmt : Ref}
    (h : env.origin ident = some (.declared stmt)) : stmt.binds ident.node.text = true := by
  rw [origin, Option.or_eq_some_iff] at h
  rcases h with h | ⟨_, h⟩
  · exact binds_of_climbOrigin h
  · obtain ⟨decl, hdecl, heq⟩ := Option.map_eq_some_iff.mp h
    cases heq
    exact hindex _ _ hdecl

theorem lookupWith_type? (hindex : env.Listed) (ident : Ref) :
    (·.bind Binding.type?) <$> env.lookupWith o ident = (env.nameScript ident).run o := by
  rw [lookupWith_eq, nameScript]
  cases horigin : env.origin ident with
  | none => rfl
  | some source =>
    cases source with
    | inCase b => rfl
    | declared stmt => exact bindingIn_type? (binds_of_origin hindex horigin)

theorem sees_oracle (hindex : env.Listed) (d : Nat) : (env.oracle d).Sees env := by
  intro r m b m' h
  cases d with
  | zero => cases h
  | succ d =>
    change env.lookupWith (env.oracle d) r m = some (b, m') at h
    rw [lookupWith_eq] at h
    cases horigin : env.origin r with
    | none =>
      rw [horigin] at h
      cases h
      rfl
    | some source =>
      rw [horigin] at h
      cases source with
      | inCase b => cases h; rfl
      | declared stmt => exact definite_bindingIn (binds_of_origin hindex horigin) m b m' h

/-! ### Calls and types -/

/-- After a name is looked up, it is known whether it has an origin. -/
theorem lookup_bind (ho : o.Sees env) {r : Ref} {f : Option Binding → Resolving α}
    {g : Resolving α} (h : ∀ b, b.isSome = (env.origin r).isSome → f b = g) :
    (o.lookup r >>= f) = o.ask (.name r) >>= fun _ => g := by
  funext m
  change (o.lookup r m).bind _ = ((o.lookup r m).bind _).bind _
  cases hrun : o.lookup r m with
  | none => rfl
  | some found =>
    obtain ⟨b, m'⟩ := found
    change f b m' = g m'
    rw [h b (ho r m b m' hrun)]

theorem selectsPackage_bind (ho : o.Sees env) (operand : Ref) (f : Bool → Resolving α) :
    (env.selectsPackage o operand >>= f) =
      o.askAll (env.packageQuestions operand) >>= fun _ => f (env.isPackage operand) := by
  unfold selectsPackage isPackageNameWith packageQuestions isPackage mayBePackage
  by_cases hkind : operand.node.kind = .identifier
  · by_cases himport : (env.importPath? operand.file operand.node.text).isSome
    · simp only [hkind, himport, if_true, decide_true, Bool.and_self, Bool.true_and, Oracle.askAll,
        bind_assoc, pure_bind]
      apply lookup_bind ho
      intro b hb
      rw [← Option.not_isSome, ← Option.not_isSome, hb]
    · simp [hkind, himport, Oracle.askAll]
  · simp [hkind, Oracle.askAll]

/-- A selector is answered for a package, or else from the type of its operand. -/
theorem select_eq (ho : o.Sees env) (operand : Ref) (inPackage : Option Ty)
    {f : Ty → Option Ty} {found : Option Ty → Resolving (Option Ty)}
    (hfound : ∀ t, found t = pure (t.bind f)) :
    (env.selectsPackage o operand >>= fun selects =>
      if selects then pure inPackage else o.typeOf operand >>= found) =
    Script.run ⟨env.packageQuestions operand,
      if env.isPackage operand then .known inPackage else .follow (.type operand) f⟩ o := by
  rw [selectsPackage_bind ho, Script.run_mk, funext hfound]
  split_ifs
  · rfl
  · rfl

theorem selectorType_eq (ho : o.Sees env) {sel : Ref}
    (hkind : sel.node.kind = .selectorExpression) :
    env.selectorType o sel = (env.typeScript sel).run o := by
  unfold selectorType typeScript
  rw [hkind]
  cases sel.child? .operand with
  | none => rfl
  | some operand =>
    cases sel.child? .field with
    | none => rfl
    | some field =>
      apply select_eq ho operand none
      rintro (_ | ⟨pkg, name, pointer⟩ | ⟨k, t⟩)
      · rfl
      · rw [Option.bind_some, fieldOf]
        dsimp only
        split_ifs
        · rfl
        · rfl
      · rfl

theorem selectedCallResult_eq (ho : o.Sees env) {call fn : Ref}
    (hfn : call.child? .function = some fn)
    (hkind : fn.node.kind = .selectorExpression) (i : Nat) :
    env.selectedCallResult o fn i = (env.resultScript call i).run o := by
  unfold selectedCallResult resultScript
  rw [hfn]
  dsimp only
  rw [hkind]
  cases fn.child? .operand with
  | none => rfl
  | some operand =>
    cases fn.child? .field with
    | none => rfl
    | some field =>
      apply select_eq ho operand
      rintro (_ | ⟨pkg, name, pointer⟩ | ⟨k, t⟩)
      · rfl
      · rw [Option.bind_some, methodOf]
        dsimp only
        split_ifs
        · rfl
        · rfl
        · rfl
      · rfl

theorem namedCallResult_eq (ho : o.Sees env) {call fn : Ref} (hfn : call.child? .function = some fn)
    (hkind : fn.node.kind = .identifier) (i : Nat) :
    env.namedCallResult o call fn i = (env.resultScript call i).run o := by
  unfold namedCallResult resultScript
  rw [hfn]
  dsimp only
  rw [hkind, Script.run_mk, Oracle.askAll]
  simp only [Oracle.askAll, bind_assoc, pure_bind]
  apply lookup_bind ho
  intro b hb
  rw [← hb]
  cases b with
  | some b => rfl
  | none =>
    change _ = (pure (env.resultOf call fn i) : Resolving (Option Ty))
    unfold resultOf
    dsimp only
    cases env.index.funcs.lookup fn.node.text with
    | some decl => rfl
    | none =>
      dsimp only
      split_ifs
      all_goals rfl

theorem callResultWith_eq (ho : o.Sees env) (call : Ref) (i : Nat) :
    env.callResultWith o call i = (env.resultScript call i).run o := by
  unfold callResultWith
  split
  · rename_i hfn
    rw [resultScript, hfn]
    rfl
  · rename_i fn hfn
    split
    · rename_i hkind
      exact namedCallResult_eq ho hfn hkind i
    · rename_i hkind
      exact selectedCallResult_eq ho hfn hkind i
    · rw [resultScript, hfn]
      dsimp only
      split
      · contradiction
      · contradiction
      · rfl

theorem freshType_eq (ho : o.Sees env) (expr : Ref) :
    env.freshType o expr = (env.typeScript expr).run o := by
  unfold freshType
  split
  case h_3 hkind => exact selectorType_eq ho hkind
  all_goals unfold typeScript
  case h_10 =>
    split
    all_goals first | contradiction | rfl
  all_goals
    rename_i hkind
    rw [hkind]
  · rw [Script.run_nil, Oracle.settle_follow_some]
    rfl
  · rw [run_through]
    simp
  · rw [Script.run_nil, Oracle.settle_follow_some]
    rfl
  · rfl
  · rw [run_through]
    simp
  · rw [run_through]
    simp
  · rfl
  · cases expr.node.child? .operator with
    | none => rfl
    | some operator =>
      cases expr.child? .operand with
      | none => rfl
      | some operand =>
        dsimp only
        split_ifs
        · rfl
        · rfl

end Env

/-- Answers to questions are found along their scripts. -/
theorem Env.ask_succ {env : Env} (hindex : env.Listed) (d : Nat) (q : Question)
    (hq : ∀ r, q ≠ .type r) :
    (env.oracle (d + 1)).ask q = (env.script q).run (env.oracle d) := by
  cases q with
  | type r => exact absurd rfl (hq r)
  | name r =>
    rw [Oracle.ask, bind_pure_comp]
    exact lookupWith_type? hindex r
  | result call i => exact callResultWith_eq (sees_oracle hindex d) call i

end Run

end CtxThread

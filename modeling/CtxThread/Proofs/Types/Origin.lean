import CtxThread.Proofs.Types.Refs
import CtxThread.Proofs.Types.Resolving
import Mathlib.Logic.Relation

/-!
# Where a name is bound

Which declaration binds a name can be seen without knowing any types. So can be seen which calls
are asked for their results when the name is looked up, and which names are looked up for these
calls in turn.

## Main definitions

- `Env.origin`: what binds an identifier
- `Env.callsIn`: the calls whose results a declaration asks for
- `Env.callee?`: the name that is looked up for the result of a call
- `Env.Refers`: looking up one identifier leads to looking up another, without a type between them
- `Env.Circular`: an identifier that leads back to itself

## Main statements

- `Env.lookupWith_eq`: looking up an identifier is asking what binds it
-/

namespace CtxThread

open Code (Tree Site)

/-- The values of a declaration, one by one. -/
def valueRefs (values : Option Ref) : List Ref :=
  (values.map fun v => v.site.listItems.map v.move).getD []

/-- The call whose results are bound to `count` names, if that is what the values are. -/
def valueCall? (count : Nat) (values : Option Ref) : Option Ref :=
  if (valueRefs values).length = count then none
  else match valueRefs values with
    | [e] => if e.node.kind = .callExpression then some e else none
    | _ => none

theorem valueCall?_eq_some {count : Nat} {values : Option Ref} {call : Ref}
    (h : valueCall? count values = some call) :
    (valueRefs values).length ≠ count ∧ valueRefs values = [call] ∧
      call.node.kind = .callExpression := by
  unfold valueCall? at h
  split at h
  · cases h
  · rename_i hlength
    split at h
    · rename_i e he
      split at h
      · rename_i hkind
        cases h
        exact ⟨hlength, he, hkind⟩
      · cases h
    · cases h

namespace Ref

/-- The names on the left side of a declaration or a clause. -/
def leftNames (stmt : Ref) : List (Option String) :=
  ((stmt.child? .left).map fun left => left.site.exprNames).getD []

/-- A range clause that declares its names. -/
def declares (clause : Ref) : Bool := clause.node.children.any (·.kind = .sign .define)

/-- The short declaration that opens a loop. -/
def shortInitializer? (clause : Ref) : Option Ref :=
  (clause.child? .initializer).filter (·.node.kind = .shortVarDeclaration)

/-- The specs of a declaration of variables. -/
def specs (decl : Ref) : List Ref := decl.site.varSpecs.map decl.move

/-- Whether a statement or a clause binds `name`. -/
def binds (stmt : Ref) (name : String) : Bool :=
  match stmt.node.kind with
  | .parameterList => stmt.node.paramDecls.any (·.names.contains name)
  | .shortVarDeclaration => stmt.leftNames.contains (some name)
  | .varDeclaration => stmt.specs.any (·.node.names.contains name)
  | .forClause => stmt.shortInitializer?.any (·.leftNames.contains (some name))
  | .rangeClause => stmt.declares && stmt.leftNames.contains (some name)
  | _ => false

/-- The ways to bind `name`: as a parameter, on the left of a short declaration or of a range
clause that declares, in a spec, or in the short declaration that opens a loop. -/
inductive Binds (name : String) (stmt : Ref) : Prop where
  | parameter (hkind : stmt.node.kind = .parameterList)
      (hname : stmt.node.paramDecls.any (·.names.contains name) = true)
  | short (hkind : stmt.node.kind = .shortVarDeclaration)
      (hname : stmt.leftNames.contains (some name) = true)
  | spec (hkind : stmt.node.kind = .varDeclaration) {spec : Ref} (hspec : spec ∈ stmt.specs)
      (hname : spec.node.names.contains name = true)
  | loop (hkind : stmt.node.kind = .forClause) {init : Ref}
      (hinit : stmt.shortInitializer? = some init)
      (hname : init.leftNames.contains (some name) = true)
  | range (hkind : stmt.node.kind = .rangeClause)
      (hname : (stmt.declares && stmt.leftNames.contains (some name)) = true)

theorem binds_cases {stmt : Ref} {name : String} (h : stmt.binds name = true) :
    Binds name stmt := by
  unfold binds at h
  split at h
  · next hkind => exact .parameter hkind h
  · next hkind => exact .short hkind h
  · next hkind =>
    obtain ⟨spec, hspec, hname⟩ := List.any_eq_true.mp h
    exact .spec hkind hspec hname
  · next hkind =>
    obtain ⟨init, hinit, hname⟩ := (Option.any_eq_true _ _).mp h
    exact .loop hkind hinit hname
  · next hkind => exact .range hkind h
  · cases h

end Ref

namespace Env

/-- The calls whose results a short declaration asks for. -/
def shortCalls (decl : Ref) (name : String) : List Ref :=
  if decl.leftNames.contains (some name) then
    (valueCall? decl.leftNames.length (decl.child? .right)).toList
  else []

/-- The calls whose results a spec asks for. -/
def specCalls (name : String) (spec : Ref) : List Ref :=
  if spec.node.names.contains name && (spec.node.child? .type).isNone then
    (valueCall? spec.node.names.length (spec.child? .value)).toList
  else []

/-- The calls whose results a statement or a clause asks for to bind `name`. -/
def callsIn (stmt : Ref) (name : String) : List Ref :=
  match stmt.node.kind with
  | .shortVarDeclaration => shortCalls stmt name
  | .varDeclaration => stmt.specs.flatMap (specCalls name)
  | .forClause => stmt.shortInitializer?.toList.flatMap (shortCalls · name)
  | _ => []

/-- What binds a name: a statement or a clause, or the case of a type switch that it is an alias
in. -/
inductive Origin where
  | declared (stmt : Ref)
  | inCase (b : Binding)

variable (env : Env)

/-- What a case around a node binds `name` to. -/
def caseBinding (here : Ref) (name : String) : Option Binding :=
  if here.node.kind = .typeCase ∨ here.node.kind = .defaultCase then env.bindCase here name
  else none

/-- What binds `name` around the node `inner`. -/
def climbOrigin (file : Nat) (name : String) : Tree → List Tree → Option Origin
  | _, [] => none
  | inner, outer :: around =>
    let here : Ref := ⟨file, ⟨outer, around⟩⟩
    let earlier := (outer.children.filter fun t => t.start < inner.start).reverse
    match earlier.find? fun t => (here.move (here.site.enter t)).binds name with
    | some t => some (.declared (here.move (here.site.enter t)))
    | none =>
      match env.caseBinding here name with
      | some b => some (.inCase b)
      | none => climbOrigin file name outer around

/-- What binds an identifier. -/
def origin (ident : Ref) : Option Origin :=
  (env.climbOrigin ident.file ident.node.text ident.node ident.site.around).or
    ((env.index.globals.lookup ident.node.text).map .declared)

/-- The calls whose results are asked for when an identifier is looked up. -/
def lookupCalls (ident : Ref) : List Ref :=
  match env.origin ident with
  | some (.declared stmt) => callsIn stmt ident.node.text
  | _ => []

/-- The name that is looked up for the result of a call: the function, or the package that it is
selected from. -/
def callee? (call : Ref) : Option Ref :=
  (call.child? .function).bind fun fn =>
    match fn.node.kind with
    | .identifier => some fn
    | .selectorExpression =>
      (fn.child? .operand).filter fun operand =>
        (fn.child? .field).isSome && operand.node.kind = .identifier &&
          (env.importPath? operand.file operand.node.text).isSome
    | _ => none

/-- Looking up the identifier `x` leads to looking up `y`, without asking for a type between
them. -/
def Refers (x y : Ref) : Prop := ∃ call ∈ env.lookupCalls x, env.callee? call = some y

/-- An identifier of the package leads back to itself. -/
def Circular : Prop := ∃ x ∈ env.refs, Relation.TransGen env.Refers x x

end Env

/-! ## Looking up -/

namespace Oracle

/-- A computation that, if it has a result, has found a binding. -/
def Definite (x : Resolving (Option Binding)) : Prop :=
  ∀ m b m', x m = some (b, m') → b.isSome = true

/-- After a computation that finds a binding, nothing else is tried. -/
theorem Definite.orElse {x : Resolving (Option Binding)} (hx : Definite x)
    (rest : Resolving (Option Binding)) :
    (do match ← x with
        | some b => return some b
        | none => rest) = x := by
  funext m
  change (x m).bind _ = x m
  cases h : x m with
  | none => rfl
  | some r =>
    obtain ⟨b, m'⟩ := r
    obtain ⟨b, rfl⟩ := Option.isSome_iff_exists.mp (hx m b m' h)
    rfl

theorem definite_pure (b : Binding) : Definite (pure (some b)) := by
  intro m b' m' h
  cases h
  rfl

theorem definite_map {α : Type} (x : Resolving α) (f : α → Binding) :
    Definite (do return some (f (← x))) := by
  intro m b m' h
  obtain ⟨a, m₁, _, ha⟩ := Resolving.bind_eq_some.mp h
  cases Resolving.pure_eq_some.mp ha
  rfl

/-- Trying steps in turn is taking the first that binds. -/
theorem firstBinding_eq {α : Type} {step : α → Resolving (Option Binding)} {p : α → Bool}
    {as : List α} (hnone : ∀ a ∈ as, p a = false → step a = pure none)
    (hsome : ∀ a ∈ as, p a = true → Definite (step a)) :
    firstBinding step as = match as.find? p with
      | some a => step a
      | none => pure none := by
  induction as with
  | nil => rfl
  | cons a as ih =>
    rw [firstBinding, List.find?_cons]
    cases hp : p a with
    | true => exact (hsome a List.mem_cons_self hp).orElse _
    | false =>
      rw [hnone a List.mem_cons_self hp, pure_bind]
      exact ih (fun b hb => hnone b (List.mem_cons_of_mem a hb))
        (fun b hb => hsome b (List.mem_cons_of_mem a hb))

/-- Several names are bound to the results of one call. -/
theorem bindValues_of_call (o : Oracle) {i count : Nat} {values : Option Ref} {call : Ref}
    (h : valueCall? count values = some call) :
    o.bindValues i count values = Binding.ofType <$> o.callResult call i := by
  obtain ⟨hlength, hvalues, hkind⟩ := valueCall?_eq_some h
  unfold bindValues
  unfold valueRefs at hlength hvalues
  dsimp only
  rw [if_neg hlength, hvalues]
  dsimp only
  rw [if_pos hkind]
  rfl

theorem bindShort_eq (o : Oracle) (decl : Ref) (name : String) :
    o.bindShort decl name =
      if decl.leftNames.contains (some name) then
        some <$> o.bindValues (decl.leftNames.idxOf (some name)) decl.leftNames.length
          (decl.child? .right)
      else pure none := by
  unfold bindShort Ref.leftNames
  cases decl.child? .left with
  | none => rfl
  | some left => rfl

theorem bindRange_eq (o : Oracle) (clause : Ref) (name : String) :
    o.bindRange clause name =
      if clause.declares && clause.leftNames.contains (some name) then
        if clause.leftNames.idxOf (some name) = 1 then
          match clause.child? .right with
          | some right => (fun t => some (Binding.ofType (t.bind Ty.elem?))) <$> o.typeOf right
          | none => pure (some .unknown)
        else pure (some .unknown)
      else pure none := by
  unfold bindRange Ref.leftNames
  cases clause.child? .left with
  | none => rw [Option.map_none, Option.getD_none, List.contains_nil, Bool.and_false]; rfl
  | some left => rfl

theorem definite_bindShort (o : Oracle) {decl : Ref} {name : String}
    (h : decl.leftNames.contains (some name) = true) : Definite (o.bindShort decl name) := by
  rw [bindShort_eq, if_pos h]
  exact definite_map _ id

theorem definite_bindRange (o : Oracle) {clause : Ref} {name : String}
    (h : (clause.declares && clause.leftNames.contains (some name)) = true) :
    Definite (o.bindRange clause name) := by
  rw [bindRange_eq, if_pos h]
  split
  · split
    · exact definite_map (o.typeOf _) fun t => .ofType (t.bind Ty.elem?)
    · exact definite_pure _
  · exact definite_pure _

end Oracle

namespace Env

open Oracle (Definite)

variable {env : Env} {o : Oracle} {name : String}

theorem bindSpec_of_not_mem {spec : Ref} (h : spec.node.names.contains name = false)
    (found : Option Binding) : env.bindSpec o name found spec = pure found := by
  unfold bindSpec
  rw [if_neg (by rw [h]; decide)]

theorem definite_bindSpec {spec : Ref} (h : spec.node.names.contains name = true)
    (found : Option Binding) : Definite (env.bindSpec o name found spec) := by
  unfold bindSpec
  rw [if_pos h]
  split
  · exact Oracle.definite_pure _
  · exact Oracle.definite_map _ id

theorem foldlM_bindSpec_of_not_mem {specs : List Ref} (found : Option Binding)
    (h : specs.any (·.node.names.contains name) = false) :
    specs.foldlM (env.bindSpec o name) found = pure found := by
  induction specs with
  | nil => rfl
  | cons spec specs ih =>
    rw [List.any_cons, Bool.or_eq_false_iff] at h
    rw [List.foldlM_cons, bindSpec_of_not_mem h.1, pure_bind, ih h.2]

/-- Later specs keep what earlier ones have bound, or bind the name anew. -/
theorem definite_foldlM_bindSpec {specs : List Ref} {found : Option Binding}
    (h : found.isSome = true ∨ specs.any (·.node.names.contains name) = true) :
    Definite (specs.foldlM (env.bindSpec o name) found) := by
  induction specs generalizing found with
  | nil =>
    rcases h with h | h
    · obtain ⟨b, rfl⟩ := Option.isSome_iff_exists.mp h
      exact Oracle.definite_pure b
    · cases h
  | cons spec specs ih =>
    rw [List.foldlM_cons]
    cases hspec : spec.node.names.contains name with
    | false =>
      rw [bindSpec_of_not_mem hspec, pure_bind]
      apply ih
      rwa [List.any_cons, hspec, Bool.false_or] at h
    | true =>
      intro m b m' hrun
      obtain ⟨b₁, m₁, hb₁, hrest⟩ := Resolving.bind_eq_some.mp hrun
      exact ih (.inl (definite_bindSpec hspec found m b₁ m₁ hb₁)) m₁ b m' hrest

theorem bindParameter_eq_none_iff {list : Ref} :
    env.bindParameter list name = none ↔
      list.node.paramDecls.any (·.names.contains name) = false := by
  simp [bindParameter]

theorem bindingIn_forClause {stmt : Ref} (h : stmt.node.kind = .forClause) :
    env.bindingIn o stmt name = match stmt.shortInitializer? with
      | some init => o.bindShort init name
      | none => pure none := by
  unfold bindingIn Ref.shortInitializer?
  rw [h]
  cases stmt.child? .initializer with
  | none => rfl
  | some init =>
    by_cases hshort : init.node.kind = .shortVarDeclaration
    · simp [Option.filter, hshort]
    · simp [Option.filter, hshort]

/-- A statement that does not bind the name asks no question. -/
theorem bindingIn_of_not_binds {stmt : Ref} (h : stmt.binds name = false) :
    env.bindingIn o stmt name = pure none := by
  unfold Ref.binds at h
  split at h
  case h_1 hkind =>
    rw [bindingIn, hkind]
    exact congrArg pure (bindParameter_eq_none_iff.mpr h)
  case h_2 hkind =>
    rw [bindingIn, hkind]
    dsimp only
    rw [Oracle.bindShort_eq, if_neg (by rw [h]; decide)]
  case h_3 hkind =>
    rw [bindingIn, hkind]
    exact foldlM_bindSpec_of_not_mem none h
  case h_4 hkind =>
    rw [bindingIn_forClause hkind]
    cases hinit : stmt.shortInitializer? with
    | none => rfl
    | some init =>
      rw [hinit, Option.any_some] at h
      dsimp only
      rw [Oracle.bindShort_eq, if_neg (by rw [h]; decide)]
  case h_5 hkind =>
    rw [bindingIn, hkind]
    dsimp only
    rw [Oracle.bindRange_eq, if_neg (by rw [h]; decide)]
  case h_6 => grind [bindingIn]

/-- A statement that binds the name finds a binding, if its questions are answered. -/
theorem definite_bindingIn {stmt : Ref} (h : stmt.binds name = true) :
    Definite (env.bindingIn o stmt name) := by
  cases Ref.binds_cases h with
  | parameter hkind hname =>
    rw [bindingIn, hkind]
    dsimp only
    cases hb : env.bindParameter stmt name with
    | none => rw [bindParameter_eq_none_iff.mp hb] at hname; cases hname
    | some b => exact Oracle.definite_pure b
  | short hkind hname =>
    rw [bindingIn, hkind]
    exact Oracle.definite_bindShort o hname
  | spec hkind hspec hname =>
    rw [bindingIn, hkind]
    exact definite_foldlM_bindSpec (.inr (List.any_eq_true.mpr ⟨_, hspec, hname⟩))
  | loop hkind hinit hname =>
    rw [bindingIn_forClause hkind, hinit]
    exact Oracle.definite_bindShort o hname
  | range hkind hname =>
    rw [bindingIn, hkind]
    exact Oracle.definite_bindRange o hname

/-- The binding that an origin stands for. -/
def bindingOf (env : Env) (o : Oracle) (name : String) : Option Origin → Resolving (Option Binding)
  | some (.declared stmt) => env.bindingIn o stmt name
  | some (.inCase b) => return some b
  | none => return none

theorem climb_eq (file : Nat) (inner : Tree) (around : List Tree) :
    env.climb o file name inner around =
      env.bindingOf o name (env.climbOrigin file name inner around) := by
  induction around generalizing inner with
  | nil => rfl
  | cons outer around ih =>
    rw [climb, climbOrigin]
    dsimp only
    rw [Oracle.firstBinding_eq (fun t _ => bindingIn_of_not_binds)
      (fun t _ => definite_bindingIn)]
    split
    · rename_i t ht
      have hbinds := List.find?_some ht
      rw [ht]
      exact (definite_bindingIn hbinds).orElse _
    · rename_i hnone
      rw [hnone, pure_bind]
      dsimp only
      have hcase : env.caseBinding ⟨file, ⟨outer, around⟩⟩ name =
          if outer.kind = .typeCase ∨ outer.kind = .defaultCase then
            env.bindCase ⟨file, ⟨outer, around⟩⟩ name
          else none := rfl
      rw [← hcase]
      cases env.caseBinding ⟨file, ⟨outer, around⟩⟩ name with
      | some b => rfl
      | none => exact ih outer

/-- The origin of a name binds it. -/
theorem binds_of_climbOrigin {file : Nat} {inner : Tree} {around : List Tree} {stmt : Ref}
    (h : env.climbOrigin file name inner around = some (.declared stmt)) :
    stmt.binds name = true := by
  induction around generalizing inner with
  | nil => cases h
  | cons outer around ih =>
    rw [climbOrigin] at h
    dsimp only at h
    split at h
    · rename_i t ht
      have hbinds := List.find?_some ht
      cases h
      exact hbinds
    · split at h
      · cases h
      · exact ih h

/-- Looking up an identifier is asking what its origin binds it to. -/
theorem lookupWith_eq (ident : Ref) :
    env.lookupWith o ident = env.bindingOf o ident.node.text (env.origin ident) := by
  rw [lookupWith, climb_eq, origin]
  cases h : env.climbOrigin ident.file ident.node.text ident.node ident.site.around with
  | none =>
    rw [bindingOf, pure_bind, Option.none_or]
    cases env.index.globals.lookup ident.node.text with
    | none => rfl
    | some decl => rfl
  | some from_ =>
    cases from_ with
    | inCase b => rfl
    | declared stmt => exact (definite_bindingIn (binds_of_climbOrigin h)).orElse _

end Env

end CtxThread

import CtxThread.Types.Env

/-!
# Types of expressions

The static type of an expression is found from the declarations in sight: parameters, variables,
fields, results of functions, elements of containers. What cannot be seen has no type.

Answers are remembered, and an expression whose type is being looked for has none meanwhile. The
three questions below refer to one another, so each answer is given by way of an `Oracle` for the
questions it leads to; the number of questions nested in one another is bounded.

## Main definitions

- `Binding`: what a name is bound to
- `Memo`, `Resolving`: the answers so far, and computations that use and extend them
- `Oracle`: answers to the questions about types
- `Env.oracle`: the oracle that nests at most a given number of questions
- `Env.typeOf`, `Env.lookup`, `Env.callResult`: the questions
-/

namespace CtxThread

open Code (Tree Site Kind)

/-- What a name is bound to: a value of a known type, or one whose type is not known. Either
hides outer declarations of the name. -/
inductive Binding where
  | typed (t : Ty)
  | unknown
  deriving DecidableEq

namespace Binding

/-- The binding to a value whose type may be known. -/
def ofType : Option Ty → Binding
  | some t => .typed t
  | none => .unknown

/-- The type of the value, if it is known. -/
def type? : Binding → Option Ty
  | .typed t => some t
  | .unknown => none

end Binding

/-- The types found so far, and the nodes whose types are being looked for. -/
structure Memo where
  answers : List (NodeId × Option Ty) := []
  active : List NodeId := []

/-- A computation that uses and extends the types found so far. It has no result when questions
are nested too deep. -/
abbrev Resolving := StateT Memo Option

/-- Answers to the questions about types. -/
structure Oracle where
  /-- The type of an expression. -/
  typeOf : Ref → Resolving (Option Ty)
  /-- What an identifier is bound to where it stands. -/
  lookup : Ref → Resolving (Option Binding)
  /-- The type of one result of a call. -/
  callResult : Ref → Nat → Resolving (Option Ty)

namespace Oracle

/-- The oracle that answers no question. -/
def silent : Oracle := ⟨fun _ => failure, fun _ => failure, fun _ _ => failure⟩

/-- What name `i` of `count` is bound to, given the values. One call may have as many results as
there are names, and a type assertion or an index may yield two values. -/
def bindValues (o : Oracle) (i count : Nat) (values : Option Ref) : Resolving Binding := do
  let exprs := (values.map fun v => v.site.listItems.map v.move).getD []
  if exprs.length = count then
    match exprs[i]? with
    | some e => return .ofType (← o.typeOf e)
    | none => return .unknown
  else
    match exprs with
    | [e] =>
      if e.node.kind = .callExpression then return .ofType (← o.callResult e i)
      else if count = 2 ∧ i = 0 ∧
          (e.node.kind = .typeAssertionExpression ∨ e.node.kind = .indexExpression) then
        return .ofType (← o.typeOf e)
      else return .unknown
    | _ => return .unknown

/-- What a short variable declaration binds `name` to. -/
def bindShort (o : Oracle) (decl : Ref) (name : String) : Resolving (Option Binding) := do
  match decl.child? .left with
  | none => return none
  | some left =>
    let names := left.site.exprNames
    if names.contains (some name) then
      return some (← o.bindValues (names.idxOf (some name)) names.length (decl.child? .right))
    else return none

/-- What a range clause binds `name` to: the second name is an element of the container. -/
def bindRange (o : Oracle) (clause : Ref) (name : String) : Resolving (Option Binding) := do
  match clause.child? .left with
  | none => return none
  | some left =>
    let names := left.site.exprNames
    let declares := clause.node.children.any (·.kind = .sign .define)
    if declares && names.contains (some name) then
      if names.idxOf (some name) = 1 then
        match clause.child? .right with
        | some right => return some (.ofType ((← o.typeOf right).bind Ty.elem?))
        | none => return some .unknown
      else return some .unknown
    else return none

/-- The first binding that one of the steps finds. -/
def firstBinding {α : Type} (step : α → Resolving (Option Binding)) :
    List α → Resolving (Option Binding)
  | [] => return none
  | a :: as => do
    match ← step a with
    | some b => return some b
    | none => firstBinding step as

end Oracle

namespace Env

/-- What a parameter list binds `name` to. A variadic parameter has no type of its own here. -/
def bindParameter (env : Env) (list : Ref) (name : String) : Option Binding :=
  (list.node.paramDecls.find? fun d => d.names.contains name).map fun d =>
    if d.kind = .variadicParameterDeclaration then .unknown
    else .ofType ((d.child? .type).bind (env.typeExpr list.file))

/-- What one spec of a variable declaration binds `name` to, if it names it; else what was found
before. -/
def bindSpec (env : Env) (o : Oracle) (name : String) (found : Option Binding) (spec : Ref) :
    Resolving (Option Binding) := do
  let names := spec.node.names
  if names.contains name then
    match spec.node.child? .type with
    | some type => return some (.ofType (env.typeExpr spec.file type))
    | none => return some (← o.bindValues (names.idxOf name) names.length (spec.child? .value))
  else return found

/-- What a statement or a clause binds `name` to. Of several specs of one declaration that name
it, the last counts. -/
def bindingIn (env : Env) (o : Oracle) (stmt : Ref) (name : String) :
    Resolving (Option Binding) := do
  match stmt.node.kind with
  | .parameterList => return env.bindParameter stmt name
  | .shortVarDeclaration => o.bindShort stmt name
  | .varDeclaration =>
    (stmt.site.varSpecs.map stmt.move).foldlM (env.bindSpec o name) none
  | .forClause =>
    match stmt.child? .initializer with
    | some init =>
      if init.node.kind = .shortVarDeclaration then o.bindShort init name else return none
    | none => return none
  | .rangeClause => o.bindRange stmt name
  | _ => return none

/-- What a case of a type switch binds `name` to: the alias has the type of a case that lists just
one. -/
def bindCase (env : Env) (case : Ref) (name : String) : Option Binding :=
  match case.site.around with
  | [] => none
  | switch :: around =>
    (Site.child? ⟨switch, around⟩ .binder).bind fun guard =>
      if guard.exprNames.contains (some name) then
        match (if case.node.kind = .typeCase then case.node.childrenIn .type else []) with
        | [type] => some (.ofType (env.typeExpr case.file type))
        | _ => some .unknown
      else none

/-- Looks for a binding of `name` around the node `inner`: among what comes before it in the
node around it, the nearest first, then one level further out. -/
def climb (env : Env) (o : Oracle) (file : Nat) (name : String) :
    Tree → List Tree → Resolving (Option Binding)
  | _, [] => return none
  | inner, outer :: around => do
    let earlier := (outer.children.filter fun t => t.start < inner.start).reverse
    let here : Ref := ⟨file, ⟨outer, around⟩⟩
    match ← Oracle.firstBinding
        (fun t => env.bindingIn o (here.move (here.site.enter t)) name) earlier with
    | some b => return some b
    | none =>
      let inCase :=
        if outer.kind = .typeCase ∨ outer.kind = .defaultCase then env.bindCase here name
        else none
      match inCase with
      | some b => return some b
      | none => env.climb o file name outer around

/-- What an identifier is bound to where it stands: by a declaration around it, or else by a
variable of the package. -/
def lookupWith (env : Env) (o : Oracle) (ident : Ref) : Resolving (Option Binding) := do
  let name := ident.node.text
  match ← env.climb o ident.file name ident.node ident.site.around with
  | some b => return some b
  | none =>
    match env.index.globals.lookup name with
    | some decl => env.bindingIn o decl name
    | none => return none

/-- Whether an identifier stands for an imported package. -/
def isPackageNameWith (env : Env) (o : Oracle) (ident : Ref) : Resolving Bool := do
  if (env.importPath? ident.file ident.node.text).isSome then
    return (← o.lookup ident).isNone
  else return false

/-- Whether the operand of a selector stands for an imported package. -/
def selectsPackage (env : Env) (o : Oracle) (operand : Ref) : Resolving Bool := do
  if operand.node.kind = .identifier then env.isPackageNameWith o operand else return false

/-- The type of a selector: a field of a struct type of the package. -/
def selectorType (env : Env) (o : Oracle) (sel : Ref) : Resolving (Option Ty) := do
  match sel.child? .operand, sel.child? .field with
  | some operand, some field =>
    if ← env.selectsPackage o operand then return none
    else
      match ← o.typeOf operand with
      | some (.named pkg name pointer) =>
        if env.isLocal (.named pkg name pointer) then
          return env.fieldType name field.node.text
        else return none
      | _ => return none
  | _, _ => return none

/-- The type of a call of `new` or `make`, which its first argument spells. -/
def allocatedType (env : Env) (name : String) (call : Ref) : Option Ty :=
  call.node.arguments.head?.bind fun first =>
    (env.typeOperand call.file first).bind fun t =>
      if name = "make" then t.elem?.map fun _ => t else t.address?

/-- The type of one result of a call by a plain name: of a function of the package, of a
conversion, or of an allocation. A variable of that name hides them all. -/
def namedCallResult (env : Env) (o : Oracle) (call fn : Ref) (index : Nat) :
    Resolving (Option Ty) := do
  let name := fn.node.text
  match ← o.lookup fn with
  | some _ => return none
  | none =>
    match env.index.funcs.lookup name with
    | some decl => return env.declaredResult decl index
    | none =>
      if index = 0 then
        if (env.index.types.lookup name).isSome then return env.namedType name
        else if name = "new" ∨ name = "make" then return env.allocatedType name call
        else return none
      else return none

/-- The type of one result of a call of a method or of a function of another package. -/
def selectedCallResult (env : Env) (o : Oracle) (fn : Ref) (index : Nat) :
    Resolving (Option Ty) := do
  match fn.child? .operand, fn.child? .field with
  | some operand, some field =>
    let member := field.node.text
    if ← env.selectsPackage o operand then
      return (env.importPath? operand.file operand.node.text).bind fun path =>
        Known.functionResult? path member index
    else
      match ← o.typeOf operand with
      | some (.named pkg name pointer) =>
        if env.isLocal (.named pkg name pointer) then
          return (env.index.methods.lookup (name, member)).bind fun decl =>
            env.declaredResult decl index
        else if pointer then return Known.methodResult? pkg name member index
        else return none
      | _ => return none
  | _, _ => return none

/-- The type of one result of a call. -/
def callResultWith (env : Env) (o : Oracle) (call : Ref) (index : Nat) :
    Resolving (Option Ty) := do
  match call.child? .function with
  | none => return none
  | some fn =>
    match fn.node.kind with
    | .identifier => env.namedCallResult o call fn index
    | .selectorExpression => env.selectedCallResult o fn index
    | _ => return none

/-- The type of an operand, if there is one. -/
def typeOfChild (o : Oracle) (child : Option Ref) : Resolving (Option Ty) :=
  match child with
  | some r => o.typeOf r
  | none => return none

/-- The type of an expression, found anew. -/
def freshType (env : Env) (o : Oracle) (expr : Ref) : Resolving (Option Ty) := do
  match expr.node.kind with
  | .identifier => return (← o.lookup expr).bind Binding.type?
  | .parenthesizedExpression => typeOfChild o expr.firstItem?
  | .selectorExpression => env.selectorType o expr
  | .callExpression => o.callResult expr 0
  | .typeAssertionExpression => return env.typeChild expr
  | .indexExpression => return (← typeOfChild o (expr.child? .operand)).bind Ty.elem?
  | .sliceExpression => return (← typeOfChild o (expr.child? .operand)).bind Ty.sliced?
  | .compositeLiteral => return env.typeChild expr
  | .unaryExpression =>
    match expr.node.child? .operator, expr.child? .operand with
    | some operator, some operand =>
      if operator.kind = .sign .amp ∧ operand.node.kind = .compositeLiteral then
        return (← o.typeOf operand).bind Ty.address?
      else return none
    | _, _ => return none
  | _ => return none

/-- The type of an expression: the answer remembered, none while it is being looked for, or else
found anew and remembered. -/
def typeOfWith (env : Env) (o : Oracle) (expr : Ref) : Resolving (Option Ty) := do
  let memo ← get
  match memo.answers.lookup expr.id with
  | some answer => return answer
  | none =>
    if memo.active.contains expr.id then return none
    else
      modify fun m => { m with active := expr.id :: m.active }
      let answer ← env.freshType o expr
      modify fun m =>
        { answers := (expr.id, answer) :: m.answers, active := m.active.erase expr.id }
      return answer

/-- The oracle that nests at most `depth` questions. -/
def oracle (env : Env) : Nat → Oracle
  | 0 => .silent
  | depth + 1 =>
    { typeOf := fun r => env.typeOfWith (env.oracle depth) r
      lookup := fun r => env.lookupWith (env.oracle depth) r
      callResult := fun r i => env.callResultWith (env.oracle depth) r i }

/-- The number of nodes of a package. -/
def nodeCount (env : Env) : Nat := env.files.foldr (fun f n => f.root.size + n) 0

/-- The number of calls in a package. -/
def callCount (env : Env) : Nat :=
  env.files.foldr (fun f n => (f.root.allOfKind .callExpression).length + n) 0

/-- The number of nested questions that are followed. Below one question for the type of a node,
names are looked up from call to call, and no node and no call comes twice. -/
def depth (env : Env) : Nat := (env.nodeCount + 1) * (2 * env.callCount + 3)

/-- The type of an expression. -/
def typeOf (env : Env) (expr : Ref) : Resolving (Option Ty) :=
  (env.oracle env.depth).typeOf expr

/-- What an identifier is bound to where it stands. -/
def lookup (env : Env) (ident : Ref) : Resolving (Option Binding) :=
  (env.oracle env.depth).lookup ident

/-- The type of one result of a call. -/
def callResult (env : Env) (call : Ref) (index : Nat) : Resolving (Option Ty) :=
  (env.oracle env.depth).callResult call index

/-- Whether an identifier stands for an imported package. -/
def isPackageName (env : Env) (ident : Ref) : Resolving Bool :=
  env.isPackageNameWith (env.oracle env.depth) ident

end Env

end CtxThread

import CtxThread.Types.Resolve

/-!
# Database calls

Methods of database values have variants that take a context first. A call of such a method is
directed at the variant when the value it is called on is known to be a database value.

## Main definitions

- `Retarget.sqlMethods`, `Retarget.sqlxMethods`: the methods and their variants
- `Retarget.hit`: the method name of a call that is to be replaced, and by what
-/

namespace CtxThread.Retarget

open Code (Tree)

/-- Methods of a handle of the standard database package. -/
def sqlMethods : List (String × String) :=
  [("Query", "QueryContext"), ("Exec", "ExecContext"), ("Prepare", "PrepareContext"),
   ("QueryRow", "QueryRowContext")]

/-- Methods of any value of the extended database package. -/
def sqlxMethods : List (String × String) :=
  [("Connect", "ConnectContext"), ("Get", "GetContext"), ("MustExec", "MustExecContext"),
   ("NamedExec", "NamedExecContext"), ("NamedQuery", "NamedQueryContext"),
   ("PrepareNamed", "PrepareNamedContext"), ("QueryRowx", "QueryRowxContext"),
   ("Queryx", "QueryxContext"), ("Select", "SelectContext")]

/-- The value that a method is called on, and the name of the method. -/
def methodCall? (call : Ref) : Option (Ref × Tree) :=
  (call.child? .function).bind fun fn =>
    if fn.node.kind = .selectorExpression then
      match fn.child? .operand, fn.node.child? .field with
      | some operand, some field => some (operand, field)
      | _, _ => none
    else none

/-- A pointer to a handle of the standard database package. -/
def isSqlHandle : Ty → Bool
  | .named pkg name pointer => pointer && pkg = Naming.sqlPath && name = Naming.sqlHandle
  | .container _ _ => false

/-- A value of the extended database package. -/
def isSqlxValue : Ty → Bool
  | .named pkg _ _ => pkg = Naming.sqlxPath
  | .container _ _ => false

/-- The method name of a call that is in the table and called on a value of the given class, and
its variant. -/
def hitIn (env : Env) (table : List (String × String)) (isValue : Ty → Bool) (call : Ref) :
    Resolving (Option (Tree × String)) := do
  match methodCall? call with
  | none => return none
  | some (operand, field) =>
    match table.lookup field.text with
    | none => return none
    | some variant =>
      if (← env.typeOf operand).any isValue then return some (field, variant) else return none

/-- The hit of a call on a handle of the standard database package. -/
def sqlHit (env : Env) (call : Ref) : Resolving (Option (Tree × String)) :=
  hitIn env sqlMethods isSqlHandle call

/-- The hit of a call on a value of the extended database package. -/
def sqlxHit (env : Env) (call : Ref) : Resolving (Option (Tree × String)) :=
  hitIn env sqlxMethods isSqlxValue call

/-- The method name of a call that is to be replaced, and by what. -/
def hit (env : Env) (call : Ref) : Resolving (Option (Tree × String)) := do
  match ← sqlHit env call with
  | some h => return some h
  | none => sqlxHit env call

end CtxThread.Retarget

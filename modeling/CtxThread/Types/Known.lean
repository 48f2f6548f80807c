import CtxThread.Naming
import CtxThread.Types.Basic

/-!
# Known functions and methods

What the constructors and methods of the two database packages return. A result whose type does
not matter is left open.
-/

namespace CtxThread.Known

open Naming

/-- A pointer to a type of the standard database package. -/
def sql (name : String) : Option Ty := some (.named sqlPath name true)

/-- A pointer to a type of the extended database package. -/
def sqlx (name : String) : Option Ty := some (.named sqlxPath name true)

/-- Functions by package path and name, with the types of their results. -/
def functions : List ((String × String) × List (Option Ty)) :=
  [((sqlPath, "Open"), [sql "DB", none]),
   ((sqlPath, "OpenDB"), [sql "DB"]),
   ((sqlxPath, "Open"), [sqlx "DB", none]),
   ((sqlxPath, "Connect"), [sqlx "DB", none]),
   ((sqlxPath, "ConnectContext"), [sqlx "DB", none]),
   ((sqlxPath, "MustOpen"), [sqlx "DB"]),
   ((sqlxPath, "MustConnect"), [sqlx "DB"]),
   ((sqlxPath, "NewDb"), [sqlx "DB"])]

/-- Methods of pointers by package path, type and name, with the types of their results. -/
def methods : List ((String × String × String) × List (Option Ty)) :=
  [((sqlPath, "DB", "Begin"), [sql "Tx", none]),
   ((sqlPath, "DB", "BeginTx"), [sql "Tx", none]),
   ((sqlPath, "DB", "Conn"), [sql "Conn", none]),
   ((sqlPath, "DB", "Prepare"), [sql "Stmt", none]),
   ((sqlPath, "DB", "PrepareContext"), [sql "Stmt", none]),
   ((sqlxPath, "DB", "Beginx"), [sqlx "Tx", none]),
   ((sqlxPath, "DB", "BeginTxx"), [sqlx "Tx", none]),
   ((sqlxPath, "DB", "MustBegin"), [sqlx "Tx"]),
   ((sqlxPath, "DB", "MustBeginTx"), [sqlx "Tx"]),
   ((sqlxPath, "DB", "Preparex"), [sqlx "Stmt", none]),
   ((sqlxPath, "Tx", "Preparex"), [sqlx "Stmt", none]),
   ((sqlxPath, "DB", "Unsafe"), [sqlx "DB"])]

/-- The type of one result of a function of another package. -/
def functionResult? (path name : String) (index : Nat) : Option Ty :=
  (functions.lookup (path, name)).bind fun results => (results[index]?).join

/-- The type of one result of a method of a pointer to a type of another package. -/
def methodResult? (path type name : String) (index : Nat) : Option Ty :=
  (methods.lookup (path, type, name)).bind fun results => (results[index]?).join

end CtxThread.Known

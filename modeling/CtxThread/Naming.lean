/-!
# Names of convention

The names that the updated code uses for its context, and the libraries it is about.
-/

namespace CtxThread.Naming

/-- The variable that carries the context. -/
def context : String := "ctx"

/-- The parameter that a function gains. -/
def contextParameter : String := "ctx context.Context"

/-- First arguments that already carry a context: the variable itself, and the variable that
holds a framework's request. -/
def threadedArguments : List String := ["ctx", "c"]

/-- The path of the package that declares the context type. -/
def contextPath : String := "context"

/-- The path of the standard database package. -/
def sqlPath : String := "database/sql"

/-- The path of the extended database package. -/
def sqlxPath : String := "github.com/jmoiron/sqlx"

/-- The type of a database handle in the standard package. -/
def sqlHandle : String := "DB"

/-- The statement that binds the context in a handler of the standard library. -/
def httpSeed : String := "ctx := r.Context()"

/-- The statement that binds the context in a handler of the web framework. -/
def echoSeed : String := "ctx := c.Request().Context()"

/-- The functions that the runtime calls itself. -/
def entryPoints : List String := ["main", "init"]

/-- The extension of source files. -/
def extension : String := ".go"

end CtxThread.Naming

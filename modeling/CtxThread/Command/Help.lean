/-!
# Usage and help

The texts that tell how the command is used.
-/

namespace CtxThread.Help

/-- How the command is called. -/
def usage : String :=
  "usage: sqlctxize [-h] [-w] [-dir DIR] [-no-gofmt] [-report REPORT]\n" ++
  "                 [-dump-ast DIR] [-http-ident HTTP_IDENT]\n" ++
  "                 [-echo-ident ECHO_IDENT] [-v]\n" ++
  "                 [files ...]\n"

/-- What the command does and what its flags mean. -/
def help : String :=
  usage ++
  "\n" ++
  "Thread context.Context through database/sql and sqlx calls in a Go package.\n" ++
  "\n" ++
  "positional arguments:\n" ++
  "  files                 only rewrite these file names inside -dir\n" ++
  "\n" ++
  "options:\n" ++
  "  -h, --help            show this help message and exit\n" ++
  "  -w                    overwrite source files instead of printing them\n" ++
  "  -dir DIR              directory whose .go files are rewritten (default: .)\n" ++
  "  -no-gofmt             do not pipe output through gofmt\n" ++
  "  -report REPORT        write a JSON summary of the rewrite to this path\n" ++
  "  -dump-ast DIR         write each file's syntax tree to DIR\n" ++
  "  -http-ident HTTP_IDENT\n" ++
  "                        package identifier of net/http (default: http)\n" ++
  "  -echo-ident ECHO_IDENT\n" ++
  "                        package identifier of echo (default: echo)\n" ++
  "  -v                    log per-file progress\n"

/-- How wrong arguments are reported. -/
def complaint (message : String) : String := usage ++ "sqlctxize: error: " ++ message ++ "\n"

end CtxThread.Help

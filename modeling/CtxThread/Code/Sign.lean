/-!
# Keywords and punctuation

The fixed words and signs of Go. Each is a token that is its own name in a syntax tree.

## Main definitions

- `Code.Sign`: a keyword, an operator or a bracket
- `Code.Sign.spelling`: how it is written
- `Code.Sign.keywords`, `Code.Sign.punctuation`: the tables a scanner looks up
-/

namespace CtxThread.Code

/-- A keyword, an operator, a bracket or a quotation mark. -/
inductive Sign where
  | kwBreak | kwCase | kwChan | kwConst | kwContinue | kwDefault | kwDefer | kwElse
  | kwFallthrough | kwFor | kwFunc | kwGo | kwGoto | kwIf | kwImport | kwInterface | kwMap
  | kwPackage | kwRange | kwReturn | kwSelect | kwStruct | kwSwitch | kwType | kwVar
  | lparen | rparen | lbracket | rbracket | lbrace | rbrace | comma | semicolon | colon | dot
  | ellipsis | define | assign | arrow | increment | decrement | plus | minus | star | slash
  | percent | amp | bar | caret | shiftLeft | shiftRight | ampCaret | andAnd | barBar | bang
  | tilde | equal | notEqual | less | lessEqual | greater | greaterEqual | plusAssign
  | minusAssign | starAssign | slashAssign | percentAssign | shiftLeftAssign | shiftRightAssign
  | ampAssign | ampCaretAssign | barAssign | caretAssign
  | quote | backquote
  deriving DecidableEq

namespace Sign

/-- The keywords with their spelling. -/
def keywords : List (String × Sign) :=
  [("break", .kwBreak), ("case", .kwCase), ("chan", .kwChan), ("const", .kwConst),
   ("continue", .kwContinue), ("default", .kwDefault), ("defer", .kwDefer), ("else", .kwElse),
   ("fallthrough", .kwFallthrough), ("for", .kwFor), ("func", .kwFunc), ("go", .kwGo),
   ("goto", .kwGoto), ("if", .kwIf), ("import", .kwImport), ("interface", .kwInterface),
   ("map", .kwMap), ("package", .kwPackage), ("range", .kwRange), ("return", .kwReturn),
   ("select", .kwSelect), ("struct", .kwStruct), ("switch", .kwSwitch), ("type", .kwType),
   ("var", .kwVar)]

/-- The operators and brackets with their spelling, longer ones first, so that the first that
fits is the longest. -/
def punctuation : List (String × Sign) :=
  [("...", .ellipsis), ("<<=", .shiftLeftAssign), (">>=", .shiftRightAssign),
   ("&^=", .ampCaretAssign), (":=", .define), ("<-", .arrow), ("++", .increment),
   ("--", .decrement), ("<<", .shiftLeft), (">>", .shiftRight), ("&^", .ampCaret),
   ("&&", .andAnd), ("||", .barBar), ("==", .equal), ("!=", .notEqual), ("<=", .lessEqual),
   (">=", .greaterEqual), ("+=", .plusAssign), ("-=", .minusAssign), ("*=", .starAssign),
   ("/=", .slashAssign), ("%=", .percentAssign), ("&=", .ampAssign), ("|=", .barAssign),
   ("^=", .caretAssign), ("(", .lparen), (")", .rparen), ("[", .lbracket), ("]", .rbracket),
   ("\x7b", .lbrace), ("\x7d", .rbrace), (",", .comma), (";", .semicolon), (":", .colon),
   (".", .dot), ("=", .assign), ("+", .plus), ("-", .minus), ("*", .star), ("/", .slash),
   ("%", .percent), ("&", .amp), ("|", .bar), ("^", .caret), ("!", .bang), ("~", .tilde),
   ("<", .less), (">", .greater)]

/-- The quotation marks with their spelling. -/
def quotes : List (String × Sign) :=
  [("\"", .quote), ("\x60", .backquote)]

/-- How a sign is written. -/
def spelling (s : Sign) : String :=
  (((keywords ++ punctuation ++ quotes).find? fun e => e.2 = s).map (·.1)).getD ""

end Sign

end CtxThread.Code

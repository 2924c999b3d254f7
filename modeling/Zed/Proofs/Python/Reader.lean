import Zed.Proofs.Python.Execution
import Zed.Proofs.Python.Scanner
import Zed.Text.Lines

/-!
# Reading scripts

How Python reads a script, for the statements that scripts are made of.

* Expressions have the levels of Python: single operands, products, sums, comparisons, `not`, `and`
  and `or`. Operators of one level are joined from the left. Two comparisons in a row, which Python
  would chain, are not read.
* Blocks are given by indentation: a line owns the deeper lines right after it, and these must begin
  at the same column. Blank lines do not count.
* An `elif` or `else` belongs to the `if` before it at the same depth.
* A script ends with the call of a function. What runs is the suite of the definition of that
  function, which is there only once.
-/

set_option autoImplicit false

namespace Zed.Python

/-- Reads something off the front of a list of tokens. -/
abbrev Reader (α : Type) : Type :=
  List Tok → Option (α × List Tok)

/-! ## Expressions -/

/-- The operator that a token is, if it is one. -/
def Tok.operator? : Tok → Option Operator
  | .name "or" => some .or
  | .name "and" => some .and
  | .sign .atLeast => some (.compare .atLeast)
  | .sign .atMost => some (.compare .atMost)
  | .sign .greater => some (.compare .greater)
  | .sign .less => some (.compare .less)
  | .sign .equal => some (.compare .equal)
  | .sign .plus => some .add
  | .sign .star => some .mul
  | _ => none

/-- How loosely an operator binds: the operands of a level are expressions of the levels below it.
Level 4 is that of `not`. -/
def Operator.level : Operator → Nat
  | .mul => 1
  | .add => 2
  | .compare _ => 3
  | .and => 5
  | .or => 6

/-- The operator of a given level at the front of a list of tokens, and what follows it. -/
def operatorAt (level : Nat) : List Tok → Option (Operator × List Tok)
  | [] => none
  | t :: ts => (t.operator?.filter fun operator => operator.level = level).map fun op => (op, ts)

/-- Goes on after an operand: as long as operators of the level follow, joins from the left. -/
def chainFrom (level : Nat) (operand : Reader Expr) : (fuel : Nat) → Expr → Reader Expr
  | 0, left, ts => some (left, ts)
  | fuel + 1, left, ts =>
    match operatorAt level ts with
    | none => some (left, ts)
    | some (operator, rest) =>
      (operand rest).bind fun r => chainFrom level operand fuel (.binary operator left r.1) r.2

/-- Operands joined by operators of one level. -/
def chain (level : Nat) (operand : Reader Expr) : Reader Expr :=
  fun ts => (operand ts).bind fun r => chainFrom level operand ts.length r.1 r.2

/-- An operand, or two with a comparison between them. -/
def comparison (operand : Reader Expr) : Reader Expr :=
  fun ts => (operand ts).bind fun l =>
    match operatorAt 3 l.2 with
    | none => some l
    | some (operator, rest) => (operand rest).map fun r => (.binary operator l.1 r.1, r.2)

/-- Any number of `not` before an operand. -/
def inversion (operand : Reader Expr) : (fuel : Nat) → Reader Expr
  | fuel + 1, .name "not" :: ts => (inversion operand fuel ts).map fun r => (.not r.1, r.2)
  | _, ts => operand ts

/-- Expressions of a level, made of expressions of the level below. -/
def above (level : Nat) (tighter : Reader Expr) : Reader Expr :=
  if level = 3 then comparison tighter
  else if level = 4 then fun ts => inversion tighter ts.length ts
  else chain level tighter

/-- Expressions of a level, made of single operands. -/
def upTo (operand : Reader Expr) : (level : Nat) → Reader Expr
  | 0 => operand
  | level + 1 => above (level + 1) (upTo operand level)

/-- The arguments of a call after its bracket, at least one and with commas between them, and
the closing bracket. -/
def arguments (expr : Reader Expr) : (fuel : Nat) → Reader (List Expr)
  | 0, _ => none
  | fuel + 1, ts =>
    match expr ts with
    | some (e, .sign .close :: rest) => some ([e], rest)
    | some (e, .sign .comma :: rest) => (arguments expr fuel rest).map fun r => (e :: r.1, r.2)
    | _ => none

/-- A name is a variable, or with a bracket after it the function of a call. -/
def named (expr : Reader Expr) (x : String) : Reader Expr
  | .sign .open :: ts => (arguments expr ts.length ts).map fun r => (.call x r.1, r.2)
  | ts => some (.name x, ts)

/-- A single operand: a constant, a name, a call, or an expression in brackets. -/
def operand (expr : Reader Expr) : Reader Expr
  | .int n :: ts => some (.int n, ts)
  | .float x :: ts => some (.float x, ts)
  | .text body :: ts => some (.text body, ts)
  | .name x :: ts =>
    if x = "True" then some (.constant true, ts)
    else if x = "False" then some (.constant false, ts)
    else if Script.reservedWords.contains x then none
    else named expr x ts
  | .sign .open :: ts =>
    match expr ts with
    | some (e, .sign .close :: rest) => some (e, rest)
    | _ => none
  | _ => none

/-- An expression, with brackets nested less deep than `fuel`. -/
def expr : (fuel : Nat) → Reader Expr
  | 0, _ => none
  | fuel + 1, ts => upTo (operand (expr fuel)) 6 ts

/-- An expression that goes on to an end of its line. -/
def exprTo (last : List Tok) (ts : List Tok) : Option Expr :=
  match expr (ts.length + 1) ts with
  | some (e, rest) => if rest = last then some e else none
  | none => none

/-! ## Lines -/

/-- A line that opens a suite. -/
inductive Head where
  | ifTest (test : Expr)
  | elifTest (test : Expr)
  | otherwise
  | whileTest (test : Expr)
  | forRange (target : String) (arguments : List Expr)

/-- What a line of a script says. -/
inductive Line where
  | simple (s : Stmt)
  | head (h : Head)

/-- The end of a call of `print`: the separator and the closing bracket. -/
def printEnd : List Tok → Option (List Expr × String)
  | [.name "sep", .sign .assign, .text separator, .sign .close] => some ([], separator)
  | _ => none

/-- The arguments of a call of `print` after its bracket, and its end. -/
def printArguments : (fuel : Nat) → List Tok → Option (List Expr × String)
  | 0, _ => none
  | fuel + 1, ts =>
    match expr (ts.length + 1) ts with
    | some (e, .sign .comma :: rest) => (printArguments fuel rest).map fun r => (e :: r.1, r.2)
    | _ => printEnd ts

/-- Reads a line. -/
def line : List Tok → Option Line
  | [.name "pass"] => some (.simple .pass)
  | [.name "break"] => some (.simple .leave)
  | [.name "else", .sign .colon] => some (.head .otherwise)
  | .name "if" :: ts => (exprTo [.sign .colon] ts).map fun e => .head (.ifTest e)
  | .name "elif" :: ts => (exprTo [.sign .colon] ts).map fun e => .head (.elifTest e)
  | .name "while" :: ts => (exprTo [.sign .colon] ts).map fun e => .head (.whileTest e)
  | .name "for" :: .name x :: .name "in" :: .name "range" :: .sign .open :: ts =>
    match arguments (expr (ts.length + 1)) ts.length ts with
    | some (es, [.sign .colon]) => some (.head (.forRange x es))
    | _ => none
  | .name "print" :: .sign .open :: ts =>
    (printArguments ts.length ts).map fun r => .simple (.print r.1 r.2)
  | .name x :: .sign .assign :: ts =>
    if Script.reservedWords.contains x then none
    else (exprTo [] ts).map fun e => .simple (.assign x e)
  | _ => none

/-! ## Layout -/

/-- A line with its column and the deeper lines that belong to it. -/
inductive Tree where
  | node (column : Nat) (line : List Tok) (children : List Tree)

/-- The column of the first line of a tree. -/
def Tree.column : Tree → Nat
  | .node column _ _ => column

/-- Puts a line in front of the lines after it: the deeper ones right after it belong to it. -/
def place (row : Nat × List Tok) (following : List Tree) : List Tree :=
  .node row.1 row.2 (following.takeWhile fun t => row.1 < t.column)
    :: following.dropWhile fun t => row.1 < t.column

/-- The lines of a text by their indentation. -/
def layout (rows : List (Nat × List Tok)) : List Tree :=
  rows.foldr place []

/-- All trees begin at the column of the first one. -/
def aligned : List Tree → Bool
  | [] => true
  | t :: ts => ts.all fun u => u.column = t.column

/-! ## Statements -/

/-- Puts a line with its suite, if it has one, in front of what was read after it. That is the
statements after it and, before them, the `else` part that still waits for its `if`. -/
def attach (suite : Option (List Stmt)) (waiting after : List Stmt) :
    Line → Option (List Stmt × List Stmt)
  | .simple s => if suite.isNone && waiting.isEmpty then some ([], s :: after) else none
  | .head h => suite.bind fun body =>
    match h with
    | .ifTest e => some ([], .ifElse e body waiting :: after)
    | .elifTest e => some ([.ifElse e body waiting], after)
    | .otherwise => if waiting.isEmpty then some (body, after) else none
    | .whileTest e => if waiting.isEmpty then some ([], .whileLoop e body :: after) else none
    | .forRange x es => if waiting.isEmpty then some ([], .forRange x es body :: after) else none

/-- A suite: at least one line, all at one column, and no `else` part without its `if`. -/
def suiteOf (trees : List Tree) : Option (List Stmt × List Stmt) → Option (List Stmt)
  | some ([], ss) => if !trees.isEmpty && aligned trees then some ss else none
  | _ => none

mutual
/-- Reads a line with its suite, in front of what was read after it. -/
def Tree.statements : Tree → List Stmt × List Stmt → Option (List Stmt × List Stmt)
  | .node _ ts children, r => (line ts).bind fun l =>
    if children.isEmpty then attach none r.1 r.2 l
    else (suiteOf children (statements children)).bind fun body => attach (some body) r.1 r.2 l
/-- Reads lines at one depth: the `else` part in front that waits for its `if`, and the
statements after it. -/
def statements : List Tree → Option (List Stmt × List Stmt)
  | [] => some ([], [])
  | t :: rest => (statements rest).bind t.statements
end

/-- A whole suite. -/
def suite (trees : List Tree) : Option (List Stmt) :=
  suiteOf trees (statements trees)

/-! ## Scripts -/

/-- A line with its column. -/
def row (cs : List Char) : Nat × List Tok :=
  ((cs.takeWhile (· = ' ')).length, tokens cs)

/-- The lines of a text that are not blank. -/
def rows (text : String) : List (Nat × List Tok) :=
  ((Text.segments text.toList).map row).filter fun r => !r.2.isEmpty

/-- The line that begins the definition of a function without parameters. -/
def definition (function : String) : Nat × List Tok :=
  (0, [.name "def", .name function, .sign .open, .sign .close, .sign .colon])

/-- The line that calls a function without arguments. -/
def callRow (function : String) : Nat × List Tok :=
  (0, [.name function, .sign .open, .sign .close])

/-- The indented lines after the one that begins the definition of a function. No other line may
define it again. -/
def linesOfFunction (function : String) (all : List (Nat × List Tok)) :
    Option (List (Nat × List Tok)) :=
  match all.dropWhile (· ≠ definition function) with
  | _ :: rest => if definition function ∈ rest then none else some (rest.takeWhile fun r => 0 < r.1)
  | [] => none

/-- The lines of the function that is called on the last line. -/
def functionRows (all : List (Nat × List Tok)) : Option (List (Nat × List Tok)) :=
  match all.getLast? with
  | some (0, [.name function, .sign .open, .sign .close]) => linesOfFunction function all
  | _ => none

/-- The suite of the function that a script calls. -/
def functionBody? (text : String) : Option (List Stmt) :=
  (functionRows (rows text)).bind fun rs => suite (layout rs)

end Zed.Python

import Zed.Proofs.Python.Reader

/-!
# Names of a script

The names that Python looks for outside of the function in which they are used. A name that a
function assigns somewhere, or has as a parameter, is its own and is not looked for outside.

The body of the function that a script calls is at hand as statements (`globals`). What stands
before that function is read here as lines only: a part that is not indented, with the lines that
belong to it (`Tree.globals`). There a name after a point is an attribute and not looked for at all.
-/

set_option autoImplicit false

namespace Zed.Python

/-! ## Statements -/

mutual
/-- The names in an expression, those of the functions that it calls included. -/
def Expr.names : Expr → List String
  | .name x => [x]
  | .int _ => []
  | .float _ => []
  | .text _ => []
  | .constant _ => []
  | .not e => Expr.names e
  | .binary _ l r => Expr.names l ++ Expr.names r
  | .call function es => function :: Expr.namesOfAll es
def Expr.namesOfAll : List Expr → List String
  | [] => []
  | e :: es => Expr.names e ++ Expr.namesOfAll es
end

mutual
/-- The names that a statement uses. What it assigns is not among them. -/
def Stmt.names : Stmt → List String
  | .assign _ value => value.names
  | .print es _ => "print" :: Expr.namesOfAll es
  | .pass => []
  | .leave => []
  | .ifElse test body orelse => test.names ++ (Stmt.namesOfAll body ++ Stmt.namesOfAll orelse)
  | .whileLoop test body => test.names ++ Stmt.namesOfAll body
  | .forRange _ es body => "range" :: Expr.namesOfAll es ++ Stmt.namesOfAll body
def Stmt.namesOfAll : List Stmt → List String
  | [] => []
  | s :: ss => Stmt.names s ++ Stmt.namesOfAll ss
end

mutual
/-- The names that a statement assigns. -/
def Stmt.targets : Stmt → List String
  | .assign target _ => [target]
  | .print _ _ => []
  | .pass => []
  | .leave => []
  | .ifElse _ body orelse => Stmt.targetsOfAll body ++ Stmt.targetsOfAll orelse
  | .whileLoop _ body => Stmt.targetsOfAll body
  | .forRange target _ body => target :: Stmt.targetsOfAll body
def Stmt.targetsOfAll : List Stmt → List String
  | [] => []
  | s :: ss => Stmt.targets s ++ Stmt.targetsOfAll ss
end

/-- The names that a function without parameters looks for outside of its body. -/
def globals (body : List Stmt) : List String :=
  (Stmt.namesOfAll body).filter fun x => x ∉ Stmt.targetsOfAll body

/-- The names of statements in a row are those of both parts. -/
theorem Stmt.namesOfAll_append (ss ts : List Stmt) :
    Stmt.namesOfAll (ss ++ ts) = Stmt.namesOfAll ss ++ Stmt.namesOfAll ts := by
  induction ss with
  | nil => rfl
  | cons s ss ih => rw [List.cons_append, Stmt.namesOfAll, Stmt.namesOfAll, ih, List.append_assoc]

theorem Stmt.targetsOfAll_append (ss ts : List Stmt) :
    Stmt.targetsOfAll (ss ++ ts) = Stmt.targetsOfAll ss ++ Stmt.targetsOfAll ts := by
  induction ss with
  | nil => rfl
  | cons s ss ih =>
    rw [List.cons_append, Stmt.targetsOfAll, Stmt.targetsOfAll, ih, List.append_assoc]

/-- The global names of a function are those it uses and does not assign. -/
theorem mem_globals {body : List Stmt} {x : String} :
    x ∈ globals body ↔ x ∈ Stmt.namesOfAll body ∧ x ∉ Stmt.targetsOfAll body := by
  rw [globals, List.mem_filter, decide_eq_true_iff]

/-! ## Lines -/

/-- The names in a line, without reserved words and without what follows a point. -/
def namesOfLine : (point : Bool) → List Tok → List String
  | _, [] => []
  | point, .name x :: ts =>
    if point || Script.reservedWords.contains x then namesOfLine false ts
      else x :: namesOfLine false ts
  | _, t :: ts => namesOfLine (t = .other '.') ts

/-- The name that a line assigns. -/
def targetsOfLine : List Tok → List String
  | .name x :: .sign .assign :: _ => [x]
  | _ => []

mutual
/-- A line with those that belong to it. -/
def Tree.lines : Tree → List (List Tok)
  | .node _ toks children => toks :: Tree.linesOfAll children
def Tree.linesOfAll : List Tree → List (List Tok)
  | [] => []
  | t :: ts => Tree.lines t ++ Tree.linesOfAll ts
end

/-- The names that a part of a script defines or looks for outside of functions. -/
def Tree.globals : Tree → List String
  | .node _ (.name "def" :: .name function :: parameters) children =>
    let own := namesOfLine false parameters ++ (Tree.linesOfAll children).flatMap targetsOfLine
    function :: ((Tree.linesOfAll children).flatMap (namesOfLine false)).filter fun x => x ∉ own
  | t => t.lines.flatMap (namesOfLine false)

end Zed.Python

import Zed.Grammar.Rule
import Zed.Number.Decimal
import Zed.Program.Term

/-!
# Rules for names and terms

Names, numbers, literals and terms are single tokens. A list of terms stands in brackets, with a
plus sign between each two.
-/

set_option autoImplicit false

namespace Zed.Rule

/-- The number with a given spelling, which must denote a finite one. -/
def finiteNumber (spelling : String) : Except Expectation Binary64 :=
  match Binary64.ofSpelling? spelling with
  | some value => .ok value
  | none => .error .finiteNumber

/-- The name of a program. -/
def programName : Rule String :=
  take fun t => match t.kind with
    | .ident name => .ok name
    | _ => .error .programName

/-- An occurrence of a variable. -/
def var : Rule Variable :=
  take fun t => match t.kind with
    | .var name => .ok ⟨name, t.position⟩
    | _ => .error .var

/-- A number. -/
def number : Rule Binary64 :=
  take fun t => match t.kind with
    | .number spelling => finiteNumber spelling
    | _ => .error .number

/-- A constant. -/
def literal : Rule Literal :=
  take fun t => match t.kind with
    | .text body => .ok (.text body)
    | .number spelling => (finiteNumber spelling).map .number
    | _ => .error .literal

/-- A variable or a constant. -/
def term : Rule Term :=
  take fun t => match t.kind with
    | .var name => .ok (.var ⟨name, t.position⟩)
    | .text body => .ok (.text body)
    | .number spelling => (finiteNumber spelling).map .number
    | _ => .error .term

/-- What follows a term of a list: a plus sign if the list goes on, the bracket if it does not. -/
def listGoesOn : Rule Bool :=
  take fun t =>
    if t.isSymbol .closeBracket then .ok false
    else if t.isSymbol .plus then .ok true
    else .error .termSeparator

/-- One or more terms up to the closing bracket. There is one unit of `fuel` for each of them. -/
def termsToBracket : (fuel : Nat) → Rule (List Term)
  | 0 => spent
  | fuel + 1 => do
    let first ← term
    let more ← listGoesOn
    if more then
      let others ← termsToBracket fuel
      return first :: others
    else
      return [first]

/-- A list of terms in brackets, which may be empty. -/
def terms (fuel : Nat) : Rule (List Term) := do
  symbol .openBracket
  let empty ← skipSymbol .closeBracket
  if empty then return [] else termsToBracket fuel

end Zed.Rule

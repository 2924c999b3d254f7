import Zed.Grammar.Condition
import Zed.Program.Statement

/-!
# Rules for statements

A statement is chosen by its first token. The rules here read what follows that token and give the
statement together with what they found to report about it. They take the rule for a block as the
argument `block`, so that each of them stands alone.

A compound statement that fails after some of its blocks were read reports their diagnostics first.
-/

set_option autoImplicit false

namespace Zed.Rule

/-- A value together with what was found to report while it was read. -/
abbrev Reported (α : Type) : Type := α × List Diagnostic

/-! ## Simple statements -/

/-- A simple statement should be followed by a colon, which stays in place. If another token
follows, that is reported and nothing is skipped. -/
def endOfSimple (statement : Statement) : Rule (Reported Statement) := do
  let t ← current
  if t.isSymbol .colon then return (statement, [])
  else
    let fault ← blame (.symbol .colon) t
    return (statement, [fault])

/-- After `OUT`: the terms to print. -/
def output (fuel : Nat) : Rule (Reported Statement) := do
  let shown ← terms fuel
  endOfSimple (.output shown)

/-- The value of an assignment: `IN` and a prompt, or a term. -/
def value (fuel : Nat) : Rule Value := do
  let isInput ← skipKeyword .IN
  if isInput then
    let prompt ← terms fuel
    return .input prompt
  else
    let given ← term
    return .term given

/-- The arithmetic operator that a token is, if it is one. -/
def arithmetic? (t : Token) : Option Arithmetic :=
  match t.kind with
  | .symbol sign => Arithmetic.ofSymbol? sign
  | _ => none

/-- After `=`: the target, the value, and an operator if there is one. -/
def assignment (fuel : Nat) : Rule (Reported Statement) := do
  let target ← var
  let given ← value fuel
  let operator ← optional arithmetic?
  endOfSimple (.assign target given operator)

/-! ## Compound statements -/

/-- A block between `DO` and `ENDDO`; `block` reads from after `DO`. -/
def doBlock (block : Rule Block) : Rule Block := do
  keyword .DO
  block

/-- After `WHEN`: the condition and the body. -/
def whileLoop (fuel : Nat) (block : Rule Block) : Rule (Reported Statement) := do
  let test ← condition fuel
  let body ← doBlock block
  after body.diagnostics do
    keyword .ENDWHEN
    return (.whileLoop test body, body.diagnostics)

/-- After `REPEAT`: the body and the condition. -/
def untilLoop (fuel : Nat) (block : Rule Block) : Rule (Reported Statement) := do
  let body ← doBlock block
  after body.diagnostics do
    keyword .UNTIL
    let test ← condition fuel
    keyword .ENDREPEAT
    return (.untilLoop body test, body.diagnostics)

/-- The step of a loop. A zero is rejected only after it was read, so recovery starts behind it. -/
def step : Rule Binary64 := do
  let t ← current
  let size ← number
  if size.isZero then
    let fault ← blame .nonzeroStep t
    reject [fault]
  else return size

/-- After `FOR`: the counter, its bounds and step, and the body. -/
def forLoop (block : Rule Block) : Rule (Reported Statement) := do
  let counter ← var
  keyword .FROM
  let start ← number
  keyword .TO
  let stop ← number
  keyword .BY
  let size ← step
  let body ← doBlock block
  after body.diagnostics do
    keyword .ENDFOR
    return (.forLoop counter start stop size body, body.diagnostics)

/-- The branches after the first one, up to `ENDIF`. A branch without a condition is the last. -/
def otherBranches (block : Rule Block) :
    (fuel : Nat) → Rule (Reported (List (Option Condition × Block)))
  | 0 => spent
  | fuel + 1 => do
    let more ← skipKeyword .OTHERWISE
    if more then
      let conditional ← skipKeyword .IF
      if conditional then
        let test ← condition fuel
        let body ← doBlock block
        after body.diagnostics do
          let others ← otherBranches block fuel
          return ((some test, body) :: others.1, body.diagnostics ++ others.2)
      else
        let body ← doBlock block
        after body.diagnostics do
          keyword .ENDIF
          return ([(none, body)], body.diagnostics)
    else
      keyword .ENDIF
      return ([], [])

/-- After `IF`: the first condition with its block, and the other branches. -/
def choice (fuel : Nat) (block : Rule Block) : Rule (Reported Statement) := do
  let test ← condition fuel
  let body ← doBlock block
  after body.diagnostics do
    let others ← otherBranches block fuel
    return (.choice ((some test, body) :: others.1), body.diagnostics ++ others.2)

/-- The arms of a switch up to `ENDSWITCH`. -/
def arms (block : Rule Block) : (fuel : Nat) → Rule (Reported (List (Literal × Block)))
  | 0 => spent
  | fuel + 1 => do
    let closed ← skipKeyword .ENDSWITCH
    if closed then return ([], [])
    else
      keyword .WHEN
      let label ← literal
      let body ← doBlock block
      after body.diagnostics do
        let others ← arms block fuel
        return ((label, body) :: others.1, body.diagnostics ++ others.2)

/-- After `SWITCH`: the variable and the arms. -/
def switch (fuel : Nat) (block : Rule Block) : Rule (Reported Statement) := do
  let subject ← var
  let choices ← arms block fuel
  return (.switch subject choices.1, choices.2)

/-! ## The choice by the first token -/

/-- The rule for what follows the first token of a statement, if a statement starts with it. -/
def statement? (fuel : Nat) (block : Rule Block) : Token.Kind → Option (Rule (Reported Statement))
  | .keyword .OUT => some (output fuel)
  | .symbol .assign => some (assignment fuel)
  | .keyword .WHEN => some (whileLoop fuel block)
  | .keyword .REPEAT => some (untilLoop fuel block)
  | .keyword .FOR => some (forLoop block)
  | .keyword .IF => some (choice fuel block)
  | .keyword .SWITCH => some (switch fuel block)
  | _ => none

end Zed.Rule

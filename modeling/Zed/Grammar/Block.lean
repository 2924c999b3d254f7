import Zed.Grammar.Statement

/-!
# Blocks and recovery

A block is read statement by statement up to the keyword that closes it; colons between
statements are passed over. Where no statement starts, or a statement fails, that is reported
and the tokens that follow are skipped up to the next colon, or up to a keyword that closes
something. If that keyword closes this block the block ends there. Otherwise it is refused like
any token that starts no statement.

Every turn but the last takes a token, so `fuel` never runs out when there is one unit of it for
each token and one more.
-/

set_option autoImplicit false

namespace Zed

namespace Rule

/-- Puts a part of a block in front of the rest of it. If the rest fails, the statements are lost
and the diagnostics come first in its report. -/
def prepend (statements : List Statement) (found : List Diagnostic) (rule : Rule Block) :
    Rule Block :=
  after found do
    let rest ← rule
    return .mk (statements ++ rest.statements) (found ++ rest.diagnostics)

/-- The statements up to the keyword `close`, which is read too. While `skipping`, tokens are passed
over until the next colon or closing keyword. -/
def block : (fuel : Nat) → (close : Keyword) → (skipping : Bool) → Rule Block
  | 0, _, _ => spent
  | fuel + 1, close, skipping => do
    let t ← anyToken
    if t.isKeyword close then return .mk [] []
    else if t.isSymbol .colon then block fuel close false
    else if skipping && !t.isCloser then block fuel close true
    else
      match statement? fuel (block fuel .ENDDO false) t.kind with
      | none =>
        let fault ← blame .statement t
        prepend [] [fault] (block fuel close true)
      | some rule =>
        recover rule
          (fun read => prepend [read.1] read.2 (block fuel close false))
          (fun found => prepend [] found (block fuel close true))

end Rule

end Zed

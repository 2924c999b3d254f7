import Zed.Grammar.Expectation

/-!
# Grammar rules

A rule reads a value off the front of a list of tokens. It ends in one of three ways: it is done and
leaves the rest; it rejects a token, reports that and leaves the rest from where it stopped; or the
tokens run out under it. The last two carry the diagnostics gathered so far, oldest first.

A rule is given as the tree of its steps, and `Rule.run` carries the steps out. So there is one text
of the grammar, whatever is to be observed while it is read. The rules of the grammar that recur
take fuel, one unit for each turn. A rule whose fuel is spent has an outcome of its own, apart from
the end of the tokens.
-/

set_option autoImplicit false

namespace Zed

/-- What a rule makes of the tokens in front of it. -/
inductive Outcome (α : Type) where
  /-- A value was read, and `rest` follows it. -/
  | done (value : α) (rest : List Token)
  /-- A token was rejected; reading can go on at `rest`. -/
  | rejected (report : List Diagnostic) (rest : List Token)
  /-- The tokens ran out. -/
  | ended (report : List Diagnostic)
  /-- The fuel ran out. -/
  | exhausted

namespace Outcome

variable {α β : Type}

/-- The same outcome, with the report of a failure put after `earlier`. -/
def after (earlier : List Diagnostic) : Outcome α → Outcome α
  | .done value rest => .done value rest
  | .rejected report rest => .rejected (earlier ++ report) rest
  | .ended report => .ended (earlier ++ report)
  | .exhausted => .exhausted

/-- Goes on with `next` behind a value and with `again` behind a rejected token. -/
def recover (next : α → List Token → Outcome β)
    (again : List Diagnostic → List Token → Outcome β) : Outcome α → Outcome β
  | .done value rest => next value rest
  | .rejected report rest => again report rest
  | .ended report => .ended report
  | .exhausted => .exhausted

end Outcome

/-- The steps in which a value is read off the front of a list of tokens. -/
inductive Rule : Type → Type 1
  /-- Reads nothing. -/
  | ret {α : Type} (value : α) : Rule α
  /-- Reads a value and goes on by it. -/
  | seq {α β : Type} (rule : Rule α) (next : α → Rule β) : Rule β
  /-- There is no fuel for another turn. -/
  | spent {α : Type} : Rule α
  /-- The next token, which stays in place. -/
  | current : Rule Token
  /-- The next token must be one that `accept` takes. A refused token stays in place. -/
  | take {α : Type} (accept : Token → Except Expectation α) : Rule α
  /-- Reads the next token if `accept` takes it. It is no fault if there is none. -/
  | optional {α : Type} (accept : Token → Option α) : Rule (Option α)
  /-- Makes the diagnostic that something else was expected in the place of a token. -/
  | blame (wanted : Expectation) (found : Token) : Rule Diagnostic
  /-- Rejects what was read so far. -/
  | reject {α : Type} (report : List Diagnostic) : Rule α
  /-- What the rule reports comes after `earlier`. -/
  | after {α : Type} (earlier : List Diagnostic) (rule : Rule α) : Rule α
  /-- Goes on behind a value with `next`, and with `again` where a token was rejected. -/
  | recover {α β : Type} (rule : Rule α) (next : α → Rule β)
      (again : List Diagnostic → Rule β) : Rule β

namespace Rule

instance : Monad Rule where
  pure := ret
  bind := seq

/-- What the steps of a rule make of a list of tokens. -/
def run {α : Type} : Rule α → List Token → Outcome α
  | .ret value, ts => .done value ts
  | .seq rule next, ts => (rule.run ts).recover (fun value => (next value).run) .rejected
  | .spent, _ => .exhausted
  | .current, [] => .ended []
  | .current, t :: rest => .done t (t :: rest)
  | .take _, [] => .ended []
  | .take accept, t :: rest =>
    match accept t with
    | .ok value => .done value rest
    | .error wanted => .rejected [wanted.blame t] (t :: rest)
  | .optional _, [] => .done none []
  | .optional accept, t :: rest =>
    match accept t with
    | some value => .done (some value) rest
    | none => .done none (t :: rest)
  | .blame wanted found, ts => .done (wanted.blame found) ts
  | .reject report, ts => .rejected report ts
  | .after earlier rule, ts => (rule.run ts).after earlier
  | .recover rule next again, ts =>
    (rule.run ts).recover (fun value => (next value).run) fun report => (again report).run

instance {α : Type} : CoeFun (Rule α) fun _ => List Token → Outcome α := ⟨run⟩

/-! ## Single tokens -/

/-- Any token. -/
def anyToken : Rule Token :=
  take .ok

/-- The keyword `word`. -/
def keyword (word : Keyword) : Rule Unit :=
  take fun t => if t.isKeyword word then .ok () else .error (.keyword word)

/-- The symbol `sign`. -/
def symbol (sign : Symbol) : Rule Unit :=
  take fun t => if t.isSymbol sign then .ok () else .error (.symbol sign)

/-- Reads the keyword `word` if it comes next, and says whether it did. -/
def skipKeyword (word : Keyword) : Rule Bool := do
  let found ← optional (Option.guard (·.isKeyword word))
  return found.isSome

/-- Reads the symbol `sign` if it comes next, and says whether it did. -/
def skipSymbol (sign : Symbol) : Rule Bool := do
  let found ← optional (Option.guard (·.isSymbol sign))
  return found.isSome

end Rule

end Zed

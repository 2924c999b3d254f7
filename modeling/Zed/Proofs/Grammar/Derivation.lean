import Zed.Grammar.Program

/-!
# The grammar of Zed

The grammar as one inductive relation between runs of tokens and what they are derived as, with one
constructor for each alternative of each production. It says nothing about how tokens are read:
phrases are put together by appending their tokens, and no alternative looks at what follows it.

* A block is a sequence of items: a colon, a simple statement followed by a colon, or a compound
  statement. The keyword that closes the block belongs to the phrase around it.
* A number is derived exactly from a token whose spelling denotes a finite number.
* Blocks are derived without diagnostics.
-/

set_option autoImplicit false

namespace Zed

/-- What a run of tokens can be derived as. -/
inductive Phrase where
  /-- An occurrence of a variable. -/
  | var (occurrence : Variable)
  /-- A number. -/
  | number (value : Binary64)
  /-- A constant. -/
  | literal (constant : Literal)
  /-- A variable or a constant. -/
  | term (term : Term)
  /-- One or more terms with plus signs between them. -/
  | sum (terms : List Term)
  /-- A list of terms in brackets. -/
  | params (terms : List Term)
  /-- What an assignment assigns. -/
  | value (value : Value)
  /-- A side of a condition. -/
  | operand (operand : Operand)
  /-- A condition. -/
  | condition (condition : Condition)
  /-- A statement that a colon has to follow. -/
  | simple (statement : Statement)
  /-- A statement that is closed by a keyword of its own. -/
  | compound (statement : Statement)
  /-- The inside of a block. -/
  | items (statements : List Statement)
  /-- A block between `DO` and `ENDDO`. -/
  | doBlock (body : Block)
  /-- The branches of a choice after its first one. -/
  | branches (branches : List (Option Condition × Block))
  /-- The arms of a switch. -/
  | arms (arms : List (Literal × Block))
  /-- A program. -/
  | program (program : Program)

/-- The tokens can be derived as the phrase. -/
inductive Derives : List Token → Phrase → Prop
  -- terms
  | var {t : Token} {name : String} :
      t.kind = .var name → Derives [t] (.var ⟨name, t.position⟩)
  | number {t : Token} {spelling : String} {value : Binary64} :
      t.kind = .number spelling → Binary64.ofSpelling? spelling = some value →
      Derives [t] (.number value)
  | textLiteral {t : Token} {body : String} :
      t.kind = .text body → Derives [t] (.literal (.text body))
  | numberLiteral {ts : List Token} {value : Binary64} :
      Derives ts (.number value) → Derives ts (.literal (.number value))
  | varTerm {ts : List Token} {v : Variable} :
      Derives ts (.var v) → Derives ts (.term (.var v))
  | textTerm {t : Token} {body : String} :
      t.kind = .text body → Derives [t] (.term (.text body))
  | numberTerm {ts : List Token} {value : Binary64} :
      Derives ts (.number value) → Derives ts (.term (.number value))
  -- lists of terms
  | lastTerm {ts : List Token} {x : Term} :
      Derives ts (.term x) → Derives ts (.sum [x])
  | nextTerm {ts us : List Token} {plus : Token} {x : Term} {xs : List Term} :
      Derives ts (.term x) → plus.isSymbol .plus → Derives us (.sum xs) →
      Derives (ts ++ plus :: us) (.sum (x :: xs))
  | noParams {opening closing : Token} :
      opening.isSymbol .openBracket → closing.isSymbol .closeBracket →
      Derives [opening, closing] (.params [])
  | someParams {ts : List Token} {opening closing : Token} {xs : List Term} :
      opening.isSymbol .openBracket → Derives ts (.sum xs) → closing.isSymbol .closeBracket →
      Derives (opening :: ts ++ [closing]) (.params xs)
  -- conditions
  | termOperand {ts : List Token} {x : Term} :
      Derives ts (.term x) → Derives ts (.operand (.term x))
  | conditionOperand {ts : List Token} {c : Condition} :
      Derives ts (.condition c) → Derives ts (.operand c.toOperand)
  | relation {ls rs : List Token} {sign : Token} {r : Relation} {left right : Operand} :
      sign.isSymbol r.symbol → Derives ls (.operand left) → Derives rs (.operand right) →
      Derives (sign :: ls ++ rs) (.condition ⟨false, r, left, right⟩)
  | negation {ts : List Token} {bang : Token} {r : Relation} {left right : Operand} :
      bang.isSymbol .bang → Derives ts (.condition ⟨false, r, left, right⟩) →
      Derives (bang :: ts) (.condition ⟨true, r, left, right⟩)
  -- simple statements
  | termValue {ts : List Token} {x : Term} :
      Derives ts (.term x) → Derives ts (.value (.term x))
  | inputValue {ts : List Token} {word : Token} {prompt : List Term} :
      word.isKeyword .IN → Derives ts (.params prompt) →
      Derives (word :: ts) (.value (.input prompt))
  | output {ts : List Token} {word : Token} {shown : List Term} :
      word.isKeyword .OUT → Derives ts (.params shown) →
      Derives (word :: ts) (.simple (.output shown))
  | assignment {vs ts : List Token} {sign : Token} {target : Variable} {given : Value} :
      sign.isSymbol .assign → Derives vs (.var target) → Derives ts (.value given) →
      Derives (sign :: vs ++ ts) (.simple (.assign target given none))
  | update {vs ts : List Token} {sign final : Token} {target : Variable} {given : Value}
      {operator : Arithmetic} :
      sign.isSymbol .assign → Derives vs (.var target) → Derives ts (.value given) →
      final.isSymbol operator.symbol →
      Derives (sign :: vs ++ ts ++ [final]) (.simple (.assign target given (some operator)))
  -- blocks
  | noItem : Derives [] (.items [])
  | colonItem {ts : List Token} {colon : Token} {ss : List Statement} :
      colon.isSymbol .colon → Derives ts (.items ss) → Derives (colon :: ts) (.items ss)
  | simpleItem {us ts : List Token} {colon : Token} {s : Statement} {ss : List Statement} :
      Derives us (.simple s) → colon.isSymbol .colon → Derives ts (.items ss) →
      Derives (us ++ colon :: ts) (.items (s :: ss))
  | compoundItem {us ts : List Token} {s : Statement} {ss : List Statement} :
      Derives us (.compound s) → Derives ts (.items ss) → Derives (us ++ ts) (.items (s :: ss))
  | doBlock {ts : List Token} {opening closing : Token} {ss : List Statement} :
      opening.isKeyword .DO → Derives ts (.items ss) → closing.isKeyword .ENDDO →
      Derives (opening :: ts ++ [closing]) (.doBlock (.mk ss []))
  -- compound statements
  | whileLoop {cs bs : List Token} {word closing : Token} {test : Condition} {body : Block} :
      word.isKeyword .WHEN → Derives cs (.condition test) → Derives bs (.doBlock body) →
      closing.isKeyword .ENDWHEN →
      Derives (word :: cs ++ bs ++ [closing]) (.compound (.whileLoop test body))
  | untilLoop {bs cs : List Token} {word middle closing : Token} {body : Block}
      {test : Condition} :
      word.isKeyword .REPEAT → Derives bs (.doBlock body) → middle.isKeyword .UNTIL →
      Derives cs (.condition test) → closing.isKeyword .ENDREPEAT →
      Derives (word :: bs ++ middle :: cs ++ [closing]) (.compound (.untilLoop body test))
  | forLoop {vs as os ss bs : List Token} {word first last size closing : Token}
      {counter : Variable} {start stop step : Binary64} {body : Block} :
      word.isKeyword .FOR → Derives vs (.var counter) →
      first.isKeyword .FROM → Derives as (.number start) →
      last.isKeyword .TO → Derives os (.number stop) →
      size.isKeyword .BY → Derives ss (.number step) → step.isZero = false →
      Derives bs (.doBlock body) → closing.isKeyword .ENDFOR →
      Derives (word :: vs ++ first :: as ++ last :: os ++ size :: ss ++ bs ++ [closing])
        (.compound (.forLoop counter start stop step body))
  | choice {cs bs os : List Token} {word closing : Token} {test : Condition} {body : Block}
      {others : List (Option Condition × Block)} :
      word.isKeyword .IF → Derives cs (.condition test) → Derives bs (.doBlock body) →
      Derives os (.branches others) → closing.isKeyword .ENDIF →
      Derives (word :: cs ++ bs ++ os ++ [closing])
        (.compound (.choice ((some test, body) :: others)))
  | noBranch : Derives [] (.branches [])
  | lastBranch {bs : List Token} {word : Token} {body : Block} :
      word.isKeyword .OTHERWISE → Derives bs (.doBlock body) →
      Derives (word :: bs) (.branches [(none, body)])
  | nextBranch {cs bs os : List Token} {word again : Token} {test : Condition} {body : Block}
      {others : List (Option Condition × Block)} :
      word.isKeyword .OTHERWISE → again.isKeyword .IF → Derives cs (.condition test) →
      Derives bs (.doBlock body) → Derives os (.branches others) →
      Derives (word :: again :: cs ++ bs ++ os) (.branches ((some test, body) :: others))
  | switch {vs as : List Token} {word closing : Token} {subject : Variable}
      {arms : List (Literal × Block)} :
      word.isKeyword .SWITCH → Derives vs (.var subject) → Derives as (.arms arms) →
      closing.isKeyword .ENDSWITCH →
      Derives (word :: vs ++ as ++ [closing]) (.compound (.switch subject arms))
  | noArm : Derives [] (.arms [])
  | nextArm {ls bs as : List Token} {word : Token} {label : Literal} {body : Block}
      {arms : List (Literal × Block)} :
      word.isKeyword .WHEN → Derives ls (.literal label) → Derives bs (.doBlock body) →
      Derives as (.arms arms) →
      Derives (word :: ls ++ bs ++ as) (.arms ((label, body) :: arms))
  -- programs
  | program {ts : List Token} {opening title closing : Token} {name : String}
      {ss : List Statement} :
      opening.isKeyword .PROG → title.kind = .ident name → Derives ts (.items ss) →
      closing.isKeyword .ENDPROG →
      Derives (opening :: title :: ts ++ [closing]) (.program ⟨name, .mk ss []⟩)

/-! ## First tokens -/

namespace Derives

/-- A simple statement starts with `OUT` or with the sign of an assignment. -/
theorem simple_cons {us : List Token} {s : Statement} (h : Derives us (.simple s)) :
    ∃ t vs, us = t :: vs ∧ (t.isKeyword .OUT = true ∨ t.isSymbol .assign = true) := by
  cases h with
  | output hword _ => exact ⟨_, _, rfl, Or.inl hword⟩
  | assignment hsign _ _ => exact ⟨_, _, rfl, Or.inr hsign⟩
  | update hsign _ _ _ => exact ⟨_, _, rfl, Or.inr hsign⟩

/-- A compound statement starts with a keyword of its own. -/
theorem compound_cons {us : List Token} {s : Statement} (h : Derives us (.compound s)) :
    ∃ t vs word, us = t :: vs ∧ t.isKeyword word = true ∧
      word ∈ [Keyword.WHEN, .REPEAT, .FOR, .IF, .SWITCH] := by
  cases h with
  | whileLoop hword _ _ _ => exact ⟨_, _, _, rfl, hword, by simp⟩
  | untilLoop hword _ _ _ _ => exact ⟨_, _, _, rfl, hword, by simp⟩
  | forLoop hword _ _ _ _ _ _ _ _ _ _ => exact ⟨_, _, _, rfl, hword, by simp⟩
  | choice hword _ _ _ _ => exact ⟨_, _, _, rfl, hword, by simp⟩
  | switch hword _ _ _ => exact ⟨_, _, _, rfl, hword, by simp⟩

/-- No statement starts with a colon, so a colon at the beginning of a block is an item
of its own. -/
theorem items_of_colon {ts : List Token} {colon : Token} {ss : List Statement}
    (hcolon : colon.isSymbol .colon = true) (h : Derives (colon :: ts) (.items ss)) :
    Derives ts (.items ss) := by
  generalize hus : colon :: ts = us at h
  have hkind : colon.kind = .symbol .colon := by simpa [Token.isSymbol] using hcolon
  cases h with
  | noItem => cases hus
  | colonItem _ hts =>
    cases hus
    exact hts
  | simpleItem hsimple _ _ =>
    obtain ⟨t, vs, rfl, ht⟩ := hsimple.simple_cons
    cases hus
    simp [Token.isKeyword, Token.isSymbol, hkind] at ht
  | compoundItem hcompound _ =>
    obtain ⟨t, vs, word, rfl, ht, -⟩ := hcompound.compound_cons
    cases hus
    simp [Token.isKeyword, hkind] at ht

end Derives

end Zed

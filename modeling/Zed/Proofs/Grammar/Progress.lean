import Zed.Proofs.Grammar.Continuation
import Zed.Proofs.Grammar.Course

/-!
# Progress

No rule of the grammar goes back in its tokens, and every loop of the grammar takes tokens until it
is over. So reading ends on any list of tokens.

The rules have fuel, which makes them end in any case. What has to be shown is that the fuel is
never what ends them. A rule whose fuel is spent has an outcome of its own, and it does not come
about where there is one unit of fuel for each token and one more (`Production.ne_exhausted`). More
fuel then changes nothing (`Production.eq_of_le`).

A block is also a loop that goes from token to token and sometimes skips. `Loop.turn` is one turn
of it. A turn takes a token, or it stops to skip at a keyword that closes something else and takes
that keyword in the next turn. So `Loop.measure` goes down, and the loop comes to the outcome of
the rule for blocks (`Loop.exists_leaves`).
-/

set_option autoImplicit false

namespace Zed

namespace Rule

variable {α β : Type} {fuel more : Nat}

/-! ## Single statements -/

/-- A statement from its first token on, or nothing if no statement starts with that token. -/
def statement (fuel : Nat) : Rule (Option (Reported Statement)) := do
  let t ← current
  match statement? fuel (block fuel .ENDDO false) t.kind with
  | none => return none
  | some rule =>
    let _ ← anyToken
    let found ← rule
    return some found

/-- A token that opens no statement stays in place. -/
theorem statement_of_none {t : Token} (rest : List Token)
    (h : statement? fuel (block fuel .ENDDO false) t.kind = none) :
    statement fuel (t :: rest) = .done none (t :: rest) := by
  rw [statement, run_bind]
  simp only [Outcome.recover, run, h]
  rfl

/-- Behind a token that opens a statement the rule of that statement goes on. -/
theorem statement_of_some {t : Token} {rule : Rule (Reported Statement)} (rest : List Token)
    (h : statement? fuel (block fuel .ENDDO false) t.kind = some rule) :
    statement fuel (t :: rest) = (rule >>= fun found => pure (some found)) rest := by
  rw [statement, run_bind]
  simp only [Outcome.recover, run, h]
  rfl

/-- A statement that was read, or rejected, has taken its first token. -/
theorem statement_takes {t : Token} {rest us : List Token}
    (h : (∃ found, statement fuel (t :: rest) = .done (some found) us) ∨
      ∃ report, statement fuel (t :: rest) = .rejected report us) : us <:+ rest := by
  cases hrule : statement? fuel (block fuel .ENDDO false) t.kind with
  | none =>
    rw [statement_of_none rest hrule] at h
    rcases h with ⟨_, h⟩ | ⟨_, h⟩ <;> cases h
  | some rule =>
    have hsuffix := remaining_suffix (rule >>= fun found => pure (some found)) rest
    rw [statement_of_some rest hrule] at h
    rcases h with ⟨_, h⟩ | ⟨_, h⟩ <;> rw [h] at hsuffix <;> exact hsuffix

/-- No statement starts with a keyword that closes something. -/
theorem statement?_of_isCloser {t : Token} (block : Rule Block) (h : t.isCloser = true) :
    statement? fuel block t.kind = none := by
  rw [Token.isCloser] at h
  split at h
  · next word hword =>
    rw [hword]
    cases word <;> first | rfl | cases h
  · cases h

/-- A statement lasts as long as the rule behind its first token. -/
theorem statement_ne_exhausted {t : Token} {rest : List Token} (hlt : rest.length < fuel) :
    statement fuel (t :: rest) ≠ .exhausted := by
  cases hrule : statement? fuel (block fuel .ENDDO false) t.kind with
  | none =>
    rw [statement_of_none rest hrule]
    nofun
  | some rule =>
    have hread : (rule >>= fun found => (pure (some found) : Rule _)).Reads fuel
        fun _ _ _ _ => True :=
      (statement?_reads (block_reads fuel .ENDDO) hrule).map fun _ _ _ _ _ => trivial
    rw [statement_of_some rest hrule]
    exact hread.ne_exhausted hlt

/-! ## More fuel -/

/-- More fuel than a block needs changes nothing. -/
theorem block_eq_of_le {ts : List Token} (hlt : ts.length < fuel) (hle : fuel ≤ more)
    (close : Keyword) (skipping : Bool) :
    block more close skipping ts = block fuel close skipping ts := by
  have hcontinues := (continues_recovering .exact).block hle close skipping
  apply hcontinues.eq_of_ne_exhausted View.exact_block_injective
  exact (block_gathers fuel close skipping).ne_exhausted hlt

/-- A block in terms of its first token, where each part has the fuel that its own tokens need. -/
theorem block_length_cons (close : Keyword) (skipping : Bool) (t : Token) (rest : List Token) :
    block ((t :: rest).length + 1) close skipping (t :: rest) =
      if t.isKeyword close then .done (.mk [] []) rest
      else if t.isSymbol .colon then block (rest.length + 1) close false rest
      else if skipping && !t.isCloser then block (rest.length + 1) close true rest
      else
        match statement (rest.length + 1) (t :: rest) with
        | .done none _ =>
          (block (rest.length + 1) close true rest).prepend [] [Expectation.blame .statement t]
        | .done (some (s, found)) us => (block (us.length + 1) close false us).prepend [s] found
        | .rejected found us => (block (us.length + 1) close true us).prepend [] found
        | .ended found => .ended found
        | .exhausted => .exhausted := by
  have hgoOn : ∀ {us : List Token} (skipping : Bool), us <:+ rest →
      block (rest.length + 1) close skipping us = block (us.length + 1) close skipping us :=
    fun skipping hus =>
      block_eq_of_le (Nat.lt_succ_self _) (Nat.succ_le_succ hus.length_le) close skipping
  rw [List.length_cons, block_cons]
  congr 3
  cases hrule : statement? (rest.length + 1) (block (rest.length + 1) .ENDDO false) t.kind with
  | none => rw [statement_of_none rest hrule]
  | some rule =>
    have htakes : ∀ {us : List Token}, _ → us <:+ rest := @statement_takes (rest.length + 1) t rest
    rw [statement_of_some rest hrule, run_bind] at htakes ⊢
    cases hr : rule rest with
    | done found us =>
      rw [hr] at htakes
      simp only [hr, hgoOn false (htakes (.inl ⟨found, rfl⟩)), Outcome.recover, run_pure]
    | rejected found us =>
      rw [hr] at htakes
      simp only [hr, hgoOn true (htakes (.inr ⟨found, rfl⟩)), Outcome.recover]
    | ended found => simp only [hr, Outcome.recover]
    | exhausted => simp only [hr, Outcome.recover]

/-! ## All rules -/

/-- The rules of the grammar, each with the fuel that it depends on if it does. -/
inductive Production : {α : Type} → (Nat → Rule α) → Prop
  | keyword (word : Keyword) : Production fun _ => keyword word
  | symbol (sign : Symbol) : Production fun _ => symbol sign
  | skipKeyword (word : Keyword) : Production fun _ => skipKeyword word
  | skipSymbol (sign : Symbol) : Production fun _ => skipSymbol sign
  | programName : Production fun _ => programName
  | var : Production fun _ => var
  | number : Production fun _ => number
  | literal : Production fun _ => literal
  | term : Production fun _ => term
  | listGoesOn : Production fun _ => listGoesOn
  | relation : Production fun _ => relation
  | termsToBracket : Production termsToBracket
  | terms : Production terms
  | condition : Production condition
  | operand : Production fun fuel => operand (condition fuel)
  | endOfSimple (s : Statement) : Production fun _ => endOfSimple s
  | output : Production output
  | value : Production value
  | assignment : Production assignment
  | step : Production fun _ => step
  | doBlock : Production fun fuel => doBlock (block fuel .ENDDO false)
  | whileLoop : Production fun fuel => whileLoop fuel (block fuel .ENDDO false)
  | untilLoop : Production fun fuel => untilLoop fuel (block fuel .ENDDO false)
  | forLoop : Production fun fuel => forLoop (block fuel .ENDDO false)
  | otherBranches : Production fun fuel => otherBranches (block fuel .ENDDO false) fuel
  | choice : Production fun fuel => choice fuel (block fuel .ENDDO false)
  | arms : Production fun fuel => arms (block fuel .ENDDO false) fuel
  | switch : Production fun fuel => switch fuel (block fuel .ENDDO false)
  | statement : Production statement
  | block (close : Keyword) (skipping : Bool) : Production fun fuel => block fuel close skipping
  | header : Production fun _ => header

/-- No rule runs out of fuel that has one unit for each token and one more. -/
theorem Production.ne_exhausted {rule : Nat → Rule α} (h : Production rule) {ts : List Token}
    (hlt : ts.length < fuel) : rule fuel ts ≠ .exhausted := by
  have hblock := block_reads fuel .ENDDO
  -- a token of each kind, since the rules for statements come behind their first token
  have htoken : ∀ word, Token.isKeyword ⟨.keyword word, "", .origin⟩ word = true :=
    fun word => Token.isKeyword_iff.2 rfl
  have hsign : ∀ sign, Token.isSymbol ⟨.symbol sign, "", .origin⟩ sign = true :=
    fun sign => Token.isSymbol_iff.2 rfl
  cases h with
  | keyword | symbol | programName | var | number | literal | term | listGoesOn | relation =>
    exact (Reads.take _).ne_exhausted hlt
  | skipKeyword word => exact (skipKeyword_reads word).ne_exhausted hlt
  | skipSymbol sign => exact (skipSymbol_reads sign).ne_exhausted hlt
  | termsToBracket => exact (termsToBracket_reads fuel).ne_exhausted hlt
  | terms => exact (terms_reads fuel).ne_exhausted hlt
  | condition => exact (condition_reads fuel).ne_exhausted hlt
  | operand => exact (operand_reads (condition_reads fuel)).ne_exhausted hlt
  | endOfSimple s => exact (endOfSimple_reads s).ne_exhausted hlt
  | output => exact (output_reads fuel (htoken .OUT)).ne_exhausted hlt
  | value => exact (value_reads fuel).ne_exhausted hlt
  | assignment => exact (assignment_reads fuel (hsign .assign)).ne_exhausted hlt
  | step => exact step_reads.ne_exhausted hlt
  | doBlock => exact (doBlock_reads hblock).ne_exhausted hlt
  | whileLoop => exact (whileLoop_reads hblock (htoken .WHEN)).ne_exhausted hlt
  | untilLoop => exact (untilLoop_reads hblock (htoken .REPEAT)).ne_exhausted hlt
  | forLoop => exact (forLoop_reads hblock (htoken .FOR)).ne_exhausted hlt
  | otherBranches => exact (otherBranches_reads hblock (Nat.le_refl fuel)).ne_exhausted hlt
  | choice => exact (choice_reads hblock (htoken .IF)).ne_exhausted hlt
  | arms => exact (arms_reads hblock (Nat.le_refl fuel)).ne_exhausted hlt
  | switch => exact (switch_reads hblock (htoken .SWITCH)).ne_exhausted hlt
  | statement =>
    cases ts with
    | nil => nofun
    | cons t rest => exact statement_ne_exhausted (Nat.lt_of_succ_lt hlt)
  | block close skipping => exact (block_gathers fuel close skipping).ne_exhausted hlt
  | header => exact header_reads.ne_exhausted hlt

/-- A statement with more fuel and more tokens goes on where the first one stopped. -/
theorem statement_continues (hle : fuel ≤ more) :
    Continues .exact (Option.map (View.exact.reported View.exact.statement)) (statement fuel)
      (statement more) := by
  have hall := continues_recovering .exact
  apply hall.bind hall.current
  intro t u htoken
  rw [View.exact.kind_eq htoken]
  rcases hall.statement? (hall.block hle .ENDDO false) hle (fun hrule => hrule) (hall.output hle)
    (hall.assignment hle) u.kind with ⟨hnone, hnone'⟩ | ⟨rule, other, hrule, hother, hcontinues⟩
  · rw [hnone, hnone']
    exact hall.pure rfl
  · rw [hrule, hother]
    have hany : Continues .exact View.exact.token anyToken anyToken :=
      hall.take fun _ _ htoken => .ok htoken
    apply hall.bind hany
    intro _ _ _
    apply hall.bind hcontinues
    intro a b hread
    exact hall.pure (congrArg some hread)

/-- More fuel than a rule needs changes nothing. -/
theorem Production.eq_of_le {rule : Nat → Rule α} (h : Production rule) {ts : List Token}
    (hlt : ts.length < fuel) (hle : fuel ≤ more) : rule more ts = rule fuel ts := by
  have hne := h.ne_exhausted hlt
  have hall := continues_recovering .exact
  have hblock := hall.block hle .ENDDO false
  have hstatement := View.exact_reported_injective Statement.map_id
  cases h with
  | keyword | symbol | skipKeyword | skipSymbol | programName | var | number | literal | term
  | listGoesOn | relation | endOfSimple | step | header => rfl
  | termsToBracket =>
    exact (hall.termsToBracket hle).eq_of_ne_exhausted (injective_of_eq_self Term.map_map_id) hne
  | terms => exact (hall.terms hle).eq_of_ne_exhausted (injective_of_eq_self Term.map_map_id) hne
  | condition =>
    exact (hall.condition hle).eq_of_ne_exhausted (injective_of_eq_self Condition.map_id) hne
  | operand =>
    have hoperand := hall.operand (hall.condition hle)
    exact hoperand.eq_of_ne_exhausted (injective_of_eq_self Operand.map_id) hne
  | value => exact (hall.value hle).eq_of_ne_exhausted (injective_of_eq_self Value.map_id) hne
  | output => exact (hall.output hle).eq_of_ne_exhausted hstatement hne
  | assignment => exact (hall.assignment hle).eq_of_ne_exhausted hstatement hne
  | doBlock => exact (hall.doBlock hblock).eq_of_ne_exhausted View.exact_block_injective hne
  | whileLoop => exact (hall.whileLoop hblock hle).eq_of_ne_exhausted hstatement hne
  | untilLoop => exact (hall.untilLoop hblock hle).eq_of_ne_exhausted hstatement hne
  | forLoop => exact (hall.forLoop hblock).eq_of_ne_exhausted hstatement hne
  | otherBranches =>
    have hbranches := View.exact_reported_injective Statement.mapBranches_id
    exact (hall.otherBranches hblock hle).eq_of_ne_exhausted hbranches hne
  | choice => exact (hall.choice hblock hle).eq_of_ne_exhausted hstatement hne
  | arms =>
    have harms := View.exact_reported_injective Statement.mapArms_id
    exact (hall.arms hblock hle).eq_of_ne_exhausted harms hne
  | switch => exact (hall.switch hblock hle).eq_of_ne_exhausted hstatement hne
  | statement =>
    exact (statement_continues hle).eq_of_ne_exhausted (Option.map_injective hstatement) hne
  | block close skipping => exact block_eq_of_le hlt hle close skipping

end Rule

/-! ## The turns of a block -/

/-- Where a block is while it is read. -/
structure Loop where
  /-- The tokens from here on. -/
  tokens : List Token
  /-- Tokens are passed over at the moment. -/
  skipping : Bool
  /-- The statements up to here. -/
  statements : List Statement
  /-- What was found to report up to here. -/
  diagnostics : List Diagnostic

namespace Loop

/-- What becomes of a block in one turn. -/
inductive Turn where
  /-- The block is over. -/
  | leave (outcome : Outcome Block)
  /-- The block is at another point. -/
  | goOn (next : Loop)

/-- One turn of the block that `close` closes. While tokens are passed over, a keyword that closes
something else is not taken: the next turn finds it again, as the beginning of a statement. -/
def turn (close : Keyword) (s : Loop) : Turn :=
  match s.tokens with
  | [] => .leave (.ended s.diagnostics)
  | t :: rest =>
    if t.isKeyword close then .leave (.done (.mk s.statements s.diagnostics) rest)
    else if t.isSymbol .colon then .goOn { s with tokens := rest, skipping := false }
    else if s.skipping then
      if t.isCloser then .goOn { s with skipping := false } else .goOn { s with tokens := rest }
    else
      match Rule.statement (rest.length + 1) (t :: rest) with
      | .done none _ =>
        .goOn { s with
          tokens := rest, skipping := true
          diagnostics := s.diagnostics ++ [Expectation.blame .statement t] }
      | .done (some (statement, found)) us =>
        .goOn { s with
          tokens := us, statements := s.statements ++ [statement]
          diagnostics := s.diagnostics ++ found }
      | .rejected found us =>
        .goOn { s with tokens := us, skipping := true, diagnostics := s.diagnostics ++ found }
      | .ended found => .leave (.ended (s.diagnostics ++ found))
      | .exhausted => .leave .exhausted

/-- What the rule for blocks makes of the tokens from here on, behind what was read before. -/
def outcome (close : Keyword) (s : Loop) : Outcome Block :=
  (Rule.block (s.tokens.length + 1) close s.skipping s.tokens).prepend s.statements s.diagnostics

variable {close : Keyword} {s next : Loop}

/-- A turn ends the block with the outcome that it has to have, or leaves the rest of it to
the next turns. -/
theorem outcome_eq (close : Keyword) (s : Loop) :
    s.outcome close = match s.turn close with
      | .leave outcome => outcome
      | .goOn next => next.outcome close := by
  obtain ⟨tokens, skipping, ss, ds⟩ := s
  cases tokens with
  | nil =>
    have hend : Rule.block ([] : List Token).length.succ close skipping [] = .ended [] := rfl
    rw [outcome, hend]
    exact congrArg Outcome.ended (List.append_nil ds)
  | cons t rest =>
    simp only [outcome, turn, Rule.block_length_cons]
    cases hclose : t.isKeyword close with
    | true => simp [Outcome.prepend, Block.statements, Block.diagnostics]
    | false =>
    cases hcolon : t.isSymbol .colon with
    | true => rfl
    | false =>
    simp only [Bool.false_eq_true, if_false]
    cases skipping with
    | true =>
      cases hcloser : t.isCloser with
      | false => rfl
      | true =>
        -- Both points look for a statement at the same token.
        simp only [Bool.not_true, Bool.and_false, Bool.false_eq_true, if_false, if_true,
          Rule.block_length_cons, hclose, hcolon, Bool.false_and]
    | false =>
      simp only [Bool.false_and, Bool.false_eq_true, if_false]
      split <;> simp only [Outcome.prepend_prepend, List.append_nil]
      · rfl
      · rfl

/-- Every turn of a block that goes on takes a token, or stops to skip and lets the next
turn take one. -/
theorem turn_progress (h : s.turn close = .goOn next) :
    (next.tokens <:+ s.tokens ∧ next.tokens.length < s.tokens.length) ∨
      s.skipping = true ∧ next = { s with skipping := false } ∧
        ∃ later, next.turn close = .goOn later ∧ later.tokens.length < s.tokens.length := by
  obtain ⟨tokens, skipping, ss, ds⟩ := s
  cases tokens with
  | nil => cases h
  | cons t rest =>
    have htaken : ∀ {us : List Token}, us <:+ rest → us <:+ t :: rest ∧
        us.length < (t :: rest).length :=
      fun hus => ⟨hus.trans (List.suffix_cons t rest), Nat.lt_succ_of_le hus.length_le⟩
    simp only [turn] at h
    split at h
    · cases h
    split at h
    · cases h
      exact .inl (htaken (List.suffix_refl rest))
    split at h
    · split at h
      · -- a keyword that closes something else, with which no statement starts
        next hclose hcolon hskip hcloser =>
        cases h
        have hnone := Rule.statement_of_none rest
          (Rule.statement?_of_isCloser (Rule.block (rest.length + 1) .ENDDO false) hcloser)
        refine .inr ⟨hskip, rfl, ⟨rest, true, ss, ds ++ [Expectation.blame .statement t]⟩, ?_,
          Nat.lt_succ_self _⟩
        simp only [turn, if_neg hclose, if_neg hcolon, Bool.false_eq_true, if_false, hnone]
      · cases h
        exact .inl (htaken (List.suffix_refl rest))
    · split at h
      · cases h
        exact .inl (htaken (List.suffix_refl rest))
      · next heq =>
        cases h
        exact .inl (htaken (Rule.statement_takes (.inl ⟨_, heq⟩)))
      · next heq =>
        cases h
        exact .inl (htaken (Rule.statement_takes (.inr ⟨_, heq⟩)))
      · cases h
      · cases h

/-- What goes down with every turn: two units for each token, and one if tokens are passed over. -/
def measure (s : Loop) : Nat :=
  2 * s.tokens.length + s.skipping.toNat

/-- A turn makes the loop smaller: it reads a token, or it leaves one in place
and stops skipping. -/
theorem measure_lt_of_turn (h : s.turn close = .goOn next) : next.measure < s.measure := by
  rw [measure, measure]
  rcases turn_progress h with ⟨-, hlt⟩ | ⟨hskipping, rfl, -⟩
  · have := next.skipping.toNat_le
    omega
  · rw [hskipping]
    exact Nat.lt_succ_self _

/-- The block is left with an outcome after a number of turns. -/
inductive Leaves (close : Keyword) : Loop → Nat → Outcome Block → Prop
  | last {s : Loop} {outcome : Outcome Block} :
      s.turn close = .leave outcome → Leaves close s 1 outcome
  | next {s next : Loop} {turns : Nat} {outcome : Outcome Block} :
      s.turn close = .goOn next → Leaves close next turns outcome →
        Leaves close s (turns + 1) outcome

/-- Every block is left, with the outcome that the rule for blocks gives. -/
theorem exists_leaves (close : Keyword) (s : Loop) :
    ∃ turns ≤ s.measure + 1, Leaves close s turns (s.outcome close) := by
  induction hmeasure : s.measure using Nat.strongRecOn generalizing s with
  | _ m ih =>
    have houtcome := outcome_eq close s
    cases hturn : s.turn close with
    | leave outcome =>
      rw [hturn] at houtcome
      exact ⟨1, Nat.succ_le_succ (Nat.zero_le m), houtcome ▸ .last hturn⟩
    | goOn next =>
      rw [hturn] at houtcome
      have hlt := hmeasure ▸ measure_lt_of_turn hturn
      obtain ⟨turns, hle, hleaves⟩ := ih next.measure hlt next rfl
      exact ⟨turns + 1, by omega, houtcome ▸ .next hturn hleaves⟩

end Loop

/-- Reading makes progress and ends, whatever the tokens are.

* Every rule leaves the last ones of its tokens. With one unit of fuel for each token and one more,
  its fuel never runs out, and more fuel changes nothing.
* A statement that is read or rejected has taken a token.
* A turn of a block that does not end it takes a token. The one exception is the turn that only
  stops to skip, and the turn after it takes a token.
* So a block is left after two turns for each token and two more, and that is how the rule
  for blocks reads it.
* Neither the beginning of a program nor its body runs out of fuel where the tokens are read. -/
theorem Rule.reading_progresses :
    (∀ {α : Type} {rule : Nat → Rule α}, Production rule → ∀ (fuel : Nat) (ts : List Token),
      (rule fuel ts).remaining <:+ ts ∧
        (ts.length < fuel →
          rule fuel ts ≠ .exhausted ∧ ∀ more, fuel ≤ more → rule more ts = rule fuel ts)) ∧
    (∀ (fuel : Nat) (ts rest : List Token),
      ((∃ found, statement fuel ts = .done (some found) rest) ∨
        ∃ report, statement fuel ts = .rejected report rest) → rest.length < ts.length) ∧
    (∀ (close : Keyword) (s next : Loop), s.turn close = .goOn next →
      (next.tokens <:+ s.tokens ∧ next.tokens.length < s.tokens.length) ∨
        s.skipping = true ∧ next = { s with skipping := false } ∧
          ∃ later, next.turn close = .goOn later ∧ later.tokens.length < s.tokens.length) ∧
    (∀ (close : Keyword) (skipping : Bool) (ts : List Token), ∃ turns ≤ 2 * ts.length + 2,
      Loop.Leaves close ⟨ts, skipping, [], []⟩ turns (block (ts.length + 1) close skipping ts)) ∧
    ∀ ts : List Token, header ts ≠ .exhausted ∧ ∀ name us, header ts = .done name us →
      block (us.length + 1) .ENDPROG false us ≠ .exhausted := by
  refine ⟨fun h fuel ts => ?_, fun fuel ts rest h => ?_, fun _ _ _ h => Loop.turn_progress h,
    fun close skipping ts => ?_, fun ts => ⟨?_, fun name us _ => ?_⟩⟩
  · refine ⟨remaining_suffix _ ts, fun hlt => ⟨h.ne_exhausted hlt, fun more hle => ?_⟩⟩
    exact h.eq_of_le hlt hle
  · cases ts with
    | nil => rcases h with ⟨_, h⟩ | ⟨_, h⟩ <;> cases h
    | cons t ts => exact Nat.lt_succ_of_le (statement_takes h).length_le
  · obtain ⟨turns, hle, hleaves⟩ := Loop.exists_leaves close ⟨ts, skipping, [], []⟩
    have hskipping := skipping.toNat_le
    refine ⟨turns, Nat.le_trans hle ?_, ?_⟩
    · show 2 * ts.length + skipping.toNat + 1 ≤ 2 * ts.length + 2
      omega
    · rwa [Loop.outcome, Outcome.prepend_nil] at hleaves
  · exact Production.header.ne_exhausted (Nat.lt_succ_self ts.length)
  · exact (Production.block .ENDPROG false).ne_exhausted (Nat.lt_succ_self us.length)

end Zed

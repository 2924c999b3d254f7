import Zed.Proofs.Grammar.Derivation
import Zed.Proofs.Grammar.Rule

/-!
# Gaps between items

An item can be put into a program after the name of the program or a `DO`, after a colon, and after
the keyword that closes a compound statement. So the last token in front of a point tells whether
the point is such a gap, at whatever depth.

`ProgramGap pre post fill` splits the tokens of a program at a gap and says what is around it:
`fill new found` is the program with the statements `new` put in at that point, where the block with
the gap and all blocks around it have the diagnostics `found`. With nothing put in and nothing found
it is the program itself. The relation is made up in layers, one for each thing that can enclose a
block. In each of them the tokens before and behind come with a function from what is inside to the
whole, so what is not on the way to the gap is visibly untouched.

Every point of a derived program at which an item can stand is a gap (`exists_programGap`).
-/

set_option autoImplicit false

namespace Zed

/-- An item can stand behind this keyword. -/
def Keyword.precedesItem : Keyword → Bool
  | DO | ENDIF | ENDSWITCH | ENDFOR | ENDWHEN | ENDREPEAT => true
  | _ => false

/-- An item can stand behind this token. -/
def Token.precedesItem (t : Token) : Bool :=
  match t.kind with
  | .keyword word => word.precedesItem
  | .symbol sign => sign = .colon
  | _ => false

theorem Token.precedesItem_of_isKeyword {t : Token} {word : Keyword} (h : t.isKeyword word = true) :
    t.precedesItem = word.precedesItem := by
  rw [Token.precedesItem, Token.isKeyword_iff.1 h]

theorem Token.precedesItem_of_isSymbol {t : Token} {sign : Symbol} (h : t.isSymbol sign = true) :
    t.precedesItem = decide (sign = .colon) := by
  rw [Token.precedesItem, Token.isSymbol_iff.1 h]

/-- An item can stand behind this run of tokens, because of its last token. -/
def EndsAtItem (us : List Token) : Prop :=
  ∃ vs t, us = vs ++ [t] ∧ t.precedesItem = true

/-- The beginning of a program up to a point where an item can stand: right after its first two
tokens, the second of which is its name, or later. -/
def ItemBoundary (pre : List Token) : Prop :=
  pre.length = 2 ∨ EndsAtItem pre

/-- Where an item may begin can be told from the last token. -/
theorem endsAtItem_iff {us : List Token} :
    EndsAtItem us ↔ us.getLast?.any Token.precedesItem = true := by
  rcases List.eq_nil_or_concat us with rfl | ⟨vs, t, rfl⟩
  · simp [EndsAtItem]
  · simp only [EndsAtItem, List.concat_eq_append, List.getLast?_append, List.getLast?_singleton,
      Option.some_or, Option.any_some]
    constructor
    · rintro ⟨ws, u, heq, hu⟩
      obtain ⟨-, hlast⟩ := List.append_inj' heq rfl
      cases hlast
      exact hu
    · exact fun ht => ⟨vs, t, rfl, ht⟩

instance : DecidablePred EndsAtItem :=
  fun _ => decidable_of_iff _ endsAtItem_iff.symm

instance : DecidablePred ItemBoundary :=
  fun pre => inferInstanceAs (Decidable (pre.length = 2 ∨ EndsAtItem pre))

/-! ## What is around a gap -/

/-- A block among the branches of a choice after the first one: the tokens of those branches before
and behind the block, and the branches as they depend on it. -/
inductive AroundBranch :
    List Token → List Token → (Block → List (Option Condition × Block)) → Prop
  | last {word : Token} :
      word.isKeyword .OTHERWISE → AroundBranch [word] [] (fun b => [(none, b)])
  | here {cs os : List Token} {word again : Token} {test : Condition}
      {others : List (Option Condition × Block)} :
      word.isKeyword .OTHERWISE → again.isKeyword .IF → Derives cs (.condition test) →
      Derives os (.branches others) →
      AroundBranch (word :: again :: cs) os (fun b => (some test, b) :: others)
  | later {cs bs ls rs : List Token} {word again : Token} {test : Condition} {body : Block}
      {around : Block → List (Option Condition × Block)} :
      word.isKeyword .OTHERWISE → again.isKeyword .IF → Derives cs (.condition test) →
      Derives bs (.doBlock body) → AroundBranch ls rs around →
      AroundBranch (word :: again :: cs ++ bs ++ ls) rs (fun b => (some test, body) :: around b)

/-- A block among the arms of a switch. -/
inductive AroundArm : List Token → List Token → (Block → List (Literal × Block)) → Prop
  | here {ls as : List Token} {word : Token} {label : Literal} {arms : List (Literal × Block)} :
      word.isKeyword .WHEN → Derives ls (.literal label) → Derives as (.arms arms) →
      AroundArm (word :: ls) as (fun b => (label, b) :: arms)
  | later {ls bs us vs : List Token} {word : Token} {label : Literal} {body : Block}
      {around : Block → List (Literal × Block)} :
      word.isKeyword .WHEN → Derives ls (.literal label) → Derives bs (.doBlock body) →
      AroundArm us vs around →
      AroundArm (word :: ls ++ bs ++ us) vs (fun b => (label, body) :: around b)

/-- A block in a compound statement. -/
inductive AroundBlock : List Token → List Token → (Block → Statement) → Prop
  | whileLoop {cs : List Token} {word closing : Token} {test : Condition} :
      word.isKeyword .WHEN → Derives cs (.condition test) → closing.isKeyword .ENDWHEN →
      AroundBlock (word :: cs) [closing] (.whileLoop test)
  | untilLoop {cs : List Token} {word middle closing : Token} {test : Condition} :
      word.isKeyword .REPEAT → middle.isKeyword .UNTIL → Derives cs (.condition test) →
      closing.isKeyword .ENDREPEAT →
      AroundBlock [word] (middle :: cs ++ [closing]) (.untilLoop · test)
  | forLoop {vs as os ss : List Token} {word first last size closing : Token}
      {counter : Variable} {start stop step : Binary64} :
      word.isKeyword .FOR → Derives vs (.var counter) →
      first.isKeyword .FROM → Derives as (.number start) →
      last.isKeyword .TO → Derives os (.number stop) →
      size.isKeyword .BY → Derives ss (.number step) → step.isZero = false →
      closing.isKeyword .ENDFOR →
      AroundBlock (word :: vs ++ first :: as ++ last :: os ++ size :: ss) [closing]
        (.forLoop counter start stop step)
  | firstBranch {cs os : List Token} {word closing : Token} {test : Condition}
      {others : List (Option Condition × Block)} :
      word.isKeyword .IF → Derives cs (.condition test) → Derives os (.branches others) →
      closing.isKeyword .ENDIF →
      AroundBlock (word :: cs) (os ++ [closing]) (fun b => .choice ((some test, b) :: others))
  | otherBranch {cs bs ls rs : List Token} {word closing : Token} {test : Condition} {body : Block}
      {around : Block → List (Option Condition × Block)} :
      word.isKeyword .IF → Derives cs (.condition test) → Derives bs (.doBlock body) →
      AroundBranch ls rs around → closing.isKeyword .ENDIF →
      AroundBlock (word :: cs ++ bs ++ ls) (rs ++ [closing])
        (fun b => .choice ((some test, body) :: around b))
  | arm {vs ls rs : List Token} {word closing : Token} {subject : Variable}
      {around : Block → List (Literal × Block)} :
      word.isKeyword .SWITCH → Derives vs (.var subject) → AroundArm ls rs around →
      closing.isKeyword .ENDSWITCH →
      AroundBlock (word :: vs ++ ls) (rs ++ [closing]) (fun b => .switch subject (around b))

/-- A gap between the items of a block or of a block inside it: the tokens of the items before and
behind it, and the block as it depends on what is put in and what is found. -/
inductive Gap : List Token → List Token → (List Statement → List Diagnostic → Block) → Prop
  | here {us vs : List Token} {xs ys : List Statement} :
      Derives us (.items xs) → Derives vs (.items ys) →
      Gap us vs (fun new found => .mk (xs ++ new ++ ys) found)
  | inside {us ls before behind rs vs : List Token} {opening closing : Token}
      {xs ys : List Statement} {around : Block → Statement}
      {fill : List Statement → List Diagnostic → Block} :
      Derives us (.items xs) → AroundBlock ls rs around → opening.isKeyword .DO →
      Gap before behind fill → closing.isKeyword .ENDDO → Derives vs (.items ys) →
      Gap (us ++ ls ++ opening :: before) (behind ++ closing :: rs ++ vs)
        (fun new found => .mk (xs ++ around (fill new found) :: ys) found)

/-- A gap in a program. -/
inductive ProgramGap :
    List Token → List Token → (List Statement → List Diagnostic → Program) → Prop
  | mk {before behind : List Token} {opening title closing : Token} {name : String}
      {fill : List Statement → List Diagnostic → Block} :
      opening.isKeyword .PROG → title.kind = .ident name → Gap before behind fill →
      closing.isKeyword .ENDPROG →
      ProgramGap (opening :: title :: before) (behind ++ [closing])
        (fun new found => ⟨name, fill new found⟩)

/-! ## Where a run can be parted -/

/-- No item can stand behind any of the tokens. -/
def Quiet (us : List Token) : Prop :=
  ∀ t ∈ us, t.precedesItem = false

namespace Quiet

theorem nil : Quiet [] :=
  fun _ ht => absurd ht List.not_mem_nil

theorem cons {t : Token} {us : List Token} (ht : t.precedesItem = false) (hus : Quiet us) :
    Quiet (t :: us) :=
  List.forall_mem_cons.2 ⟨ht, hus⟩

theorem append {us vs : List Token} (hus : Quiet us) (hvs : Quiet vs) : Quiet (us ++ vs) :=
  List.forall_mem_append.2 ⟨hus, hvs⟩

theorem cons_keyword {t : Token} {us : List Token} {word : Keyword} (ht : t.isKeyword word = true)
    (hword : word.precedesItem = false) (hus : Quiet us) : Quiet (t :: us) :=
  .cons ((Token.precedesItem_of_isKeyword ht).trans hword) hus

theorem cons_symbol {t : Token} {us : List Token} {sign : Symbol} (ht : t.isSymbol sign = true)
    (hsign : sign ≠ .colon) (hus : Quiet us) : Quiet (t :: us) :=
  .cons ((Token.precedesItem_of_isSymbol ht).trans (decide_eq_false hsign)) hus

/-- There is no colon among tokens behind which no item begins. -/
theorem no_colon {us : List Token} (hus : Quiet us) : ∀ t ∈ us, t.isSymbol .colon = false := by
  intro t ht
  rw [← Bool.not_eq_true]
  intro hsign
  have hquiet := hus t ht
  rw [Token.precedesItem_of_isSymbol hsign] at hquiet
  cases hquiet

end Quiet

/-- The phrases that contain no items. -/
def Phrase.isSmall : Phrase → Bool
  | .compound _ | .items _ | .doBlock _ | .branches _ | .arms _ | .program _ => false
  | _ => true

/-- Inside a part of a statement no item begins. -/
theorem Derives.quiet {us : List Token} {φ : Phrase} (h : Derives us φ) :
    φ.isSmall = true → Quiet us := by
  induction h with
  | var hk | textLiteral hk | textTerm hk =>
    exact fun _ => .cons (by rw [Token.precedesItem, hk]) .nil
  | number hk _ => exact fun _ => .cons (by rw [Token.precedesItem, hk]) .nil
  | numberLiteral _ ih | varTerm _ ih | numberTerm _ ih | lastTerm _ ih | termOperand _ ih
  | conditionOperand _ ih | termValue _ ih => exact fun _ => ih rfl
  | nextTerm _ hplus _ ih ih' =>
    exact fun _ => (ih rfl).append (.cons_symbol hplus (by decide) (ih' rfl))
  | noParams hopening hclosing =>
    exact fun _ => .cons_symbol hopening (by decide) (.cons_symbol hclosing (by decide) .nil)
  | someParams hopening _ hclosing ih =>
    exact fun _ => .append (.cons_symbol hopening (by decide) (ih rfl))
      (.cons_symbol hclosing (by decide) .nil)
  | @relation _ _ _ r _ _ hsign _ _ ih ih' =>
    exact fun _ => .append (.cons_symbol hsign (by cases r <;> decide) (ih rfl)) (ih' rfl)
  | negation hbang _ ih => exact fun _ => .cons_symbol hbang (by decide) (ih rfl)
  | inputValue hword _ ih | output hword _ ih => exact fun _ => .cons_keyword hword rfl (ih rfl)
  | assignment hsign _ _ ih ih' =>
    exact fun _ => .append (.cons_symbol hsign (by decide) (ih rfl)) (ih' rfl)
  | @update _ _ _ _ _ _ operator hsign _ _ hfinal ih ih' =>
    exact fun _ => .append (.append (.cons_symbol hsign (by decide) (ih rfl)) (ih' rfl))
      (.cons_symbol hfinal (by cases operator <;> decide) .nil)
  | _ => exact fun hsmall => nomatch hsmall

namespace EndsAtItem

variable {us vs pre post : List Token} {t : Token}

/-- Two runs in a row are parted in the first of them, or in the second behind a token of it. -/
theorem part (hpre : EndsAtItem pre) (h : us ++ vs = pre ++ post) :
    (∃ mid, us = pre ++ mid ∧ post = mid ++ vs) ∨
      ∃ mid, pre = us ++ mid ∧ EndsAtItem mid ∧ vs = mid ++ post := by
  rcases List.append_eq_append_iff.1 h with ⟨mid, rfl, rfl⟩ | ⟨mid, rfl, rfl⟩
  -- a cut between the two runs counts as one in the first
  · rcases List.eq_nil_or_concat mid with rfl | ⟨ws, t, rfl⟩
    · exact .inl ⟨[], by simp, rfl⟩
    · obtain ⟨xs, u, heq, hu⟩ := hpre
      rw [List.concat_eq_append, ← List.append_assoc] at heq
      obtain ⟨-, hlast⟩ := List.append_inj' heq rfl
      cases hlast
      exact .inr ⟨ws ++ [t], by simp, ⟨ws, t, rfl, hu⟩, by simp⟩
  · exact .inl ⟨mid, rfl, rfl⟩

/-- A run in which no token can be the last one before an item is not parted. -/
theorem part_quiet (hpre : EndsAtItem pre) (hus : Quiet us) (h : us ++ vs = pre ++ post) :
    ∃ mid, pre = us ++ mid ∧ EndsAtItem mid ∧ vs = mid ++ post := by
  rcases hpre.part h with ⟨mid, rfl, -⟩ | hmid
  · obtain ⟨xs, t, rfl, ht⟩ := hpre
    rw [hus t (by simp)] at ht
    cases ht
  · exact hmid

/-- Three runs in a row of which the first is not parted. -/
theorem part_behind {bs : List Token} (hpre : EndsAtItem pre) (hus : Quiet us)
    (h : us ++ (bs ++ vs) = pre ++ post) :
    (∃ mid behind, pre = us ++ mid ∧ EndsAtItem mid ∧ bs = mid ++ behind ∧ post = behind ++ vs) ∨
      ∃ mid, pre = us ++ (bs ++ mid) ∧ EndsAtItem mid ∧ vs = mid ++ post := by
  obtain ⟨mid, rfl, hmid, h⟩ := hpre.part_quiet hus h
  rcases hmid.part h with ⟨behind, rfl, rfl⟩ | ⟨mid, rfl, hmid, rfl⟩
  · exact .inl ⟨mid, behind, rfl, hmid, rfl, rfl⟩
  · exact .inr ⟨mid, rfl, hmid, rfl⟩

/-- A single token is parted behind it, and an item may begin there. -/
theorem part_singleton (hpre : EndsAtItem pre) (h : [t] = pre ++ post) :
    pre = [t] ∧ post = [] ∧ t.precedesItem = true := by
  obtain ⟨xs, u, rfl, hu⟩ := hpre
  rw [List.append_assoc] at h
  rcases List.append_eq_singleton_iff.1 h.symm with ⟨rfl, h⟩ | ⟨-, h⟩
  · cases h
    exact ⟨rfl, rfl, hu⟩
  · cases h

/-- A run is parted before its last token, if no item can stand behind that one. -/
theorem part_before (hpre : EndsAtItem pre) (ht : t.precedesItem = false)
    (h : us ++ [t] = pre ++ post) : ∃ mid, us = pre ++ mid ∧ post = mid ++ [t] := by
  rcases hpre.part h with hmid | ⟨mid, rfl, hmid, h⟩
  · exact hmid
  · rw [(hmid.part_singleton h).2.2] at ht
    cases ht

end EndsAtItem

/-- A gap in a block between `DO` and `ENDDO`; `b` is the block as it is. -/
inductive InDoBlock : List Token → List Token → Block → Prop
  | mk {before behind : List Token} {opening closing : Token}
      {fill : List Statement → List Diagnostic → Block} :
      opening.isKeyword .DO → Gap before behind fill → closing.isKeyword .ENDDO →
      InDoBlock (opening :: before) (behind ++ [closing]) (fill [] [])

/-- A gap in one of the blocks that something encloses. -/
inductive Within {α : Type} (Around : List Token → List Token → (Block → α) → Prop) :
    List Token → List Token → α → Prop
  | mk {ls rs before behind : List Token} {around : Block → α} {b : Block} :
      Around ls rs around → InDoBlock before behind b →
      Within Around (ls ++ before) (behind ++ rs) (around b)

/-- A run with a block in it is parted in the block or behind it. -/
theorem Within.part {α : Type} {Around : List Token → List Token → (Block → α) → Prop}
    {ls bs rs pre post : List Token} {around : Block → α} {b : Block}
    (haround : Around ls rs around) (hls : Quiet ls)
    (hbs : ∀ {pre post}, bs = pre ++ post → EndsAtItem pre → InDoBlock pre post b)
    (heq : ls ++ (bs ++ rs) = pre ++ post) (hpre : EndsAtItem pre) :
    Within Around pre post (around b) ∨
      ∃ mid, pre = ls ++ (bs ++ mid) ∧ EndsAtItem mid ∧ rs = mid ++ post := by
  rcases hpre.part_behind hls heq with ⟨mid, behind, rfl, hmid, rfl, rfl⟩ | hmid
  · exact .inl (.mk haround (hbs rfl hmid))
  · exact .inr hmid

/-- What encloses the block gets larger. -/
theorem Within.extend {α β : Type} {Around : List Token → List Token → (Block → α) → Prop}
    {Around' : List Token → List Token → (Block → β) → Prop} {pre post us vs : List Token} {a : α}
    (larger : α → β) (h : Within Around pre post a)
    (hlarger : ∀ {ls rs around}, Around ls rs around →
      Around' (us ++ ls) (rs ++ vs) (fun b => larger (around b))) :
    Within Around' (us ++ pre) (post ++ vs) (larger a) := by
  cases h with
  | mk haround hin =>
    rw [← List.append_assoc us, List.append_assoc _ _ vs]
    exact .mk (hlarger haround) hin

/-- What is added stands before the block. -/
theorem Within.precede {α β : Type} {Around : List Token → List Token → (Block → α) → Prop}
    {Around' : List Token → List Token → (Block → β) → Prop} {pre post us : List Token} {a : α}
    (larger : α → β) (h : Within Around pre post a)
    (hlarger : ∀ {ls rs around}, Around ls rs around →
      Around' (us ++ ls) rs (fun b => larger (around b))) :
    Within Around' (us ++ pre) post (larger a) := by
  rw [← List.append_nil post]
  exact h.extend larger fun haround => by
    rw [List.append_nil]
    exact hlarger haround

/-- Items in a row are items. -/
theorem Derives.items_append {us vs : List Token} {xs ys : List Statement} :
    Derives us (.items xs) → Derives vs (.items ys) → Derives (us ++ vs) (.items (xs ++ ys)) := by
  intro hus hvs
  generalize hφ : Phrase.items xs = φ at hus
  induction hus generalizing xs with
  | noItem =>
    cases hφ
    exact hvs
  | colonItem hcolon _ ih =>
    cases hφ
    exact .colonItem hcolon (ih rfl)
  | simpleItem hsimple hcolon _ _ ih =>
    cases hφ
    rw [List.append_assoc]
    exact .simpleItem hsimple hcolon (ih rfl)
  | compoundItem hcompound _ _ ih =>
    cases hφ
    rw [List.append_assoc]
    exact .compoundItem hcompound (ih rfl)
  | _ => cases hφ

/-- More items can stand before a gap. -/
theorem Gap.prepend {us pre post : List Token} {xs ss : List Statement}
    {fill : List Statement → List Diagnostic → Block} (hus : Derives us (.items xs))
    (h : Gap pre post fill) (hfill : fill [] [] = .mk ss []) :
    ∃ fill', Gap (us ++ pre) post fill' ∧ fill' [] [] = .mk (xs ++ ss) [] := by
  cases h with
  | here hbefore hbehind =>
    cases hfill
    exact ⟨_, .here (hus.items_append hbefore) hbehind, by simp⟩
  | inside hbefore haround hopening hgap hclosing hbehind =>
    cases hfill
    rw [← List.append_assoc us, ← List.append_assoc us]
    exact ⟨_, .inside (hus.items_append hbefore) haround hopening hgap hclosing hbehind, by simp⟩

/-- How a run can be parted behind a token that an item can follow. -/
def Phrase.Parted (pre post : List Token) : Phrase → Prop
  | .items ss => ∃ fill, Gap pre post fill ∧ fill [] [] = .mk ss []
  | .doBlock b => InDoBlock pre post b
  | .branches others => Within AroundBranch pre post others
  | .arms choices => Within AroundArm pre post choices
  | .compound s => post = [] ∨ Within AroundBlock pre post s
  | _ => True

/-- A run is parted at a gap, or else behind a compound statement as a whole. -/
theorem Derives.parted {us : List Token} {φ : Phrase} (h : Derives us φ) :
    ∀ {pre post : List Token}, us = pre ++ post → EndsAtItem pre → φ.Parted pre post := by
  induction h with
  | noItem =>
    rintro pre post heq ⟨xs, t, rfl, -⟩
    simp at heq
  | @colonItem ts colon ss hcolon hitems ih =>
    intro pre post heq hpre
    have hitem : Derives [colon] (.items []) := .colonItem hcolon .noItem
    have heq : [colon] ++ ts = pre ++ post := heq
    rcases hpre.part heq with ⟨mid, hcut, rfl⟩ | ⟨mid, rfl, hmid, rfl⟩
    · obtain ⟨rfl, rfl, -⟩ := hpre.part_singleton hcut
      exact ⟨_, .here hitem hitems, rfl⟩
    · obtain ⟨fill, hgap, hfill⟩ := ih rfl hmid
      exact hgap.prepend hitem hfill
  | @simpleItem us ts colon s ss hsimple hcolon hitems _ ih =>
    intro pre post heq hpre
    have hitem : Derives (us ++ [colon]) (.items [s]) := .simpleItem hsimple hcolon .noItem
    have heq : us ++ ([colon] ++ ts) = pre ++ post := heq
    rcases hpre.part_behind (hsimple.quiet rfl) heq with
      ⟨mid, behind, rfl, hmid, hcut, rfl⟩ | ⟨mid, rfl, hmid, rfl⟩
    · obtain ⟨rfl, rfl, -⟩ := hmid.part_singleton hcut
      exact ⟨_, .here hitem hitems, rfl⟩
    · obtain ⟨fill, hgap, hfill⟩ := ih rfl hmid
      rw [← List.append_assoc]
      exact hgap.prepend hitem hfill
  | @compoundItem us ts s ss hcompound hitems ih ih' =>
    intro pre post heq hpre
    have hitem : Derives us (.items [s]) := by
      have := Derives.compoundItem hcompound .noItem
      rwa [List.append_nil] at this
    rcases hpre.part heq with ⟨mid, rfl, rfl⟩ | ⟨mid, rfl, hmid, rfl⟩
    -- the point is in the compound statement: at its end, or inside one of its blocks
    · rcases ih rfl hpre with rfl | hwithin
      · rw [List.append_nil] at hitem
        exact ⟨_, .here hitem hitems, rfl⟩
      · cases hwithin with
        | mk haround hin =>
          cases hin with
          | mk hopening hgap hclosing =>
            rw [List.append_assoc _ [_]]
            exact ⟨_, .inside .noItem haround hopening hgap hclosing hitems, rfl⟩
    · obtain ⟨fill, hgap, hfill⟩ := ih' rfl hmid
      exact hgap.prepend hitem hfill
  | @doBlock ts opening closing ss hopening hitems hclosing ih =>
    intro pre post heq hpre
    -- the point is right behind the opening keyword, or else behind a token of the items
    have heq : [opening] ++ (ts ++ [closing]) = pre ++ post := heq
    rcases hpre.part heq with ⟨mid, hcut, rfl⟩ | ⟨mid, rfl, hmid, heq⟩
    · obtain ⟨rfl, rfl, -⟩ := hpre.part_singleton hcut
      exact InDoBlock.mk hopening (.here .noItem hitems) hclosing
    · obtain ⟨behind, rfl, rfl⟩ := hmid.part_before (Token.precedesItem_of_isKeyword hclosing) heq
      obtain ⟨fill, hgap, hfill⟩ := ih rfl hmid
      have h := InDoBlock.mk hopening hgap hclosing
      rwa [hfill] at h
  | @whileLoop cs bs word closing test body hword htest hbody hclosing _ ih =>
    intro pre post heq hpre
    have hquiet : Quiet (word :: cs) := .cons_keyword hword rfl (htest.quiet rfl)
    have haround := AroundBlock.whileLoop hword htest hclosing
    rw [List.append_assoc] at heq
    -- the point is in the body, or behind the keyword that ends the loop
    rcases Within.part haround hquiet ih heq hpre with hwithin | ⟨mid, -, hmid, heq⟩
    · exact Or.inr hwithin
    · exact Or.inl (hmid.part_singleton heq).2.1
  | @untilLoop bs cs word middle closing body test hword hbody hmiddle htest hclosing ih _ =>
    intro pre post heq hpre
    have hquiet : Quiet [word] := .cons_keyword hword rfl .nil
    have hquiet' : Quiet (middle :: cs) := .cons_keyword hmiddle rfl (htest.quiet rfl)
    have haround := AroundBlock.untilLoop hword hmiddle htest hclosing
    rw [List.append_assoc] at heq
    rcases Within.part haround hquiet ih heq hpre with hwithin | ⟨mid, -, hmid, heq⟩
    · exact Or.inr hwithin
    · obtain ⟨last, -, hlast, heq⟩ := hmid.part_quiet hquiet' heq
      exact Or.inl (hlast.part_singleton heq).2.1
  | @forLoop vs as os ss bs word first last size closing counter start stop step body hword hvar
      hfirst hstart hlast hstop hsize hstep hzero hbody hclosing _ _ _ _ ih =>
    intro pre post heq hpre
    have hquiet : Quiet (word :: vs ++ first :: as ++ last :: os ++ size :: ss) :=
      (((Quiet.cons_keyword hword rfl (hvar.quiet rfl)).append
        (.cons_keyword hfirst rfl (hstart.quiet rfl))).append
        (.cons_keyword hlast rfl (hstop.quiet rfl))).append
        (.cons_keyword hsize rfl (hstep.quiet rfl))
    have haround :=
      AroundBlock.forLoop hword hvar hfirst hstart hlast hstop hsize hstep hzero hclosing
    rw [List.append_assoc] at heq
    rcases Within.part haround hquiet ih heq hpre with hwithin | ⟨mid, -, hmid, heq⟩
    · exact Or.inr hwithin
    · exact Or.inl (hmid.part_singleton heq).2.1
  | @choice cs bs os word closing test body others hword htest hbody hothers hclosing _ ih ih' =>
    intro pre post heq hpre
    have hquiet : Quiet (word :: cs) := .cons_keyword hword rfl (htest.quiet rfl)
    have haround := AroundBlock.firstBranch hword htest hothers hclosing
    rw [List.append_assoc, List.append_assoc] at heq
    -- the point is in the first block, in one of the others, or behind the choice
    rcases Within.part haround hquiet ih heq hpre with hwithin | ⟨mid, rfl, hmid, heq⟩
    · exact Or.inr hwithin
    · rcases hmid.part heq with ⟨behind, rfl, rfl⟩ | ⟨last, rfl, hlast, heq⟩
      · right
        rw [← List.append_assoc]
        exact Within.extend (fun others => Statement.choice ((some test, body) :: others))
          (ih' rfl hmid) fun haround => AroundBlock.otherBranch hword htest hbody haround hclosing
      · exact Or.inl (hlast.part_singleton heq).2.1
  | noBranch =>
    rintro pre post heq ⟨xs, t, rfl, -⟩
    simp at heq
  | @lastBranch bs word body hword hbody ih =>
    intro pre post heq hpre
    have hquiet : Quiet [word] := .cons_keyword hword rfl .nil
    obtain ⟨mid, rfl, hmid, rfl⟩ := hpre.part_quiet hquiet heq
    have h := Within.mk (AroundBranch.last hword) (ih rfl hmid)
    rwa [List.append_nil] at h
  | @nextBranch cs bs os word again test body others hword hagain htest hbody hothers _ ih ih' =>
    intro pre post heq hpre
    have hquiet : Quiet (word :: again :: cs) :=
      .cons_keyword hword rfl (.cons_keyword hagain rfl (htest.quiet rfl))
    have haround := AroundBranch.here hword hagain htest hothers
    rw [List.append_assoc] at heq
    rcases Within.part haround hquiet ih heq hpre with hwithin | ⟨mid, rfl, hmid, rfl⟩
    · exact hwithin
    · rw [← List.append_assoc]
      exact Within.precede (List.cons (some test, body)) (ih' rfl hmid)
        fun haround => AroundBranch.later hword hagain htest hbody haround
  | @switch vs as word closing subject choices hword hvar harms hclosing _ ih =>
    intro pre post heq hpre
    have hquiet : Quiet (word :: vs) := .cons_keyword hword rfl (hvar.quiet rfl)
    rw [List.append_assoc] at heq
    rcases hpre.part_behind hquiet heq with
      ⟨mid, behind, rfl, hmid, rfl, rfl⟩ | ⟨mid, rfl, hmid, heq⟩
    · exact Or.inr (Within.extend (Statement.switch subject) (ih rfl hmid)
        fun haround => AroundBlock.arm hword hvar haround hclosing)
    · exact Or.inl (hmid.part_singleton heq).2.1
  | noArm =>
    rintro pre post heq ⟨xs, t, rfl, -⟩
    simp at heq
  | @nextArm ls bs as word label body choices hword hlabel hbody harms _ ih ih' =>
    intro pre post heq hpre
    have hquiet : Quiet (word :: ls) := .cons_keyword hword rfl (hlabel.quiet rfl)
    have haround := AroundArm.here hword hlabel harms
    rw [List.append_assoc] at heq
    rcases Within.part haround hquiet ih heq hpre with hwithin | ⟨mid, rfl, hmid, rfl⟩
    · exact hwithin
    · rw [← List.append_assoc]
      exact Within.precede (List.cons (label, body)) (ih' rfl hmid)
        fun haround => AroundArm.later hword hlabel hbody haround
  | _ => exact fun _ _ => trivial

/-- Every point of a program at which an item can stand is a gap. -/
theorem Derives.exists_programGap {pre post : List Token} {p : Program}
    (h : Derives (pre ++ post) (.program p)) (hpre : ItemBoundary pre) :
    ∃ fill, ProgramGap pre post fill ∧ fill [] [] = p := by
  generalize hts : pre ++ post = ts at h
  cases h with
  | @program us opening title closing name ss hopening htitle hitems hclosing =>
    have hts : [opening, title] ++ (us ++ [closing]) = pre ++ post := hts.symm
    rcases hpre with hlen | hpre
    -- right behind the name there is nothing before the gap
    · obtain ⟨rfl, rfl⟩ := List.append_inj hts hlen.symm
      exact ⟨_, .mk hopening htitle (.here .noItem hitems) hclosing, rfl⟩
    · have hquiet : Quiet [opening, title] :=
        .cons_keyword hopening rfl (.cons (by rw [Token.precedesItem, htitle]) .nil)
      obtain ⟨mid, rfl, hmid, hts⟩ := hpre.part_quiet hquiet hts
      obtain ⟨behind, rfl, rfl⟩ := hmid.part_before (Token.precedesItem_of_isKeyword hclosing) hts
      obtain ⟨fill, hgap, hfill⟩ := hitems.parted rfl hmid
      exact ⟨_, .mk hopening htitle hgap hclosing, by rw [hfill]⟩

end Zed

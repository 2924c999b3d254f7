import Zed.Proofs.Grammar.Derivation

/-!
# Derivations with faults

What a run of tokens can be read as if some of it is refused. `Recovers` goes beside `Derives`: it
has one constructor for each alternative that contains a block, together with the diagnostics that
its tokens give rise to, and two more ways to get on inside a block. Refused tokens are passed over,
with a report, and the colon behind a simple statement may be missing, with a report as well.

Phrases without a block inside them know no recovery, so for these (`Phrase.isPlain`)
`Derives` is used as it is. If there is no diagnostic, nothing was recovered from, and the
phrase is derived (`Recovers.derives`).
-/

set_option autoImplicit false

namespace Zed

/-- There is no block inside the phrase. -/
def Phrase.isPlain : Phrase → Bool
  | .compound _ => false
  | .items _ => false
  | .doBlock _ => false
  | .branches _ => false
  | .arms _ => false
  | .program _ => false
  | _ => true

/-- The tokens begin with a run that is derived as the phrase, and `rest` follows it. -/
def Phrase.Opens (phrase : Phrase) (ts rest : List Token) : Prop :=
  ∃ us, ts = us ++ rest ∧ Derives us phrase

/-- The tokens give the phrase, with these diagnostics. -/
inductive Recovers : List Token → Phrase → List Diagnostic → Prop
  -- blocks
  | noItem : Recovers [] (.items []) []
  | colonItem {ts : List Token} {colon : Token} {ss : List Statement} {ds : List Diagnostic} :
      colon.isSymbol .colon → Recovers ts (.items ss) ds → Recovers (colon :: ts) (.items ss) ds
  /-- Tokens that are refused. -/
  | refusedItem {us ts : List Token} {ss : List Statement} {found ds : List Diagnostic} :
      found ≠ [] → Recovers ts (.items ss) ds → Recovers (us ++ ts) (.items ss) (found ++ ds)
  /-- If nothing is reported about a simple statement, there is a colon behind it. -/
  | simpleItem {us ts : List Token} {s : Statement} {ss : List Statement}
      {found ds : List Diagnostic} :
      Derives us (.simple s) → (found = [] → ∃ colon ∈ ts.head?, colon.isSymbol .colon = true) →
      Recovers ts (.items ss) ds → Recovers (us ++ ts) (.items (s :: ss)) (found ++ ds)
  | compoundItem {us ts : List Token} {s : Statement} {ss : List Statement}
      {found ds : List Diagnostic} :
      Recovers us (.compound s) found → Recovers ts (.items ss) ds →
      Recovers (us ++ ts) (.items (s :: ss)) (found ++ ds)
  /-- A block keeps its diagnostics. -/
  | doBlock {ts : List Token} {opening closing : Token} {ss : List Statement}
      {ds : List Diagnostic} :
      opening.isKeyword .DO → Recovers ts (.items ss) ds → closing.isKeyword .ENDDO →
      Recovers (opening :: ts ++ [closing]) (.doBlock (.mk ss ds)) ds
  -- compound statements
  | whileLoop {cs bs : List Token} {word closing : Token} {test : Condition} {body : Block}
      {ds : List Diagnostic} :
      word.isKeyword .WHEN → Derives cs (.condition test) → Recovers bs (.doBlock body) ds →
      closing.isKeyword .ENDWHEN →
      Recovers (word :: cs ++ bs ++ [closing]) (.compound (.whileLoop test body)) ds
  | untilLoop {bs cs : List Token} {word middle closing : Token} {body : Block}
      {test : Condition} {ds : List Diagnostic} :
      word.isKeyword .REPEAT → Recovers bs (.doBlock body) ds → middle.isKeyword .UNTIL →
      Derives cs (.condition test) → closing.isKeyword .ENDREPEAT →
      Recovers (word :: bs ++ middle :: cs ++ [closing]) (.compound (.untilLoop body test)) ds
  | forLoop {vs as os ss bs : List Token} {word first last size closing : Token}
      {counter : Variable} {start stop step : Binary64} {body : Block} {ds : List Diagnostic} :
      word.isKeyword .FOR → Derives vs (.var counter) →
      first.isKeyword .FROM → Derives as (.number start) →
      last.isKeyword .TO → Derives os (.number stop) →
      size.isKeyword .BY → Derives ss (.number step) → step.isZero = false →
      Recovers bs (.doBlock body) ds → closing.isKeyword .ENDFOR →
      Recovers (word :: vs ++ first :: as ++ last :: os ++ size :: ss ++ bs ++ [closing])
        (.compound (.forLoop counter start stop step body)) ds
  | choice {cs bs os : List Token} {word closing : Token} {test : Condition} {body : Block}
      {others : List (Option Condition × Block)} {ds es : List Diagnostic} :
      word.isKeyword .IF → Derives cs (.condition test) → Recovers bs (.doBlock body) ds →
      Recovers os (.branches others) es → closing.isKeyword .ENDIF →
      Recovers (word :: cs ++ bs ++ os ++ [closing])
        (.compound (.choice ((some test, body) :: others))) (ds ++ es)
  | noBranch : Recovers [] (.branches []) []
  | lastBranch {bs : List Token} {word : Token} {body : Block} {ds : List Diagnostic} :
      word.isKeyword .OTHERWISE → Recovers bs (.doBlock body) ds →
      Recovers (word :: bs) (.branches [(none, body)]) ds
  | nextBranch {cs bs os : List Token} {word again : Token} {test : Condition} {body : Block}
      {others : List (Option Condition × Block)} {ds es : List Diagnostic} :
      word.isKeyword .OTHERWISE → again.isKeyword .IF → Derives cs (.condition test) →
      Recovers bs (.doBlock body) ds → Recovers os (.branches others) es →
      Recovers (word :: again :: cs ++ bs ++ os) (.branches ((some test, body) :: others))
        (ds ++ es)
  | switch {vs as : List Token} {word closing : Token} {subject : Variable}
      {arms : List (Literal × Block)} {ds : List Diagnostic} :
      word.isKeyword .SWITCH → Derives vs (.var subject) → Recovers as (.arms arms) ds →
      closing.isKeyword .ENDSWITCH →
      Recovers (word :: vs ++ as ++ [closing]) (.compound (.switch subject arms)) ds
  | noArm : Recovers [] (.arms []) []
  | nextArm {ls bs as : List Token} {word : Token} {label : Literal} {body : Block}
      {arms : List (Literal × Block)} {ds es : List Diagnostic} :
      word.isKeyword .WHEN → Derives ls (.literal label) → Recovers bs (.doBlock body) ds →
      Recovers as (.arms arms) es →
      Recovers (word :: ls ++ bs ++ as) (.arms ((label, body) :: arms)) (ds ++ es)

/-- What is recovered without a diagnostic is derived. The colon behind a simple statement is the
first of the items that follow it. -/
theorem Recovers.derives {ts : List Token} {phrase : Phrase} {ds : List Diagnostic}
    (h : Recovers ts phrase ds) (hds : ds = []) : Derives ts phrase := by
  induction h with
  | noItem => exact .noItem
  | colonItem hcolon _ ih => exact .colonItem hcolon (ih hds)
  | refusedItem hfound _ _ => exact absurd (List.append_eq_nil_iff.1 hds).1 hfound
  | @simpleItem us ts s ss found ds hus hcolon _ ih =>
    obtain ⟨hfound, hds⟩ := List.append_eq_nil_iff.1 hds
    obtain ⟨colon, hhead, hsign⟩ := hcolon hfound
    cases ts with
    | nil => cases hhead
    | cons t ts =>
      cases hhead
      exact .simpleItem hus hsign ((ih hds).items_of_colon hsign)
  | compoundItem _ _ ihs ih =>
    obtain ⟨hfound, hds⟩ := List.append_eq_nil_iff.1 hds
    exact .compoundItem (ihs hfound) (ih hds)
  | doBlock hopening _ hclosing ih =>
    cases hds
    exact .doBlock hopening (ih rfl) hclosing
  | whileLoop hword hcs _ hclosing ih => exact .whileLoop hword hcs (ih hds) hclosing
  | untilLoop hword _ hmiddle hcs hclosing ih =>
    exact .untilLoop hword (ih hds) hmiddle hcs hclosing
  | forLoop hword hvs hfirst has hlast hos hsize hss hzero _ hclosing ih =>
    exact .forLoop hword hvs hfirst has hlast hos hsize hss hzero (ih hds) hclosing
  | choice hword hcs _ _ hclosing ihbody ih =>
    obtain ⟨hbody, hothers⟩ := List.append_eq_nil_iff.1 hds
    exact .choice hword hcs (ihbody hbody) (ih hothers) hclosing
  | noBranch => exact .noBranch
  | lastBranch hword _ ih => exact .lastBranch hword (ih hds)
  | nextBranch hword hagain hcs _ _ ihbody ih =>
    obtain ⟨hbody, hothers⟩ := List.append_eq_nil_iff.1 hds
    exact .nextBranch hword hagain hcs (ihbody hbody) (ih hothers)
  | switch hword hvs _ hclosing ih => exact .switch hword hvs (ih hds) hclosing
  | noArm => exact .noArm
  | nextArm hword hls _ _ ihbody ih =>
    obtain ⟨hbody, hothers⟩ := List.append_eq_nil_iff.1 hds
    exact .nextArm hword hls (ihbody hbody) (ih hothers)

end Zed

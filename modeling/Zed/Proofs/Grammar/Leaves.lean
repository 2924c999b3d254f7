import Zed.Proofs.Grammar.Course
import Zed.Proofs.Program.Anatomy
import Zed.Token.Scan

/-!
# Where the leaves of a program come from

The leaves of a program that was read are among the variables, strings and numbers of its tokens, in
the same order and each of them once. Recovery may leave some out and nothing else. If there was
nothing to recover from, all of them are there (`Reading.leaves_sublist`).

`Draws ts leaves ds` is the invariant for one phrase. It is closed under putting runs of tokens
one behind the other, and keywords and symbols have no leaves, so each constructor of `Recovers`
is put together from these. Refused tokens come with a diagnostic, and that is the one place
where leaves get lost.
-/

set_option autoImplicit false

namespace Zed

/-! ## Leaves of tokens -/

namespace Token

/-- The token is a variable, a string or a number. -/
def isLeaf (t : Token) : Bool :=
  match t.kind with
  | .var _ => true
  | .text _ => true
  | .number _ => true
  | _ => false

/-- The leaf that a token stands for. A number without a finite value stands for none. -/
def leaf? (t : Token) : Option Term :=
  match t.kind with
  | .var name => some (.var ⟨name, t.position⟩)
  | .text body => some (.text body)
  | .number spelling => (Binary64.ofSpelling? spelling).map .number
  | _ => none

/-- What the variables, strings and numbers among the tokens stand for. -/
def leaves (ts : List Token) : List (Option Term) :=
  (ts.filter isLeaf).map leaf?

variable {t : Token} {ts us : List Token}

/-- The leaves of tokens in a row are those of the first ones and those of the others. -/
theorem leaves_append : leaves (ts ++ us) = leaves ts ++ leaves us := by
  simp [leaves]

theorem leaves_cons_keyword {word : Keyword} (h : t.isKeyword word = true) :
    leaves (t :: ts) = leaves ts := by
  simp [leaves, isLeaf, isKeyword_iff.1 h]

theorem leaves_cons_symbol {sign : Symbol} (h : t.isSymbol sign = true) :
    leaves (t :: ts) = leaves ts := by
  simp [leaves, isLeaf, isSymbol_iff.1 h]

/-- The name of a program is no leaf. -/
theorem leaves_cons_ident {name : String} (h : t.kind = .ident name) :
    leaves (t :: ts) = leaves ts := by
  simp [leaves, isLeaf, h]

end Token

/-! ## Leaves of phrases -/

def Phrase.leaves : Phrase → List Term
  | .var v => [.var v]
  | .number x => [.number x]
  | .literal label => [label.toTerm]
  | .term x => [x]
  | .sum xs => xs
  | .params xs => xs
  | .value v => v.leaves
  | .operand o => o.leaves
  | .condition c => c.leaves
  | .simple s => s.leaves
  | .compound s => s.leaves
  | .items ss => Statement.leavesOfAll ss
  | .doBlock body => body.leaves
  | .branches others => Statement.leavesOfBranches others
  | .arms others => Statement.leavesOfArms others
  | .program p => p.leaves

open Token in
/-- A phrase without a block has exactly the leaves of the tokens that it is derived from. -/
theorem Derives.leaves_eq {ts : List Token} {phrase : Phrase} (h : Derives ts phrase)
    (hplain : phrase.isPlain = true) : Token.leaves ts = phrase.leaves.map some := by
  induction h with
  | var hkind => simp [Token.leaves, isLeaf, leaf?, hkind, Phrase.leaves]
  | number hkind hvalue => simp [Token.leaves, isLeaf, leaf?, hkind, hvalue, Phrase.leaves]
  | textLiteral hkind =>
    simp [Token.leaves, isLeaf, leaf?, hkind, Phrase.leaves, Literal.toTerm]
  | textTerm hkind => simp [Token.leaves, isLeaf, leaf?, hkind, Phrase.leaves]
  | numberLiteral _ ih | varTerm _ ih | numberTerm _ ih | lastTerm _ ih | termOperand _ ih
  | conditionOperand _ ih | termValue _ ih => exact ih rfl
  | nextTerm _ hplus _ ih ihs =>
    rw [leaves_append, leaves_cons_symbol hplus, ih rfl, ihs rfl]
    rfl
  | noParams hopen hclose =>
    rw [leaves_cons_symbol hopen, leaves_cons_symbol hclose]
    rfl
  | someParams hopen _ hclose ih =>
    rw [List.cons_append, leaves_cons_symbol hopen, leaves_append,
      leaves_cons_symbol hclose, ih rfl]
    exact List.append_nil _
  | relation hsign _ _ ihl ihr =>
    rw [List.cons_append, leaves_cons_symbol hsign, leaves_append, ihl rfl, ihr rfl,
      ← List.map_append]
    rfl
  | negation hbang _ ih => exact (leaves_cons_symbol hbang).trans (ih rfl)
  | inputValue hword _ ih | output hword _ ih => exact (leaves_cons_keyword hword).trans (ih rfl)
  | assignment hsign _ _ ihv ih =>
    rw [List.cons_append, leaves_cons_symbol hsign, leaves_append, ihv rfl, ih rfl]
    rfl
  | update hsign _ _ hfinal ihv ih =>
    rw [leaves_append, List.cons_append, leaves_cons_symbol hsign, leaves_append,
      leaves_cons_symbol hfinal, ihv rfl, ih rfl]
    exact List.append_nil _
  | noItem | colonItem | simpleItem | compoundItem | doBlock | whileLoop | untilLoop | forLoop
  | choice | noBranch | lastBranch | nextBranch | switch | noArm | nextArm | program => cases hplain

/-! ## What is drawn from tokens -/

/-- The leaves are among those of the tokens, in their order. If there is no diagnostic they are
all of them. -/
structure Draws (ts : List Token) (leaves : List Term) (ds : List Diagnostic) : Prop where
  sublist : (leaves.map some).Sublist (Token.leaves ts)
  all : ds = [] → leaves.map some = Token.leaves ts

namespace Draws

variable {ts us : List Token} {t : Token} {xs ys : List Term} {ds es : List Diagnostic}

/-- All leaves among the tokens are drawn, whatever is reported. -/
theorem of_eq (h : Token.leaves ts = xs.map some) : Draws ts xs ds :=
  ⟨h ▸ List.Sublist.refl _, fun _ => h.symm⟩

theorem nil : Draws [] [] [] :=
  of_eq rfl

/-- Tokens that are refused are drawn from by nothing, which is reported. -/
theorem refused (h : ds ≠ []) : Draws ts [] ds :=
  ⟨List.nil_sublist _, fun hds => absurd hds h⟩

/-- What stands one behind the other is drawn from one after the other. -/
theorem append (h : Draws ts xs ds) (h' : Draws us ys es) :
    Draws (ts ++ us) (xs ++ ys) (ds ++ es) := by
  constructor
  · rw [List.map_append, Token.leaves_append]
    exact h.sublist.append h'.sublist
  · intro hds
    obtain ⟨hds, hes⟩ := List.append_eq_nil_iff.1 hds
    rw [List.map_append, Token.leaves_append, h.all hds, h'.all hes]

/-- A token in front that is no leaf changes nothing. -/
theorem cons (ht : Token.leaves (t :: ts) = Token.leaves ts) (h : Draws ts xs ds) :
    Draws (t :: ts) xs ds :=
  ⟨ht.symm ▸ h.sublist, fun hds => (h.all hds).trans ht.symm⟩

/-- A keyword in front adds no leaf. -/
theorem cons_keyword {word : Keyword} (ht : t.isKeyword word = true) (h : Draws ts xs ds) :
    Draws (t :: ts) xs ds :=
  h.cons (Token.leaves_cons_keyword ht)

/-- A symbol in front adds no leaf. -/
theorem cons_symbol {sign : Symbol} (ht : t.isSymbol sign = true) (h : Draws ts xs ds) :
    Draws (t :: ts) xs ds :=
  h.cons (Token.leaves_cons_symbol ht)

/-- A keyword behind adds no leaf. -/
theorem concat_keyword {word : Keyword} (h : Draws ts xs ds) (ht : t.isKeyword word = true) :
    Draws (ts ++ [t]) xs ds := by
  have hlast := h.append (nil.cons_keyword ht)
  rwa [List.append_nil, List.append_nil] at hlast

end Draws

/-- What is read with recovery draws from its tokens. -/
theorem Recovers.draws {ts : List Token} {phrase : Phrase} {ds : List Diagnostic}
    (h : Recovers ts phrase ds) : Draws ts phrase.leaves ds := by
  have hplain : ∀ {us phrase}, Derives us phrase → phrase.isPlain = true →
      Draws us phrase.leaves [] := fun h hplain => .of_eq (h.leaves_eq hplain)
  induction h with
  | noItem | noBranch | noArm => exact .nil
  | colonItem hcolon _ ih => exact ih.cons_symbol hcolon
  | refusedItem hfound _ ih => exact (Draws.refused hfound).append ih
  | simpleItem hsimple _ _ ih =>
    exact (Draws.of_eq (hsimple.leaves_eq rfl)).append ih
  | compoundItem _ _ ihs ih => exact ihs.append ih
  | doBlock hopening _ hclosing ih => exact (ih.cons_keyword hopening).concat_keyword hclosing
  | whileLoop hword htest _ hclosing ih =>
    have hbody := ((hplain htest rfl).cons_keyword hword).append ih
    exact hbody.concat_keyword hclosing
  | untilLoop hword _ hmiddle htest hclosing ih =>
    have hrest := (hplain htest rfl).cons_keyword hmiddle
    have hloop := (ih.cons_keyword hword).append hrest
    rw [List.append_nil] at hloop
    exact hloop.concat_keyword hclosing
  | forLoop hword hcounter hfirst hstart hlast hstop hsize hstep _ _ hclosing ih =>
    have hcounter := (hplain hcounter rfl).cons_keyword hword
    have hstart := hcounter.append ((hplain hstart rfl).cons_keyword hfirst)
    have hstop := hstart.append ((hplain hstop rfl).cons_keyword hlast)
    have hstep := hstop.append ((hplain hstep rfl).cons_keyword hsize)
    exact (hstep.append ih).concat_keyword hclosing
  | choice hword htest _ _ hclosing ihbody ih =>
    have hfirst := ((hplain htest rfl).cons_keyword hword).append ihbody
    exact (hfirst.append ih).concat_keyword hclosing
  | @lastBranch bs word body ds hword _ ih =>
    have hbranch : (Phrase.branches [(none, body)]).leaves = body.leaves := List.append_nil _
    rw [hbranch]
    exact ih.cons_keyword hword
  | nextBranch hword hagain htest _ _ ihbody ih =>
    have htest := ((hplain htest rfl).cons_keyword hagain).cons_keyword hword
    exact (htest.append ihbody).append ih
  | switch hword hsubject _ hclosing ih =>
    have hsubject := (hplain hsubject rfl).cons_keyword hword
    exact (hsubject.append ih).concat_keyword hclosing
  | nextArm hword hlabel _ _ ihbody ih =>
    have hlabel := (hplain hlabel rfl).cons_keyword hword
    exact (hlabel.append ihbody).append ih

/-! ## Programs -/

/-- A program draws from the tokens that it was read from. Behind its end nothing is drawn, and the
first token there is reported. -/
theorem Reading.draws {ts : List Token} {p : Program} (h : (ofTokens ts).program = some p) :
    Draws ts p.leaves (ofTokens ts).diagnostics := by
  obtain ⟨opening, title, us, closing, rest, rfl, hopening, htitle, hus, hclosing, hds⟩ :=
    recovers_of_program_eq_some h
  have hrest : Draws rest [] (trailing rest) := by
    cases rest with
    | nil => exact .nil
    | cons t rest => exact .refused (List.cons_ne_nil _ _)
  have hbody := (hus.draws.cons (Token.leaves_cons_ident htitle)).cons_keyword hopening
  have hall := hbody.append (hrest.cons_keyword hclosing)
  obtain ⟨name, ⟨ss, ds⟩⟩ := p
  rw [hds]
  rwa [List.append_nil] at hall

/-- The leaves of a program that was read are a part of the variables, strings and numbers of the
tokens, in their order. If nothing is reported they are all of them. -/
theorem Reading.leaves_sublist {ts : List Token} {p : Program}
    (h : (ofTokens ts).program = some p) :
    (p.leaves.map some).Sublist (Token.leaves ts) ∧
      ((ofTokens ts).diagnostics = [] → p.leaves.map some = Token.leaves ts) :=
  ⟨(draws h).sublist, (draws h).all⟩

/-- Statements that fail inside a loop and inside both branches of a choice, a loop that is closed
by the wrong word, and a token after the end. -/
def faultySource : String :=
  String.join ["PROG wreck REPEAT DO ", "= A \"a\": ", "OUT[A \"lost\"]: ", "IF == B \"b\" DO ",
    "= A C + D: ", "OUT[C]: ENDDO ", "OTHERWISE DO ", "= D IN[\"d\" + 2e]: ", "ENDDO ENDIF ENDDO ",
    "UNTIL > A B ", "ENDREPEAT ", "WHEN > A B DO ", "OUT[E]: ENDDO ", "ENDFOR ENDPROG F"]

/-- A program without a fault, with leaves of every kind. -/
def faultlessSource : String :=
  String.join ["PROG sound FOR X ", "FROM 1 TO 3 BY 2 DO ", "SWITCH X WHEN 3 DO ",
    "= Y IN[X + \"?\"] +: ", "ENDDO WHEN \"3\" DO ", "REPEAT DO OUT[]: ", "ENDDO UNTIL ! == X Y ",
    "ENDREPEAT ENDDO ", "ENDSWITCH ENDDO ", "ENDFOR ENDPROG"]

theorem faultySource_leaves :
    let faulty := Token.ofSource faultySource
    let whole := Token.ofSource faultlessSource
    (∃ p, (Reading.ofTokens faulty).program = some p ∧
      (Reading.ofTokens faulty).diagnostics.length = 7 ∧
      p.leaves = [.var ⟨"A", ⟨1, 23⟩⟩, .text "a", .var ⟨"B", ⟨1, 51⟩⟩, .text "b",
        .var ⟨"A", ⟨1, 62⟩⟩, .var ⟨"C", ⟨1, 64⟩⟩, .var ⟨"C", ⟨1, 75⟩⟩, .var ⟨"A", ⟨1, 142⟩⟩,
        .var ⟨"B", ⟨1, 144⟩⟩] ∧
      (Token.leaves faulty).length = 18 ∧ (p.leaves.map some).Sublist (Token.leaves faulty)) ∧
    ∃ p, (Reading.ofTokens whole).program = some p ∧ (Reading.ofTokens whole).diagnostics = [] ∧
      p.leaves.length = 12 ∧ p.leaves.map some = Token.leaves whole := by
  intro faulty whole
  have hfaulty : (Reading.ofTokens faulty).diagnostics.length = 7 ∧
      (Token.leaves faulty).length = 18 ∧
      (Reading.ofTokens faulty).program.map Program.leaves
        = some [.var ⟨"A", ⟨1, 23⟩⟩, .text "a", .var ⟨"B", ⟨1, 51⟩⟩, .text "b", .var ⟨"A", ⟨1, 62⟩⟩,
          .var ⟨"C", ⟨1, 64⟩⟩, .var ⟨"C", ⟨1, 75⟩⟩, .var ⟨"A", ⟨1, 142⟩⟩,
          .var ⟨"B", ⟨1, 144⟩⟩] := by
    rw [show faulty = _ from Token.ofSource_join _]
    decide +kernel
  have hwhole : (Reading.ofTokens whole).diagnostics = [] ∧
      (Reading.ofTokens whole).program.map (fun p => p.leaves.length) = some 12 := by
    rw [show whole = _ from Token.ofSource_join _]
    decide +kernel
  obtain ⟨p, hp, hleaves⟩ := Option.map_eq_some_iff.1 hfaulty.2.2
  obtain ⟨q, hq, hcount⟩ := Option.map_eq_some_iff.1 hwhole.2
  exact ⟨⟨p, hp, hfaulty.1, hleaves, hfaulty.2.1, (Reading.leaves_sublist hp).1⟩,
    q, hq, hwhole.1, hcount, (Reading.leaves_sublist hq).2 hwhole.1⟩

end Zed

import Zed.Proofs.Script.Expression

/-!
# Lines of a script read back

Every line that a script writes for a well-formed program is read as the command or the head of a
suite that it was written for. `LineSays text l` also says what the layout needs to know: the text
has no line break and does not begin with a space, so that it stays one line and keeps its column.
-/

set_option autoImplicit false

namespace Zed.Python

/-! ## Lines in general -/

/-- The text begins with a character other than a space. -/
def Unindented (text : String) : Prop :=
  ∃ c cs, text.toList = c :: cs ∧ c ≠ ' '

theorem Unindented.append {a : String} (h : Unindented a) (b : String) : Unindented (a ++ b) := by
  obtain ⟨c, cs, hchars, hc⟩ := h
  exact ⟨c, cs ++ b.toList, by rw [String.toList_append, hchars, List.cons_append], hc⟩

/-- A word starts without a blank. -/
theorem IsWord.unindented {word : String} (h : IsWord word) : Unindented word := by
  obtain ⟨c, cs, hchars, hc, _⟩ := h
  exact ⟨c, cs, hchars, ne_space_of_isIdentChar hc⟩

/-- The text is one line, which says what is given. -/
structure LineSays (text : String) (l : Line) : Prop where
  flat : '\n' ∉ text.toList
  unindented : Unindented text
  read : line (tokens text.toList) = some l

/-- A name and the sign of an assignment are the beginning of one, unless the name is reserved. -/
theorem line_assign {x : String} (ts : List Tok) (hx : Script.reservedWords.contains x = false) :
    line (.name x :: .sign .assign :: ts) = (exprTo [] ts).map fun e => .simple (.assign x e) := by
  have hif : x ≠ "if" := ne_of_unreserved hx (by decide)
  have helif : x ≠ "elif" := ne_of_unreserved hx (by decide)
  have hwhile : x ≠ "while" := ne_of_unreserved hx (by decide)
  rw [line] <;> simp_all

/-- A name, a sign and an expression say an assignment. -/
theorem LineSays.assign {x text : String} {e : Expr} (hx : Variable.isName x = true)
    (h : Says text 6 e) :
    LineSays (x ++ " = " ++ text) (.simple (.assign x e)) := by
  obtain ⟨hflat, ts, hspells, hphrase⟩ := h
  have hword := Variable.isWord_of_isName hx
  have hequals : Cuts " = " [.sign .assign] := fun _ => rfl
  refine ⟨flat_append (flat_append hword.flat (by decide)) hflat,
    (hword.unindented.append _).append _, ?_⟩
  have hread : exprTo [] ts = some e := by
    have h := hphrase.exprTo_eq [] (.nil 6)
    rwa [List.append_nil] at h
  rw [((hword.spells.append_cuts hequals rfl).append_spells hspells).tokens_eq]
  show line (.name x :: .sign .assign :: ts) = _
  rw [line_assign _ (Variable.unreserved_of_isName hx), hread]
  rfl

theorem line_if (ts : List Tok) :
    line (.name "if" :: ts) = (exprTo [.sign .colon] ts).map fun e => .head (.ifTest e) := by
  simp [line]

theorem line_elif (ts : List Tok) :
    line (.name "elif" :: ts) = (exprTo [.sign .colon] ts).map fun e => .head (.elifTest e) := by
  simp [line]

theorem line_while (ts : List Tok) :
    line (.name "while" :: ts) = (exprTo [.sign .colon] ts).map fun e => .head (.whileTest e) := by
  simp [line]

theorem line_print (ts : List Tok) : line (.name "print" :: .sign .open :: ts)
    = (printArguments ts.length ts).map fun r => .simple (.print r.1 r.2) := by
  simp [line]

/-- A head that consists of a word and a test. -/
theorem Says.test {opening word text : String} {e : Expr} {head : Expr → Head} (h : Says text 6 e)
    (hline : ∀ ts, line (.name word :: ts) = (exprTo [.sign .colon] ts).map fun e => .head (head e))
    (hopening : Cuts opening [.name word]) (hflat : '\n' ∉ opening.toList)
    (hstart : Unindented opening) :
    LineSays (opening ++ text ++ ":") (.head (head e)) := by
  obtain ⟨htext, ts, hspells, hphrase⟩ := h
  refine ⟨flat_append (flat_append hflat htext) (by decide), (hstart.append _).append _, ?_⟩
  rw [((hopening.append_spells hspells).append_cuts cuts_colon rfl).tokens_eq, List.append_assoc,
    List.singleton_append, hline, hphrase.exprTo_eq _ (.cons 6 [] (by decide) rfl)]
  rfl

theorem LineSays.ifTest {text : String} {e : Expr} (h : Says text 6 e) :
    LineSays ("if " ++ text ++ ":") (.head (.ifTest e)) :=
  h.test line_if (fun _ => rfl) (by decide) ⟨_, _, rfl, by decide⟩

theorem LineSays.elifTest {text : String} {e : Expr} (h : Says text 6 e) :
    LineSays ("elif " ++ text ++ ":") (.head (.elifTest e)) :=
  h.test line_elif (fun _ => rfl) (by decide) ⟨_, _, rfl, by decide⟩

theorem LineSays.whileTest {text : String} {e : Expr} (h : Says text 6 e) :
    LineSays ("while " ++ text ++ ":") (.head (.whileTest e)) :=
  h.test line_while (fun _ => rfl) (by decide) ⟨_, _, rfl, by decide⟩

/-- A loop over a range, up to its colon. -/
theorem line_forRange {x : String} {es : List Expr} {ts : List Tok}
    (h : Phrase (.arguments es) ts) :
    line (.name "for" :: .name x :: .name "in" :: .name "range" :: .sign .open
      :: (ts ++ [.sign .colon]))
      = some (.head (.forRange x es)) := by
  have hread := h.found _ _ [.sign .colon] (Nat.lt_succ_self _) (Nat.le_refl _)
  rw [line, hread]

/-- A loop over a range, where all between the variable and the arguments is a fixed piece. -/
theorem LineSays.forRange {opening text x : String} {es : List Expr} (h : SaysArguments text es)
    (hopening : Cuts opening [.name "for", .name x, .name "in", .name "range", .sign .open])
    (hflat : '\n' ∉ opening.toList) (hstart : Unindented opening) :
    LineSays (opening ++ text ++ ":") (.head (.forRange x es)) := by
  obtain ⟨hflats, ts, hcuts, hphrase⟩ := h
  refine ⟨flat_append (flat_append hflat hflats) (by decide), (hstart.append _).append _, ?_⟩
  rw [((hopening.append hcuts).append cuts_colon).tokens_eq, List.append_assoc]
  exact line_forRange hphrase

end Zed.Python

namespace Zed.Script

open Python

variable {x : String}

/-! ## Commands -/

/-- The line of an assignment says it. -/
theorem Command.says_assign {v : Value} (hx : Variable.isName x = true)
    (hv : v.WellFormed .source) :
    LineSays (Command.text (.assign x v)) (.simple (.assign x v.toExpr)) :=
  .assign hx ((Value.says_toExpr hv).loosen 6)

/-- The name of an operator, as the last argument of an update. -/
theorem says_operator (operator : Arithmetic) :
    Says ("'" ++ operator.symbol.spelling ++ "'") 0 (.text operator.symbol.spelling) := by
  refine ⟨?_, [.text operator.symbol.spelling], ?_, .text _⟩
  · cases operator <;> decide
  · cases operator <;> exact fun _ _ => rfl

/-- The line of an assignment with an operator says a call of the helper. -/
theorem Command.says_update {v : Value} (operator : Arithmetic) (hx : Variable.isName x = true)
    (hv : v.WellFormed .source) :
    LineSays (Command.text (.update x v operator)) (.simple (.assign x
      (.call "zedAssign" [.name x, v.toExpr, .text operator.symbol.spelling]))) := by
  have harguments := SaysArguments.more ((Variable.says_name hx).loosen 6)
    (.more ((Value.says_toExpr hv).loosen 6) (.last ((says_operator operator).loosen 6)))
  have hcall : Says ("zedAssign(" ++ _) 0 (.call "zedAssign" _) :=
    harguments.call (by decide) (fun _ => rfl) (by decide)
  have hline := LineSays.assign hx (hcall.loosen 6)
  have htext : Command.text (.update x v operator) = x ++ " = " ++ ("zedAssign(" ++ (x ++ ", "
      ++ (value v ++ ", " ++ ("'" ++ operator.symbol.spelling ++ "'" ++ ")")))) := by
    apply String.toList_inj.1
    simp [Command.text]
  rw [htext]
  exact hline

/-- The counter of a pass is put together from the number of the pass. -/
theorem Command.says_place {start step : Binary64} (hx : Variable.isName x = true)
    (hstart : start.IsUnsigned) (hstep : step.IsUnsigned) :
    LineSays (placement x start step).text (.simple (.assign x (placedExpr start step))) := by
  have hnumber : Says passNumber 0 (.name passNumber) := by
    have hword : IsWord passNumber := ⟨_, _, rfl, by decide, by decide⟩
    exact ⟨hword.flat, _, hword.spells, .name (by decide)⟩
  have hsum := ((says_number hstart).loosen 2).sum ((hnumber.loosen 1).product (says_number hstep))
  have harguments := SaysArguments.more (hsum.loosen 4)
    (.last ((says_repr (max (places start) (places step))).loosen 6))
  have hcall : Says ("round(" ++ _) 0 (.call "round" _) :=
    harguments.call (by decide) (fun _ => rfl) (by decide)
  have hline := LineSays.assign hx (hcall.loosen 6)
  have htext : (placement x start step).text = x ++ " = " ++ ("round(" ++ (number start ++ " + "
      ++ (passNumber ++ " * " ++ number step) ++ ", "
      ++ ((max (places start) (places step)).repr ++ ")"))) := by
    apply String.toList_inj.1
    simp [placement, Command.text, passNumber]
  rw [htext]
  exact hline

/-- The arguments of a printing command are read in order, and then the empty separator. -/
theorem printArguments_eq {ts : List Term} (h : ∀ t ∈ ts, t.WellFormed .source) :
    ∃ us, Cuts (Script.printArguments ts ++ ")") us ∧
      ∀ fuel, us.length ≤ fuel → Python.printArguments fuel us = some (ts.map Term.toExpr, "") := by
  induction ts with
  | nil =>
    refine ⟨[.name "sep", .sign .assign, .text "", .sign .close], fun _ => rfl,
      fun fuel hfuel => ?_⟩
    obtain ⟨fuel, rfl⟩ : ∃ k, fuel = k + 1 := ⟨fuel - 1, by simp at hfuel; omega⟩
    rfl
  | cons t ts ih =>
    obtain ⟨us, hcuts, hread⟩ := ih fun u hu => h u (List.mem_cons_of_mem _ hu)
    obtain ⟨_, vs, hspells, hphrase⟩ := Term.says_toExpr (h t (List.mem_cons_self ..))
    refine ⟨vs ++ .sign .comma :: us, ?_, fun fuel hfuel => ?_⟩
    · have hall := (hspells.append_cuts cuts_comma rfl).append hcuts
      rw [List.append_assoc] at hall
      simpa only [Script.printArguments, String.append_assoc, List.singleton_append] using hall
    · rw [List.length_append, List.length_cons] at hfuel
      obtain ⟨fuel, rfl⟩ : ∃ k, fuel = k + 1 := ⟨fuel - 1, by omega⟩
      have hfirst := (hphrase.loosen 6).found.1.expr_eq (Nat.lt_succ_self _)
        (Stops.cons 6 us (show Tok.sign .comma ≠ .sign .open by decide) rfl)
      rw [Python.printArguments, hfirst]
      simp only [hread fuel (by omega), Option.map_some, List.map_cons]

/-- The arguments of a print are on one line. -/
theorem flat_printArguments {ts : List Term} (h : ∀ t ∈ ts, t.WellFormed .source) :
    '\n' ∉ (Script.printArguments ts).toList := by
  induction ts with
  | nil => decide
  | cons t ts ih =>
    have hfirst := (Term.says_toExpr (h t (List.mem_cons_self ..))).flat
    exact flat_append (flat_append hfirst (by decide))
      (ih fun u hu => h u (List.mem_cons_of_mem _ hu))

/-- The line of an output says a print without a separator. -/
theorem Command.says_print {ts : List Term} (h : ∀ t ∈ ts, t.WellFormed .source) :
    LineSays (Command.text (.print ts)) (.simple (.print (ts.map Term.toExpr) "")) := by
  obtain ⟨us, hcuts, hread⟩ := printArguments_eq h
  have hopening : Cuts "print(" [.name "print", .sign .open] := fun _ => rfl
  have hstart : Unindented "print(" := ⟨_, _, rfl, by decide⟩
  refine ⟨flat_append (flat_append (by decide) (flat_printArguments h)) (by decide),
    (hstart.append _).append _, ?_⟩
  rw [Command.text, String.append_assoc, (hopening.append hcuts).tokens_eq]
  show line (.name "print" :: .sign .open :: us) = _
  rw [line_print, hread us.length (Nat.le_refl _)]
  rfl

theorem Command.says_pass : LineSays (Command.text .pass) (.simple .pass) :=
  ⟨by decide, ⟨_, _, rfl, by decide⟩, rfl⟩

theorem Command.says_leave : LineSays (Command.text .leave) (.simple .leave) :=
  ⟨by decide, ⟨_, _, rfl, by decide⟩, rfl⟩

/-! ## Headers -/

/-- The head of a loop says its test. -/
theorem Header.says_whileTest {test : Condition} (h : test.WellFormed .source) :
    LineSays (Header.text (.whileTest test)) (.head (.whileTest test.toExpr)) :=
  .whileTest ((Condition.says_toExpr h).loosen 6)

/-- The head of an endless loop says a test that always holds. -/
theorem Header.says_forever :
    LineSays (Header.text .forever) (.head (.whileTest (.constant true))) := by
  have hword : IsWord "True" := ⟨_, _, rfl, by decide, by decide⟩
  exact .whileTest ⟨hword.flat, _, hword.spells, Phrase.true.loosen 6⟩

theorem Header.says_ifTest {test : Condition} (h : test.WellFormed .source) :
    LineSays (Header.text (.ifTest test)) (.head (.ifTest test.toExpr)) :=
  .ifTest ((Condition.says_toExpr h).loosen 6)

theorem Header.says_elifTest {test : Condition} (h : test.WellFormed .source) :
    LineSays (Header.text (.elifTest test)) (.head (.elifTest test.toExpr)) :=
  .elifTest ((Condition.says_toExpr h).loosen 6)

/-- The test of an arm. -/
theorem says_equal {label : Literal} (hx : Variable.isName x = true)
    (h : label.WellFormed .source) :
    Says (x ++ (" == " ++ literal label)) 6 (.binary (.compare .equal) (.name x) label.toExpr) := by
  have htext : x ++ (" == " ++ literal label) = x ++ " " ++ "==" ++ " " ++ literal label := by
    apply String.toList_inj.1
    simp
  have hequal : Spells "==" [.sign .equal] := fun _ _ => rfl
  rw [htext]
  exact (Variable.says_name hx).binary (Literal.says_toExpr h) hequal (by decide) rfl

/-- The head of the first arm of a switch says a comparison with the subject. -/
theorem Header.says_ifEqual {label : Literal} (hx : Variable.isName x = true)
    (h : label.WellFormed .source) :
    LineSays (Header.text (.ifEqual x label))
      (.head (.ifTest (.binary (.compare .equal) (.name x) label.toExpr))) := by
  have htext : Header.text (.ifEqual x label)
      = "if " ++ (x ++ (" == " ++ literal label)) ++ ":" := by
    show "if " ++ x ++ " == " ++ literal label ++ ":" = _
    simp only [String.append_assoc]
  rw [htext]
  exact .ifTest (says_equal hx h)

/-- The head of a further arm says a comparison with the subject. -/
theorem Header.says_elifEqual {label : Literal} (hx : Variable.isName x = true)
    (h : label.WellFormed .source) : LineSays (Header.text (.elifEqual x label))
      (.head (.elifTest (.binary (.compare .equal) (.name x) label.toExpr))) := by
  have htext : Header.text (.elifEqual x label) = "elif "
      ++ (x ++ (" == " ++ literal label)) ++ ":" := by
    show "elif " ++ x ++ " == " ++ literal label ++ ":" = _
    simp only [String.append_assoc]
  rw [htext]
  exact .elifTest (says_equal hx h)

theorem Header.says_otherwise : LineSays (Header.text .otherwise) (.head .otherwise) :=
  ⟨by decide, ⟨_, _, rfl, by decide⟩, rfl⟩

/-- The head of a loop in whole numbers says a range that includes its end. -/
theorem Header.says_forRange {start stop step : Binary64} (hx : Variable.isName x = true)
    (hstart : start.IsUnsigned) (hstop : stop.IsUnsigned) (hstep : step.IsUnsigned) :
    LineSays (Header.text (.forRange x start stop step)) (.head (.forRange x
      [numberExpr start, .binary .add (numberExpr stop) (.int 1), numberExpr step])) := by
  have hword := Variable.isWord_of_isName hx
  have hone : Says "1" 0 (.int 1) := says_digits rfl
  have hlimit := ((says_number hstop).loosen 2).sum (hone.loosen 1)
  have harguments := SaysArguments.more ((says_number hstart).loosen 6)
    (.more (hlimit.loosen 4) (.last ((says_number hstep).loosen 6)))
  have hfor : Cuts "for " [.name "for"] := fun _ => rfl
  have hrange : Cuts " in range(" [.name "in", .name "range", .sign .open] := fun _ => rfl
  have hstart : Unindented "for " := ⟨_, _, rfl, by decide⟩
  have hline :=
    LineSays.forRange harguments ((hfor.append_spells hword.spells).append_cuts hrange rfl)
    (flat_append (flat_append (by decide) hword.flat) (by decide)) ((hstart.append _).append _)
  have htext : Header.text (.forRange x start stop step) = "for " ++ x ++ " in range("
      ++ (number start ++ ", " ++ (number stop ++ " + " ++ "1" ++ ", " ++ (number step ++ ")")))
      ++ ":" := by
    apply String.toList_inj.1
    show ("for " ++ x ++ " in range(" ++ number start ++ ", " ++ number stop ++ " + 1, "
      ++ number step ++ "):").toList = _
    simp
  rw [htext]
  exact hline

/-- The head of any other counting loop says a range over the numbers of its passes. -/
theorem Header.says_forPasses (count : Nat) :
    LineSays (Header.text (.forPasses count)) (.head (.forRange passNumber [.int count])) := by
  have hline : LineSays ("for _n in range(" ++ (count.repr ++ ")") ++ ":")
      (.head (.forRange passNumber [.int count])) :=
    .forRange (.last ((says_repr count).loosen 6)) (fun _ => rfl) (by decide)
      ⟨_, _, rfl, by decide⟩
  have htext : Header.text (.forPasses count) = "for _n in range("
      ++ (count.repr ++ ")") ++ ":" := by
    apply String.toList_inj.1
    show ("for _n in range(" ++ count.repr ++ "):").toList = _
    simp
  rw [htext]
  exact hline

end Zed.Script

import Zed.Proofs.Meaning.Translation
import Zed.Proofs.Number.Spelling
import Zed.Proofs.Python.Phrase

/-!
# Expressions of a script read back

What a script writes for a term, a condition or a value is an expression of Python, and the one that
`Zed.Proofs.Meaning.Translation` gives. `Says text level e` states this for any text, together with
what the lines of a script need to know about it.

The texts are put together from fixed pieces and from the texts of smaller things. A fixed piece is
cut into its tokens by computation, whatever follows it (`Cuts`). The last token of any other text
could run on into what follows, so it has to stand before a delimiter (`Spells`).
-/

set_option autoImplicit false

namespace Zed.Python

/-! ## Tokens of composed texts -/

/-- The text is cut into the tokens, whatever follows it. -/
def Cuts (text : String) (ts : List Tok) : Prop :=
  ∀ rest, tokens (text.toList ++ rest) = ts ++ tokens rest

/-- The text is cut into the tokens before a delimiter. -/
def Spells (text : String) (ts : List Tok) : Prop :=
  ∀ rest, Delimited rest → tokens (text.toList ++ rest) = ts ++ tokens rest

/-- The text begins with a delimiter. -/
def Separates (text : String) : Prop :=
  text.toList.head?.any isDelimiter = true

variable {a b : String} {ts us : List Tok}

theorem Cuts.spells (h : Cuts a ts) : Spells a ts :=
  fun rest _ => h rest

theorem Cuts.tokens_eq (h : Cuts a ts) : tokens a.toList = ts := by
  have htokens := h []
  simpa using htokens

theorem Spells.tokens_eq (h : Spells a ts) : tokens a.toList = ts := by
  have htokens := h [] .nil
  simpa using htokens

/-- Two texts are cut apart where they meet, if the first one is over there in any case. -/
theorem Cuts.append (ha : Cuts a ts) (hb : Cuts b us) : Cuts (a ++ b) (ts ++ us) := by
  intro rest
  rw [String.toList_append, List.append_assoc, ha, hb, List.append_assoc]

/-- A text that is over in any case can be followed by one that needs a delimiter. -/
theorem Cuts.append_spells (ha : Cuts a ts) (hb : Spells b us) : Spells (a ++ b) (ts ++ us) := by
  intro rest hrest
  rw [String.toList_append, List.append_assoc, ha, hb rest hrest, List.append_assoc]

/-- What starts with a delimiter delimits what stands in front of it. -/
theorem Separates.delimited (h : Separates a) (rest : List Char) :
    Delimited (a.toList ++ rest) := by
  unfold Separates at h
  cases hchars : a.toList with
  | nil =>
    rw [hchars] at h
    cases h
  | cons c cs =>
    rw [hchars] at h
    exact .cons _ h

/-- A text that needs a delimiter can be followed by one that starts with it. -/
theorem Spells.append_cuts (ha : Spells a ts) (hb : Cuts b us) (hsep : Separates b) :
    Cuts (a ++ b) (ts ++ us) := by
  intro rest
  rw [String.toList_append, List.append_assoc, ha _ (hsep.delimited rest), hb, List.append_assoc]

theorem cuts_space : Cuts " " [] := fun _ => rfl

theorem cuts_open : Cuts "(" [.sign .open] := fun _ => rfl

theorem cuts_close : Cuts ")" [.sign .close] := fun _ => rfl

theorem cuts_comma : Cuts ", " [.sign .comma] := fun _ => rfl

theorem cuts_colon : Cuts ":" [.sign .colon] := fun _ => rfl

/-! ## Texts of expressions -/

/-- The text stands on one line and is an expression of the level. -/
structure Says (text : String) (level : Nat) (e : Expr) : Prop where
  flat : '\n' ∉ text.toList
  phrase : ∃ ts, Spells text ts ∧ Phrase (.expr level e) ts

/-- Two texts without a line break. -/
theorem flat_append (ha : '\n' ∉ a.toList) (hb : '\n' ∉ b.toList) : '\n' ∉ (a ++ b).toList := by
  rw [String.toList_append, List.mem_append, not_or]
  exact ⟨ha, hb⟩

/-- An expression may stand where one that binds more loosely may. -/
theorem Says.loosen {text : String} {level : Nat} {e : Expr} (h : Says text level e) (more : Nat) :
    Says text (level + more) e := by
  obtain ⟨hflat, ts, hspells, hphrase⟩ := h
  exact ⟨hflat, ts, hspells, hphrase.loosen more⟩

/-! ### Words -/

/-- A letter or an underscore, and letters, underscores and digits after it. -/
def IsWord (word : String) : Prop :=
  ∃ c cs, word.toList = c :: cs ∧ Lexeme.isIdentChar c = true ∧ cs.all Lexeme.isWordChar = true

/-- A word is one token. -/
theorem IsWord.spells {word : String} (h : IsWord word) : Spells word [.name word] := by
  intro rest hrest
  obtain ⟨c, cs, hchars, hc, hcs⟩ := h
  rw [hchars, tokens_word hc hcs hrest, ← hchars, String.ofList_toList]
  rfl

/-- A word has no line break in it. -/
theorem IsWord.flat {word : String} (h : IsWord word) : '\n' ∉ word.toList := by
  obtain ⟨c, cs, hchars, hc, hcs⟩ := h
  rw [hchars, List.mem_cons, not_or]
  constructor
  · rintro rfl
    exact absurd hc (by decide)
  · intro hmem
    exact absurd (List.all_eq_true.1 hcs _ hmem) (by decide)

/-! ### Numbers -/

theorem flat_of_isDigit {cs : List Char} (h : ∀ c ∈ cs, c.isDigit = true) : '\n' ∉ cs := by
  intro hmem
  exact absurd (h _ hmem) (by decide)

/-- The digits of a natural number are an integer. -/
theorem says_digits {text : String} {n : Nat} (h : text.toList = Nat.toDigits 10 n) :
    Says text 0 (.int n) := by
  refine ⟨?_, [.int n], ?_, .int n⟩
  · rw [h]
    exact flat_of_isDigit Binary64.isDigit_toDigits
  · intro rest hrest
    obtain ⟨c, cs, hdigits⟩ := List.exists_cons_of_ne_nil (Nat.toDigits_ne_nil (n := n) (b := 10))
    have hall : (c :: cs).all Char.isDigit = true := by
      rw [← hdigits]
      exact List.all_eq_true.2 Binary64.isDigit_toDigits
    rw [h, hdigits, tokens_digits hall hrest, ← hdigits, Nat.ofDigitChars_ten_toDigits]
    rfl

/-- The digits of a natural number say this number. -/
theorem says_repr (n : Nat) : Says n.repr 0 (.int n) :=
  says_digits Nat.toList_repr

/-- The digits of a number with a fraction are a floating-point number. -/
theorem says_fraction {text : String} {rank : Fin Binary64.rankCount}
    (h : text.toList = Binary64.positional (Binary64.shortest rank).1 (Binary64.shortest rank).2)
    (hfraction : Binary64.units rank % Binary64.unitsPerOne ≠ 0) :
    Says text 0 (.float (.finite false rank)) := by
  have hplaces := Binary64.shortest_places_pos hfraction
  have hvalue := Binary64.toBinary64_positional false hfraction
  rw [Binary64.positional_of_pos hplaces] at h
  generalize (Binary64.shortest rank).1 = coefficient at h hvalue
  generalize (Binary64.shortest rank).2 = places at h hvalue hplaces
  refine ⟨?_, [.float (.finite false rank)], ?_, .float _⟩
  · rw [h, List.mem_append, List.mem_cons, not_or, not_or]
    exact ⟨flat_of_isDigit Binary64.isDigit_toDigits, by decide,
      flat_of_isDigit Binary64.isDigit_fractionDigits⟩
  · intro rest hrest
    have hwhole : ∀ c ∈ Nat.toDigits 10 (coefficient / Nat.pow 10 places), c.isDigit = true :=
      Binary64.isDigit_toDigits
    have hplace : ∀ c ∈ Binary64.fractionDigits coefficient places, c.isDigit = true :=
      Binary64.isDigit_fractionDigits
    have hread := Decimal.ofChars?_point Nat.toDigits_ne_nil hwhole hplace
    rw [Binary64.length_fractionDigits hplaces] at hread
    obtain ⟨c, cs, hdigits⟩ := List.exists_cons_of_ne_nil
      (Nat.toDigits_ne_nil (n := coefficient / Nat.pow 10 places) (b := 10))
    rw [hdigits] at h hread hwhole hvalue
    rw [h, tokens_point (List.all_eq_true.2 hwhole) (List.all_eq_true.2 hplace) hread hrest, hvalue]
    rfl

/-- A number is an integer or a floating-point number, as the script means it. -/
theorem says_number {x : Binary64} (hx : x.IsUnsigned) :
    Says (Script.number x) 0 (numberExpr x) := by
  obtain ⟨rank, rfl⟩ := hx
  have hchars : (Script.number (.finite false rank)).toList
      = Binary64.positional (Binary64.shortest rank).1 (Binary64.shortest rank).2 := by
    simp [Script.number, Script.sign]
  by_cases hwhole : Binary64.units rank % Binary64.unitsPerOne = 0
  · rw [numberExpr, if_pos (by simpa [Binary64.isWhole] using hwhole)]
    rw [Binary64.shortest_of_whole hwhole] at hchars
    refine says_digits (hchars.trans ?_)
    simp [Binary64.positional, Primitives.wholePart]
  · rw [numberExpr, if_neg (by simpa [Binary64.isWhole] using hwhole)]
    exact says_fraction hchars hwhole

/-! ### Strings -/

theorem flat_escaped {body : List Char} (h : '\n' ∉ body) : '\n' ∉ body.flatMap Script.escaped := by
  intro hmem
  obtain ⟨c, hc, hescaped⟩ := List.mem_flatMap.1 hmem
  unfold Script.escaped at hescaped
  split at hescaped
  · exact absurd hescaped (by decide)
  · rw [List.mem_singleton] at hescaped
    exact h (hescaped ▸ hc)

/-- A quoted text says the text, whatever is escaped in it. -/
theorem says_text {body : String} (hbody : body.toList.all Lexeme.isBodyChar = true) :
    Says (Script.text body) 0 (.text body) := by
  rw [List.all_eq_true] at hbody
  refine ⟨?_, [.text body], ?_, .text body⟩
  · have hflat : '\n' ∉ body.toList := fun hmem => absurd (hbody _ hmem) (by decide)
    simp [Script.text, flat_escaped hflat]
  · intro rest _
    exact tokens_text rest fun hmem => absurd (hbody _ hmem) (by decide)

/-! ### Operators -/

/-- An expression in brackets. -/
theorem Says.bracketed {text : String} {e : Expr} (h : Says text 6 e) :
    Says ("(" ++ text ++ ")") 0 e := by
  obtain ⟨hflat, ts, hspells, hphrase⟩ := h
  refine ⟨flat_append (flat_append (by decide) hflat) (by decide), _, ?_, hphrase.bracket⟩
  exact ((cuts_open.append_spells hspells).append_cuts cuts_close rfl).spells

/-- An operand on either side of an operator. -/
theorem Says.binary {left right operator : String} {l r : Expr} {t : Tok} {op : Operator}
    (hl : Says left 0 l) (hr : Says right 0 r) (ht : Spells operator [t])
    (hflat : '\n' ∉ operator.toList) (hop : t.operator? = some op) :
    Says (left ++ " " ++ operator ++ " " ++ right) 6 (.binary op l r) := by
  obtain ⟨hlflat, ls, hls, hlphrase⟩ := hl
  obtain ⟨hrflat, rs, hrs, hrphrase⟩ := hr
  have hspells := (((hls.append_cuts cuts_space rfl).append_spells ht).append_cuts cuts_space
    rfl).append_spells hrs
  rw [List.append_nil, List.append_nil, List.append_assoc] at hspells
  refine ⟨?_, _, hspells, .binary hop hlphrase hrphrase⟩
  exact flat_append (flat_append (flat_append (flat_append hlflat (by decide)) hflat) (by decide))
    hrflat

/-- A negated operand, in brackets. -/
theorem Says.negated {text : String} {e : Expr} (h : Says text 0 e) :
    Says ("(not " ++ text ++ ")") 0 (.not e) := by
  obtain ⟨hflat, ts, hspells, hphrase⟩ := h
  have hnot : Cuts "(not " [.sign .open, .name "not"] := fun _ => rfl
  refine ⟨flat_append (flat_append (by decide) hflat) (by decide), _,
    ((hnot.append_spells hspells).append_cuts cuts_close rfl).spells, ?_⟩
  exact ((Phrase.not (hphrase.loosen 4)).loosen 2).bracket

/-- Two operands of a sum or product, where the sign with the spaces around it is a fixed piece. -/
theorem Says.joined {left right sign : String} {l r : Expr} {t : Tok} {op : Operator} {level : Nat}
    (hl : Says left (level + 1) l) (hr : Says right level r) (hsign : Cuts sign [t])
    (hsep : Separates sign) (hflat : '\n' ∉ sign.toList) (hop : t.operator? = some op)
    (hlevel : op.level = level + 1) (hchain : level ≠ 2) :
    Says (left ++ sign ++ right) (level + 1) (.binary op l r) := by
  obtain ⟨hlflat, ls, hls, hlphrase⟩ := hl
  obtain ⟨hrflat, rs, hrs, hrphrase⟩ := hr
  have hspells := (hls.append_cuts hsign hsep).append_spells hrs
  rw [List.append_assoc] at hspells
  exact ⟨flat_append (flat_append hlflat hflat) hrflat, _, hspells,
    .joined hop hlevel hchain hlphrase hrphrase⟩

/-- A sum binds to the left, so only its right side has to bind more strongly. -/
theorem Says.sum {left right : String} {l r : Expr} (hl : Says left 2 l) (hr : Says right 1 r) :
    Says (left ++ " + " ++ right) 2 (.binary .add l r) :=
  hl.joined hr (fun _ => rfl) rfl (by decide) rfl rfl (by omega)

/-- A product binds to the left, so only its right side has to bind more strongly. -/
theorem Says.product {left right : String} {l r : Expr} (hl : Says left 1 l) (hr : Says right 0 r) :
    Says (left ++ " * " ++ right) 1 (.binary .mul l r) :=
  hl.joined hr (fun _ => rfl) rfl (by decide) rfl rfl (by omega)

/-! ### Calls -/

/-- The text stands on one line and is the arguments of a call, with the closing bracket. -/
structure SaysArguments (text : String) (es : List Expr) : Prop where
  flat : '\n' ∉ text.toList
  phrase : ∃ ts, Cuts text ts ∧ Phrase (.arguments es) ts

theorem SaysArguments.last {text : String} {e : Expr} (h : Says text 6 e) :
    SaysArguments (text ++ ")") [e] := by
  obtain ⟨hflat, ts, hspells, hphrase⟩ := h
  exact ⟨flat_append hflat (by decide), _, hspells.append_cuts cuts_close rfl, .last hphrase⟩

/-- One more argument, with a comma behind it. -/
theorem SaysArguments.more {text others : String} {e : Expr} {es : List Expr} (h : Says text 6 e)
    (hothers : SaysArguments others es) : SaysArguments (text ++ ", " ++ others) (e :: es) := by
  obtain ⟨hflat, ts, hspells, hphrase⟩ := h
  obtain ⟨hflats, us, hcuts, hphrases⟩ := hothers
  have hall := (hspells.append_cuts cuts_comma rfl).append hcuts
  rw [List.append_assoc] at hall
  exact ⟨flat_append (flat_append hflat (by decide)) hflats, _, hall, .more hphrase hphrases⟩

/-- A call, where the function and its bracket are a fixed piece. -/
theorem SaysArguments.call {text opening function : String} {es : List Expr}
    (h : SaysArguments text es) (hfunction : Script.reservedWords.contains function = false)
    (hopening : Cuts opening [.name function, .sign .open]) (hflat : '\n' ∉ opening.toList) :
    Says (opening ++ text) 0 (.call function es) := by
  obtain ⟨hflats, ts, hcuts, hphrases⟩ := h
  exact ⟨flat_append hflat hflats, _, (hopening.append hcuts).spells, .call hfunction hphrases⟩

/-- A sign that could be the beginning of a longer one is over before a delimiter. -/
theorem spells_of_short {text : String} {ts : List Tok} (hend : tokens text.toList = ts)
    (hdelimiter : ∀ c, isDelimiter c = true → ∀ rest,
      tokens (text.toList ++ c :: rest) = ts ++ tokens (c :: rest)) : Spells text ts := by
  intro rest hrest
  cases rest with
  | nil => rw [List.append_nil, hend, tokens_nil, List.append_nil]
  | cons c rest => exact hdelimiter c (hrest c rfl) rest

end Zed.Python

namespace Zed

open Python

/-- The name of a variable is a word, and none that is reserved. -/
theorem Variable.isWord_of_isName {name : String} (h : Variable.isName name = true) :
    IsWord name := by
  obtain ⟨c, digits, hchars, hupper, hdigits⟩ := Variable.isName_iff.1 h
  refine ⟨c, digits, hchars, ?_, ?_⟩
  · rw [Lexeme.isIdentChar_eq, hupper, Bool.true_or, Bool.true_or]
  · exact List.all_eq_true.2 fun d hd => Lexeme.isWordChar_of_isDigit (hdigits d hd)

/-- No word that is reserved is the name of a variable. -/
theorem Variable.unreserved_of_isName {name : String} (h : Variable.isName name = true) :
    Script.reservedWords.contains name = false := by
  have hwords : ∀ word ∈ Script.reservedWords, Variable.isName word = false := by decide
  rw [← Bool.not_eq_true, List.contains_iff_mem]
  intro hmem
  rw [hwords name hmem] at h
  cases h

theorem Variable.says_name {name : String} (h : Variable.isName name = true) :
    Says name 0 (.name name) :=
  ⟨(isWord_of_isName h).flat, _, (isWord_of_isName h).spells, .name (unreserved_of_isName h)⟩

/-- What is written for a term says its translation. -/
theorem Term.says_toExpr {t : Term} (h : t.WellFormed .source) :
    Says (Script.term t) 0 t.toExpr := by
  cases t with
  | var v => exact Variable.says_name h
  | text body => exact says_text h
  | number x => exact says_number h

theorem Literal.says_toExpr {l : Literal} (h : l.WellFormed .source) :
    Says (Script.literal l) 0 l.toExpr := by
  cases l with
  | text body => exact says_text h
  | number x => exact says_number h

/-- The token of a relation. -/
theorem Relation.spells (r : Relation) :
    ∃ t, Spells (Script.relation r) [t] ∧ t.operator? = some r.toOperator := by
  cases r with
  | and => exact ⟨.name "and", IsWord.spells ⟨_, _, rfl, by decide, by decide⟩, rfl⟩
  | or => exact ⟨.name "or", IsWord.spells ⟨_, _, rfl, by decide, by decide⟩, rfl⟩
  | atLeast => exact ⟨.sign .atLeast, fun _ _ => rfl, rfl⟩
  | atMost => exact ⟨.sign .atMost, fun _ _ => rfl, rfl⟩
  | greater =>
    refine ⟨.sign .greater, spells_of_short rfl fun c hc rest => ?_, rfl⟩
    rcases eq_of_isDelimiter hc with rfl | rfl | rfl | rfl | rfl <;> rfl
  | less =>
    refine ⟨.sign .less, spells_of_short rfl fun c hc rest => ?_, rfl⟩
    rcases eq_of_isDelimiter hc with rfl | rfl | rfl | rfl | rfl <;> rfl
  | equal => exact ⟨.sign .equal, fun _ _ => rfl, rfl⟩

/-- What is written for an operand says its translation. Nested conditions stand in brackets. -/
theorem Operand.says_toExpr {o : Operand} (h : o.WellFormed .source) :
    Says (Script.operand o) 0 o.toExpr := by
  induction o with
  | term t => exact Term.says_toExpr h
  | condition negated r left right ihl ihr =>
    obtain ⟨t, ht, hop⟩ := r.spells
    have hflat : '\n' ∉ (Script.relation r).toList := by
      cases r <;> decide
    have hplain := ((ihl h.1).binary (ihr h.2) ht hflat hop).bracketed
    cases negated with
    | false => simpa [Script.operand, Script.test, String.append_assoc, Operand.toExpr] using hplain
    | true =>
      simpa [Script.operand, Script.test, String.append_assoc, Operand.toExpr] using hplain.negated

/-- What is written for a condition says its translation. -/
theorem Condition.says_toExpr {c : Condition} (h : c.WellFormed .source) :
    Says (Script.condition c) 0 c.toExpr :=
  Operand.says_toExpr h

/-! ## Values -/

theorem Term.says_str {t : Term} (h : t.WellFormed .source) :
    Says ("str(" ++ (Script.term t ++ ")")) 0 t.toStrCall :=
  (SaysArguments.last ((Term.says_toExpr h).loosen 6)).call (by decide) (fun _ => rfl) (by decide)

theorem prompt_singleton (t : Term) : Script.prompt [t] = "str(" ++ (Script.term t ++ ")") := by
  rw [Script.prompt, String.append_assoc]

/-- A prompt is a sum of calls, one for each term. -/
theorem prompt_cons (t u : Term) (ts : List Term) :
    Script.prompt (t :: u :: ts) = "str(" ++ (Script.term t ++ ")") ++ " + "
      ++ Script.prompt (u :: ts) := by
  apply String.toList_inj.1
  simp [Script.prompt]

/-- The terms of a prompt after what they are joined to. -/
theorem Term.says_joined {left : String} {l : Expr} {t : Term} {ts : List Term} (hl : Says left 2 l)
    (h : ∀ u ∈ t :: ts, u.WellFormed .source) :
    Says (left ++ " + " ++ Script.prompt (t :: ts)) 2
      ((t :: ts).foldl (fun joined u => .binary .add joined u.toStrCall) l) := by
  -- The tree leans to the left and the text is written from the right, so what
  -- stands before varies.
  induction ts generalizing left l t with
  | nil =>
    rw [prompt_singleton]
    exact hl.sum ((Term.says_str (h t (List.mem_cons_self ..))).loosen 1)
  | cons u ts ih =>
    have hjoined := ih (hl.sum ((Term.says_str (h t (List.mem_cons_self ..))).loosen 1))
      fun w hw => h w (List.mem_cons_of_mem _ hw)
    rw [prompt_cons]
    simpa only [String.append_assoc, List.foldl_cons] using hjoined

/-- What is written for a prompt says its translation. The sum binds to the left, so the induction
adds terms at its end. -/
theorem Term.says_prompt {ts : List Term} (h : ∀ t ∈ ts, t.WellFormed .source) :
    Says (Script.prompt ts) 2 (Term.promptExpr ts) := by
  cases ts with
  | nil => exact ⟨by decide, [.text ""], fun _ _ => rfl, (Phrase.text "").loosen 2⟩
  | cons t ts =>
    have hfirst := (Term.says_str (h t (List.mem_cons_self ..))).loosen 2
    cases ts with
    | nil =>
      rw [prompt_singleton]
      exact hfirst
    | cons u ts =>
      rw [prompt_cons]
      exact Term.says_joined hfirst fun w hw => h w (List.mem_cons_of_mem _ hw)

/-- What is written for a value says its translation. -/
theorem Value.says_toExpr {v : Value} (h : v.WellFormed .source) :
    Says (Script.value v) 0 v.toExpr := by
  cases v with
  | term t => exact Term.says_toExpr h
  | input prompt =>
    rw [Script.value, String.append_assoc]
    exact (SaysArguments.last ((Term.says_prompt h).loosen 4)).call (by decide)
      (fun _ => rfl) (by decide)

end Zed

import Zed.Proofs.Token.Isolation
import Zed.Proofs.Token.Pattern

/-!
# The table of lexemes

The lexemes of Zed are given by a table: eight classes, each with a pattern, of
which the first one that matches counts. `Lexeme.prescribed` reads the table at a
column of a line, and the main result says that every lexeme of a source text is the
one that is prescribed there (`Token.lexemes_prescribed`).

The scanner does not go through the table. It tries its classes in another order, takes runs of
characters without ever going back, and looks at no character before the lexeme. Three facts
make up for this:

* a run of characters of words that has to end at a boundary can only be given up or taken
  whole (`ends_word_run`), so that going back is of use in one place only, before the
  fraction of a number;
* numbers, operators and strings begin with different characters;
* a lexeme never begins inside a word (`Cut.opens_word`), so that the boundary in front
  of it is there.
-/

set_option autoImplicit false

namespace Zed

open Pattern (one seq many plus optional anyOf boundary within)

namespace Lexeme

/-! ## The table -/

/-- The classes of lexemes, in the order in which they are tried. -/
inductive Class where
  | keyword | number | symbol | text | var | ident | comment | other
  deriving DecidableEq, Repr

/-- One digit. -/
def digitPattern : Pattern :=
  one (within [('0', '9')])

/-- The pattern as a word of its own. -/
def wordPattern (p : Pattern) : Pattern :=
  seq boundary (seq p boundary)

/-- The pattern of a class. -/
def Class.pattern : Class → Pattern
  | keyword => wordPattern (anyOf ["PROG", "ENDPROG", "DO", "ENDDO", "OUT", "IN", "IF",
      "OTHERWISE", "ENDIF", "SWITCH", "ENDSWITCH", "FOR", "FROM", "TO", "BY", "ENDFOR", "WHEN",
      "ENDWHEN", "REPEAT", "UNTIL", "ENDREPEAT"])
  | number => wordPattern
      (seq (plus digitPattern) (optional (seq (one (· == '.')) (plus digitPattern))))
  | symbol => anyOf ["+", "-", "*", "/", "%", ">=", "<=", ">", "<", "==", "&&", "||", "!", ":",
      "[", "]", "="]
  | text => seq (one (· == '"'))
      (seq (many (one (within [(' ', ' '), ('!', '!'), ('#', '~')]))) (one (· == '"')))
  | var => wordPattern (seq (one (within [('A', 'Z')])) (many digitPattern))
  | ident => wordPattern (plus (one (within [('A', 'Z'), ('a', 'z'), ('_', '_')])))
  | comment => seq (one (· == '#')) (many (one fun _ => true))
  | other => plus (one fun c => !Text.isBlank c)

/-- The rows of the table. -/
def table : List Class :=
  [.keyword, .number, .symbol, .text, .var, .ident, .comment, .other]

/-- The class and the length that the first matching row of the table gives at a column
of a line. -/
def prescribed (row : List Char) (i : Nat) : Option (Class × Nat) :=
  table.findSome? fun c => (c.pattern.ends row i).head?.map fun j => (c, j - i)

end Lexeme

/-- The class of the lexemes that make tokens of a kind. -/
def Token.Kind.toClass : Token.Kind → Lexeme.Class
  | .keyword _ => .keyword
  | .number _ => .number
  | .symbol _ => .symbol
  | .text _ => .text
  | .var _ => .var
  | .ident _ => .ident
  | .other _ => .other

namespace Lexeme

/-- The class of a lexeme. -/
def toClass (l : Lexeme) : Class :=
  match l.kind with
  | some k => k.toClass
  | none => .comment

/-! ## Classes of characters -/

theorem between_capitals (c : Char) : (decide ('A' ≤ c) && decide (c ≤ 'Z')) = c.isUpper := by
  have hrange : c.isUpper = decide ('A' ≤ c ∧ c ≤ 'Z') := rfl
  rw [hrange, Bool.decide_and]

theorem between_small (c : Char) : (decide ('a' ≤ c) && decide (c ≤ 'z')) = c.isLower := rfl

theorem between_digits (c : Char) : (decide ('0' ≤ c) && decide (c ≤ '9')) = c.isDigit := rfl

theorem between_underscores (c : Char) :
    (decide ('_' ≤ c) && decide (c ≤ '_')) = decide (c = '_') := by
  rw [Bool.eq_iff_iff, Bool.and_eq_true, decide_eq_true_eq, decide_eq_true_eq,
    decide_eq_true_eq, eq_comm]
  exact ⟨fun h => Char.le_antisymm h.1 h.2, fun h => h ▸ ⟨Char.le_refl _, Char.le_refl _⟩⟩

/-- The digits of the table are the digits of the lexer. -/
theorem within_digits : within [('0', '9')] = Char.isDigit := by
  funext c
  simp only [within, List.any_cons, List.any_nil, Bool.or_false, between_digits]

theorem within_capitals : within [('A', 'Z')] = Char.isUpper := by
  funext c
  simp only [within, List.any_cons, List.any_nil, Bool.or_false, between_capitals]

/-- The letters of the table are those with which a name may begin. -/
theorem within_letters : within [('A', 'Z'), ('a', 'z'), ('_', '_')] = isIdentChar := by
  funext c
  simp only [within, List.any_cons, List.any_nil, Bool.or_false, between_capitals, between_small,
    between_underscores, isIdentChar_eq, Bool.or_assoc]

/-- The word characters of the table are those of the lexer. -/
theorem isWord_eq : Pattern.isWord = isWordChar := by
  funext c
  have hclasses : isWordChar c = (c.isUpper || c.isLower || c.isDigit || decide (c = '_')) := rfl
  simp only [Pattern.isWord, within, List.any_cons, List.any_nil, Bool.or_false, between_capitals,
    between_small, between_digits, between_underscores, hclasses, Bool.or_assoc]

/-- The characters of the table that a text may have are those of the lexer. -/
theorem within_body : within [(' ', ' '), ('!', '!'), ('#', '~')] = isBodyChar := by
  funext c
  have hquote : c = '"' ↔ c.toNat = 34 := Char.toNat_inj.symm
  have hle : ∀ d : Char, (d ≤ c ↔ d.toNat ≤ c.toNat) ∧ (c ≤ d ↔ c.toNat ≤ d.toNat) := fun d =>
    ⟨UInt32.le_iff_toNat_le, UInt32.le_iff_toNat_le⟩
  rw [Bool.eq_iff_iff]
  simp only [within, isBodyChar, List.any_cons, List.any_nil, Bool.or_false, Bool.or_eq_true,
    Bool.and_eq_true, decide_eq_true_eq, ne_eq, hquote, hle, Char.reduceToNat]
  omega

/-! ## Runs up to the end of a word -/

open Pattern (ends runLength atBoundary)

variable {row : List Char} {i : Nat}

/-- If a character of a word stands at the column, a word begins there. -/
def OpensWord (row : List Char) (i : Nat) : Prop :=
  ∀ c, row[i]? = some c → isWordChar c = true → atBoundary row i = true

/-- Behind a word character there is a boundary exactly if the word ends there. -/
theorem ends_boundary_endsWord {c : Char} (hc : row[i]? = some c) (hword : isWordChar c = true) :
    ends row boundary (i + 1) = if endsWord (row.drop (i + 1)) then [i + 1] else [] := by
  rw [Pattern.ends_boundary_behind hc (by rwa [isWord_eq]), isWord_eq, endsWord]
  cases (row.drop (i + 1)).head?.any isWordChar <;> rfl

/-- A pattern that begins with a character of a word needs no look at the boundary before it. -/
theorem OpensWord.ends_wordPattern (h : OpensWord row i) {p : Pattern}
    (hp : (∀ c, row[i]? = some c → isWordChar c = false) → ends row p i = []) :
    ends row (wordPattern p) i = (ends row p i).flatMap (ends row boundary) := by
  rw [wordPattern, ends, ends]
  split
  · rw [List.flatMap_singleton, ends]
  · next hboundary =>
    have hnone : ∀ c, row[i]? = some c → isWordChar c = false := fun c hc =>
      Bool.eq_false_iff.2 fun hword => hboundary (h c hc hword)
    rw [hp hnone]
    rfl

theorem ends_one_eq_nil {member : Char → Bool}
    (hmember : ∀ d, member d = true → isWordChar d = true)
    (hnone : ∀ c, row[i]? = some c → isWordChar c = false) : ends row (one member) i = [] := by
  rw [ends, if_neg]
  intro hany
  obtain ⟨c, hc, hmem⟩ := (Option.any_eq_true ..).1 hany
  exact absurd (hmember c hmem) (Bool.eq_false_iff.1 (hnone c hc))

section Run

variable {member : Char → Bool} {c : Char}

/-- A character of a word and a run behind it are all characters of a word. -/
theorem isWordChar_run (hmember : ∀ d, member d = true → isWordChar d = true)
    (hc : row[i]? = some c) (hword : isWordChar c = true) {j : Nat} (hi : i ≤ j)
    (hj : j < i + 1 + runLength row member (i + 1)) :
    ∃ d, row[j]? = some d ∧ isWordChar d = true := by
  rcases Nat.eq_or_lt_of_le hi with rfl | hlt
  · exact ⟨c, hc, hword⟩
  · obtain ⟨d, hd, hmem⟩ := Pattern.getElem?_run hlt hj
    exact ⟨d, hd, hmember d hmem⟩

/-- Between their characters there is no boundary. -/
theorem ends_boundary_within_run (hmember : ∀ d, member d = true → isWordChar d = true)
    (hc : row[i]? = some c) (hword : isWordChar c = true) {j : Nat} (hi : i + 1 ≤ j)
    (hj : j < i + 1 + runLength row member (i + 1)) :
    ends row boundary j = [] := by
  obtain ⟨j, rfl⟩ := Nat.exists_eq_add_one_of_ne_zero (Nat.ne_zero_of_lt hi)
  obtain ⟨d, hd, hbefore⟩ :=
    isWordChar_run hmember hc hword (Nat.le_of_succ_le_succ hi) (Nat.lt_of_succ_lt hj)
  obtain ⟨e, he, hbehind⟩ := isWordChar_run hmember hc hword (Nat.le_of_succ_le hi) hj
  exact Pattern.ends_boundary_inside hd (by rwa [isWord_eq]) he (by rwa [isWord_eq])

/-- Behind a run there is a boundary exactly if the word ends there. -/
theorem ends_boundary_after_run (hmember : ∀ d, member d = true → isWordChar d = true)
    (hc : row[i]? = some c) (hword : isWordChar c = true) :
    ends row boundary (i + 1 + runLength row member (i + 1))
      = if endsWord ((row.drop (i + 1)).dropWhile member)
        then [i + 1 + runLength row member (i + 1)] else [] := by
  obtain ⟨d, hd, hlast⟩ := isWordChar_run hmember hc hword
    (Nat.le_add_right i (runLength row member (i + 1))) (by omega)
  rw [Nat.add_right_comm, ends_boundary_endsWord hd hlast, Nat.add_right_comm, Pattern.drop_run]

/-- Behind a character of a word, a run of such characters that has to end at a boundary is taken
whole or not at all. -/
theorem ends_word_run (hmember : ∀ d, member d = true → isWordChar d = true) (hc : row[i]? = some c)
    (hword : isWordChar c = true) :
    (ends row (many (one member)) (i + 1)).flatMap (ends row boundary)
      = if endsWord ((row.drop (i + 1)).dropWhile member)
        then [i + 1 + runLength row member (i + 1)] else [] := by
  rw [Pattern.ends_run, Pattern.flatMap_downTo fun j => ends_boundary_within_run hmember hc hword,
    ends_boundary_after_run hmember hc hword]

end Run

/-- The same for a run of at least one character. -/
theorem ends_word_plus {member : Char → Bool}
    (hmember : ∀ d, member d = true → isWordChar d = true) :
    (ends row (plus (one member)) i).flatMap (ends row boundary)
      = if (row.drop i).takeWhile member ≠ [] ∧ endsWord ((row.drop i).dropWhile member) then
          [i + ((row.drop i).takeWhile member).length] else [] := by
  rw [plus, ends]
  cases hcs : row.drop i with
  | nil =>
    rw [Pattern.ends_one_nil member hcs]
    rfl
  | cons c cs =>
    have hc := Pattern.getElem?_of_drop hcs
    have hnext := Pattern.drop_succ_of_drop hcs
    rw [Pattern.ends_one member hcs]
    cases hmem : member c with
    | false =>
      rw [List.takeWhile_cons_of_neg (by rw [hmem]; decide)]
      rfl
    | true =>
      rw [if_pos rfl, List.flatMap_singleton, ends_word_run hmember hc (hmember c hmem), hnext,
        runLength, hnext, List.takeWhile_cons_of_pos hmem, List.dropWhile_cons_of_pos hmem,
        List.length_cons, Nat.add_right_comm, Nat.add_assoc]
      simp only [ne_eq, reduceCtorEq, not_false_eq_true, true_and]

/-! ## The rows of the table -/

/-- The row of a class finds, at a column of a line, a match that is as long as the lexeme. -/
def Finds (row : List Char) (i : Nat) (c : Class) (found : Option Lexeme) : Prop :=
  (ends row c.pattern i).head? = found.map fun l => i + l.chars.length

theorem findSome?_ite {α β : Type} (p : α → Bool) (f : α → β) (l : List α) :
    l.findSome? (fun a => if p a then some (f a) else none) = (l.find? p).map f := by
  induction l with
  | nil => rfl
  | cons a l ih =>
    rw [List.findSome?_cons, List.find?_cons, ih]
    cases p a <;> rfl

/-- A text made of characters of words that has to end at a boundary is the whole word. -/
theorem ends_word_literal {w : List Char} (hne : w ≠ []) (hw : ∀ c ∈ w, isWordChar c = true) :
    (ends row (Pattern.literal w) i).flatMap (ends row boundary)
      = if w == (row.drop i).takeWhile isWordChar
        then [i + ((row.drop i).takeWhile isWordChar).length] else [] := by
  rw [Pattern.ends_literal]
  by_cases hstarts : w <+: row.drop i
  · rw [if_pos (List.isPrefixOf_iff_prefix.2 hstarts), List.flatMap_singleton]
    obtain ⟨rest, hrest⟩ := hstarts
    have hbehind : row.drop (i + w.length) = rest := by
      rw [← List.drop_drop, ← hrest, List.drop_left]
    -- The boundary has to be behind the last character of the text.
    obtain ⟨n, hn⟩ := Nat.exists_eq_add_one_of_ne_zero (List.length_pos_iff.2 hne).ne'
    have hlast : row[i + n]? = some (w[n]) := by
      rw [← List.getElem?_drop, ← hrest, List.getElem?_append_left (by omega),
        List.getElem?_eq_getElem]
    have hend := ends_boundary_endsWord hlast (hw _ (List.getElem_mem _))
    rw [Nat.add_assoc, ← hn, hbehind] at hend
    rw [hend, ← hrest, List.takeWhile_append_of_pos hw]
    cases hword : endsWord rest with
    | true =>
      rw [takeWhile_eq_nil_of_endsWord (fun _ hc => hc) hword, List.append_nil, beq_self_eq_true]
    | false =>
      have hmore : rest.takeWhile isWordChar ≠ [] := by
        cases rest with
        | nil => cases hword
        | cons c rest =>
          rw [endsWord, List.head?_cons, Option.any_some, Bool.not_eq_false'] at hword
          rw [List.takeWhile_cons_of_pos hword]
          exact List.cons_ne_nil _ _
      rw [if_neg Bool.false_ne_true, if_neg]
      rw [beq_iff_eq, List.self_eq_append_right]
      exact hmore
  · rw [if_neg (by rwa [List.isPrefixOf_iff_prefix]), if_neg]
    · rfl
    · rw [beq_iff_eq]
      rintro rfl
      exact hstarts (List.takeWhile_prefix _)

theorem ends_literal_eq_nil {w : List Char} (hne : w ≠ []) (hw : ∀ c ∈ w, isWordChar c = true)
    (hnone : ∀ c, row[i]? = some c → isWordChar c = false) :
    ends row (Pattern.literal w) i = [] := by
  cases w with
  | nil => exact absurd rfl hne
  | cons c w =>
    have hmember : ∀ d, (d == c) = true → isWordChar d = true :=
      fun d hd => eq_of_beq hd ▸ hw c List.mem_cons_self
    rw [Pattern.literal, ends, ends_one_eq_nil hmember hnone]
    rfl

/-- The lexer finds a keyword where the table prescribes it. -/
theorem finds_keyword (h : OpensWord row i) : Finds row i .keyword (keyword? (row.drop i)) := by
  -- The words of the pattern are the spellings of the keywords.
  show (ends row (wordPattern (anyOf (Keyword.all.map Keyword.spelling))) i).head? = _
  have hspelling : ∀ k : Keyword, k.spelling.toList ≠ [] ∧
      ∀ c ∈ k.spelling.toList, isWordChar c = true := by
    intro k
    cases k <;> exact ⟨by decide, List.all_eq_true.1 rfl⟩
  rw [h.ends_wordPattern, Pattern.ends_anyOf, List.flatMap_assoc, List.flatMap_map,
    List.head?_flatMap, keyword?, Option.map_map, Keyword.ofSpelling?, ← findSome?_ite]
  · congr 1
    funext k
    have hbeq : (k.spelling.toList == (row.drop i).takeWhile isWordChar)
        = (k.spelling == String.ofList ((row.drop i).takeWhile isWordChar)) := by
      rw [Bool.eq_iff_iff, beq_iff_eq, beq_iff_eq, ← String.toList_inj, String.toList_ofList]
    rw [ends_word_literal (hspelling k).1 (hspelling k).2, hbeq]
    split <;> rfl
  · intro hnone
    rw [Pattern.ends_anyOf, List.flatMap_map, List.flatMap_eq_nil_iff]
    exact fun k _ => ends_literal_eq_nil (hspelling k).1 (hspelling k).2 hnone

/-- Of several texts that stand at the beginning of a line, the longest is found if no text is tried
before one that it is the beginning of. -/
theorem find?_isPrefixOf_eq_some {l : List (List Char)} (hl : l.Pairwise fun a b => ¬ a <+: b)
    {cs a : List Char} : l.find? (·.isPrefixOf cs) = some a ↔
      a ∈ l ∧ a <+: cs ∧ ∀ b ∈ l, b <+: cs → b <+: a := by
  have hfound : ∀ {a}, l.find? (·.isPrefixOf cs) = some a → a ∈ l ∧ a <+: cs ∧
      ∀ b ∈ l, b <+: cs → b <+: a := by
    intro a h
    obtain ⟨ha, before, behind, rfl, hbefore⟩ := List.find?_eq_some_iff_append.1 h
    rw [List.isPrefixOf_iff_prefix] at ha
    refine ⟨List.mem_append_right _ List.mem_cons_self, ha, fun b hb hstarts => ?_⟩
    rcases List.mem_append.1 hb with hb | hb
    · have hnot := hbefore b hb
      rw [List.isPrefixOf_iff_prefix.2 hstarts] at hnot
      cases hnot
    · rcases List.mem_cons.1 hb with rfl | hb
      · exact List.prefix_rfl
      · have hlater := List.rel_of_pairwise_cons (List.pairwise_append.1 hl).2.1 hb
        exact (List.prefix_or_prefix_of_prefix ha hstarts).resolve_left hlater
  refine ⟨hfound, fun ⟨ha, hstarts, hlongest⟩ => ?_⟩
  cases h : l.find? (·.isPrefixOf cs) with
  | none =>
    have hnot := List.find?_eq_none.1 h a ha
    exact absurd (List.isPrefixOf_iff_prefix.2 hstarts) hnot
  | some b =>
    obtain ⟨hb, hstarts', hlongest'⟩ := hfound h
    rw [List.IsPrefix.eq_of_length_le (hlongest b hb hstarts') (hlongest' a ha hstarts).length_le]

/-- So two orders of the same texts find the same. -/
theorem find?_isPrefixOf_congr {l m : List (List Char)} (hl : l.Pairwise fun a b => ¬ a <+: b)
    (hm : m.Pairwise fun a b => ¬ a <+: b) (hperm : l.Perm m) (cs : List Char) :
    l.find? (·.isPrefixOf cs) = m.find? (·.isPrefixOf cs) := by
  apply Option.ext
  intro a
  rw [find?_isPrefixOf_eq_some hl, find?_isPrefixOf_eq_some hm]
  simp only [hperm.mem_iff]

/-- The lexer finds a symbol where the table prescribes it. -/
theorem finds_symbol : Finds row i .symbol (symbol? (row.drop i)) := by
  have hliteral : ∀ text : String, (ends row (Pattern.literal text.toList) i).head?
      = if text.toList.isPrefixOf (row.drop i) then some (i + text.toList.length) else none := by
    intro text
    rw [Pattern.ends_literal]
    split <;> rfl
  rw [Finds, Class.pattern, Pattern.ends_anyOf, List.head?_flatMap]
  simp only [hliteral]
  rw [findSome?_ite, symbol?, Option.map_map]
  generalize htexts : ["+", "-", "*", "/", "%", ">=", "<=", ">", "<", "==", "&&", "||", "!", ":",
    "[", "]", "="]
    = texts
  have htable : (texts.find? fun text => text.toList.isPrefixOf (row.drop i)).map
      (fun text => i + text.toList.length)
      = ((texts.map String.toList).find? (·.isPrefixOf (row.drop i))).map
        fun sign => i + sign.length := by
    rw [List.find?_map, Option.map_map]
    rfl
  have hscan : (Symbol.all.find? fun s => s.spelling.toList.isPrefixOf (row.drop i)).map
        (fun s => i + s.spelling.toList.length)
      = ((Symbol.all.map fun s => s.spelling.toList).find? (·.isPrefixOf (row.drop i))).map
          fun sign => i + sign.length := by
    rw [List.find?_map, Option.map_map]
    rfl
  have hperm : (texts.map String.toList).Perm (Symbol.all.map fun s => s.spelling.toList) := by
    subst htexts
    decide
  have hlonger : (texts.map String.toList).Pairwise fun a b => ¬ a <+: b := by
    subst htexts
    decide
  refine htable.trans (Eq.trans ?_ hscan.symm)
  rw [find?_isPrefixOf_congr hlonger (by decide) hperm]

/-- A text goes up to the first character that it may not have, which must be a quote. -/
theorem text?_quote (cs : List Char) :
    text? ('"' :: cs) = if (cs.dropWhile isBodyChar).head?.any (· == '"') then
      some ⟨some (.text (String.ofList (cs.takeWhile isBodyChar))),
        '"' :: cs.takeWhile isBodyChar ++ ['"']⟩
      else none := by
  rw [text?]
  cases cs.dropWhile isBodyChar with
  | nil => rfl
  | cons d rest =>
    rw [List.head?_cons, Option.any_some]
    by_cases hd : d = '"'
    · subst hd
      rfl
    · rw [if_neg (by rwa [beq_iff_eq])]
      split
      · next heq =>
        cases heq
        exact absurd rfl hd
      · rfl

/-- The lexer finds a text where the table prescribes it. -/
theorem finds_text : Finds row i .text (text? (row.drop i)) := by
  rw [Finds, Class.pattern, within_body, ends]
  cases hcs : row.drop i with
  | nil =>
    rw [Pattern.ends_one_nil _ hcs]
    rfl
  | cons c cs =>
    rw [Pattern.ends_one _ hcs]
    by_cases hc : c = '"'
    · subst hc
      have hnext := Pattern.drop_succ_of_drop hcs
      rw [if_pos (beq_self_eq_true _), List.flatMap_singleton, ends, Pattern.ends_run,
        Pattern.flatMap_downTo]
      · rw [ends, ← List.head?_drop, Pattern.drop_run, hnext, runLength, hnext, text?_quote]
        split
        · rw [List.head?_cons, Option.map_some, List.length_append, List.length_cons,
            List.length_singleton]
          congr 1
          omega
        · rfl
      · -- No character of the body is the quote.
        intro j hi hj
        obtain ⟨d, hd, hbody⟩ := Pattern.getElem?_run hi hj
        rw [ends, hd, Option.any_some, if_neg]
        rw [beq_iff_eq]
        rintro rfl
        exact absurd hbody (by decide)
    · rw [if_neg (by rwa [beq_iff_eq]), text?_of_ne hc]
      rfl

theorem isDigit_word : ∀ c, Char.isDigit c = true → isWordChar c = true :=
  fun _ => isWordChar_of_isDigit

theorem isWordChar_of_isUpper {c : Char} (h : c.isUpper = true) : isWordChar c = true := by
  have hclasses : isWordChar c = (c.isUpper || c.isLower || c.isDigit || decide (c = '_')) := rfl
  rw [hclasses, h]
  rfl

/-- The lexer finds a variable where the table prescribes it. -/
theorem finds_var (h : OpensWord row i) : Finds row i .var (var? (row.drop i)) := by
  rw [Finds, Class.pattern, digitPattern, within_capitals, within_digits, h.ends_wordPattern]
  · rw [ends]
    cases hcs : row.drop i with
    | nil =>
      rw [Pattern.ends_one_nil _ hcs]
      rfl
    | cons c cs =>
      have hc := Pattern.getElem?_of_drop hcs
      have hnext := Pattern.drop_succ_of_drop hcs
      rw [Pattern.ends_one _ hcs, var?]
      cases hupper : c.isUpper with
      | false => rfl
      | true =>
        rw [if_pos rfl, List.flatMap_singleton,
          ends_word_run isDigit_word hc (isWordChar_of_isUpper hupper), runLength, hnext]
        simp only [true_and]
        split
        · rw [List.head?_cons, Option.map_some, List.length_cons, Nat.add_right_comm, Nat.add_assoc]
        · rfl
  · intro hnone
    rw [ends, ends_one_eq_nil (fun _ => isWordChar_of_isUpper) hnone]
    rfl

/-- The lexer finds a name where the table prescribes it. -/
theorem finds_ident (h : OpensWord row i) : Finds row i .ident (ident? (row.drop i)) := by
  rw [Finds, Class.pattern, within_letters, h.ends_wordPattern]
  · rw [ends_word_plus fun _ => isWordChar_of_isIdentChar, ident?]
    split <;> rfl
  · intro hnone
    rw [plus, ends, ends_one_eq_nil (fun _ => isWordChar_of_isIdentChar) hnone]
    rfl

theorem fraction?_of_ne {c : Char} {cs : List Char} (hc : c ≠ '.') :
    fraction? (c :: cs) = none := by
  rw [fraction?.eq_def]
  split
  · next heq =>
    cases heq
    exact absurd rfl hc
  · rfl

/-- A fraction is found, if at all, up to the end of its word. -/
theorem ends_fraction (j : Nat) :
    (ends row (seq (one (· == '.')) (plus (one Char.isDigit))) j).flatMap (ends row boundary)
      = ((fraction? (row.drop j)).map fun fraction => j + fraction.length).toList := by
  rw [ends]
  cases hcs : row.drop j with
  | nil =>
    rw [Pattern.ends_one_nil _ hcs]
    rfl
  | cons c cs =>
    rw [Pattern.ends_one _ hcs]
    by_cases hc : c = '.'
    · subst hc
      rw [if_pos (beq_self_eq_true _), List.flatMap_singleton, ends_word_plus isDigit_word,
        Pattern.drop_succ_of_drop hcs, fraction?]
      split
      · rw [Option.map_some, Option.toList_some, List.length_cons, Nat.add_right_comm,
          Nat.add_assoc]
      · rfl
    · rw [if_neg (by rwa [beq_iff_eq]), fraction?_of_ne hc]
      rfl

/-- The lexer finds a numeral where the table prescribes it. -/
theorem finds_number (h : OpensWord row i) : Finds row i .number (number? (row.drop i)) := by
  -- Behind the digits comes a fraction up to the end of its word, or the end of the word.
  have htail : ∀ j, (ends row (optional (seq (one (· == '.')) (plus (one Char.isDigit)))) j).flatMap
      (ends row boundary) = ((fraction? (row.drop j)).map
        fun fraction => j + fraction.length).toList
        ++ ends row boundary j := by
    intro j
    rw [Pattern.optional, ends, List.flatMap_append, ends_fraction, ends, List.flatMap_singleton]
  rw [Finds, Class.pattern, digitPattern, within_digits]
  generalize optional (seq (one (· == '.')) (plus (one Char.isDigit))) = tail at htail
  rw [h.ends_wordPattern]
  · rw [plus, ends, ends]
    cases hcs : row.drop i with
    | nil =>
      rw [Pattern.ends_one_nil _ hcs]
      rfl
    | cons c cs =>
      have hc := Pattern.getElem?_of_drop hcs
      rw [Pattern.ends_one _ hcs]
      cases hdigit : c.isDigit with
      | false =>
        rw [number?_cons hdigit]
        rfl
      | true =>
        have hword := isWordChar_of_isDigit hdigit
        rw [if_pos rfl, List.flatMap_singleton, List.flatMap_assoc, Pattern.ends_run,
          Pattern.flatMap_downTo]
        · rw [htail, ends_boundary_after_run isDigit_word hc hword, Pattern.drop_run, runLength,
            Pattern.drop_succ_of_drop hcs, number?, List.takeWhile_cons_of_pos hdigit,
            List.dropWhile_cons_of_pos hdigit, if_neg (List.cons_ne_nil _ _)]
          cases fraction? (cs.dropWhile Char.isDigit) with
          | some fraction =>
            rw [Option.map_some, Option.map_some, Option.toList_some, List.singleton_append,
              List.head?_cons, List.length_append, List.length_cons]
            congr 1
            omega
          | none =>
            rw [Option.map_none, Option.toList_none, List.nil_append]
            split
            · rw [List.head?_cons, Option.map_some, List.length_cons, Nat.add_right_comm,
                Nat.add_assoc]
            · rfl
        · -- Before the last digit there is neither a fraction nor a boundary.
          intro j hi hj
          obtain ⟨d, hd, hmem⟩ := Pattern.getElem?_run hi hj
          rw [← List.head?_drop] at hd
          obtain ⟨ds, hds⟩ := List.head?_eq_some_iff.1 hd
          have hpoint : d ≠ '.' := by
            rintro rfl
            cases hmem
          rw [htail, hds, fraction?_of_ne hpoint,
            ends_boundary_within_run isDigit_word hc hword hi hj]
          rfl
  · intro hnone
    rw [plus, ends, ends, ends_one_eq_nil isDigit_word hnone]
    rfl

/-- The lexer finds a comment where the table prescribes it. -/
theorem finds_comment : Finds row i .comment (comment? (row.drop i)) := by
  rw [Finds, Class.pattern, comment?, ends]
  cases hcs : row.drop i with
  | nil =>
    rw [Pattern.ends_one_nil _ hcs]
    rfl
  | cons c cs =>
    rw [Pattern.ends_one _ hcs]
    by_cases hc : c = '#'
    · subst hc
      rw [if_pos (beq_self_eq_true _), List.flatMap_singleton, Pattern.ends_run,
        Pattern.head?_downTo, runLength, Pattern.drop_succ_of_drop hcs,
        List.takeWhile_eq_self_iff.2 fun _ _ => rfl, if_pos List.head?_cons, Option.map_some,
        List.length_cons, Nat.add_right_comm, Nat.add_assoc]
    · rw [if_neg (by rwa [beq_iff_eq]), if_neg (by rwa [List.head?_cons, Option.some_inj])]
      rfl

/-- The lexer finds any other lexeme where the table prescribes it. -/
theorem finds_other {c : Char} (hc : row[i]? = some c) (hblank : Text.isBlank c = false) :
    Finds row i .other (some (other (row.drop i))) := by
  rw [Finds, Class.pattern, plus, ends]
  cases hcs : row.drop i with
  | nil =>
    rw [← List.head?_drop, hcs] at hc
    cases hc
  | cons d cs =>
    rw [Pattern.getElem?_of_drop hcs, Option.some_inj] at hc
    subst hc
    rw [Pattern.ends_one _ hcs, hblank, Bool.not_false, if_pos rfl, List.flatMap_singleton,
      Pattern.ends_run, Pattern.head?_downTo, runLength, Pattern.drop_succ_of_drop hcs, other]
    simp [hblank, Nat.add_assoc, Nat.add_comm]

/-! ## Where lexemes begin -/

theorem endsWord_dropWhile {p : Char → Bool} (hp : ∀ c, isWordChar c = true → p c = true)
    (cs : List Char) :
    endsWord (cs.dropWhile p) = true := by
  have hnot := List.head?_dropWhile_not p cs
  rw [endsWord]
  cases h : (cs.dropWhile p).head? with
  | none => rfl
  | some c =>
    rw [h] at hnot
    rw [Option.any_some, Bool.not_eq_true', Bool.eq_false_iff]
    intro hword
    exact absurd (hp c hword) (Bool.eq_false_iff.1 hnot)

/-- The digits of a fraction go to the end of the word. -/
theorem fraction?_endsWord {cs fraction : List Char} (h : fraction? cs = some fraction) :
    endsWord (cs.drop fraction.length) = true := by
  rw [fraction?.eq_def] at h
  split at h
  · dsimp only at h
    split at h
    · next hplaces =>
      cases h
      rw [List.length_cons, List.drop_succ_cons, Pattern.drop_takeWhile]
      exact hplaces.2
    · cases h
  · cases h

/-- A numeral goes to the end of its word. -/
theorem number?_endsWord {cs : List Char} {l : Lexeme} (h : number? cs = some l) :
    endsWord (cs.drop l.chars.length) = true := by
  rw [number?] at h
  split at h
  · cases h
  · split at h
    · next fraction hfraction =>
      cases h
      rw [List.length_append, ← List.drop_drop, Pattern.drop_takeWhile]
      exact fraction?_endsWord hfraction
    · split at h
      · next hend =>
        cases h
        rwa [Pattern.drop_takeWhile]
      · cases h

/-- A variable goes to the end of its word. -/
theorem var?_endsWord {cs : List Char} {l : Lexeme} (h : var? cs = some l) :
    endsWord (cs.drop l.chars.length) = true := by
  rw [var?.eq_def] at h
  split at h
  · dsimp only at h
    split at h
    · next hname =>
      cases h
      rw [List.length_cons, List.drop_succ_cons, Pattern.drop_takeWhile]
      exact hname.2
    · cases h
  · cases h

/-- A name goes to the end of its word. -/
theorem ident?_endsWord {cs : List Char} {l : Lexeme} (h : ident? cs = some l) :
    endsWord (cs.drop l.chars.length) = true := by
  rw [ident?] at h
  split at h
  · next hname =>
    cases h
    rw [Pattern.drop_takeWhile]
    exact hname.2
  · cases h

/-- A lexeme that ends with a character of a word takes the whole word. -/
theorem first_endsWord (cs : List Char) :
    (first cs).chars.getLast?.any isWordChar = false ∨
      endsWord (cs.drop (first cs).chars.length) = true := by
  rcases first_cases cs with h | h | h | h | h | h | h | h
  · obtain ⟨word, -, heq⟩ := Option.map_eq_some_iff.1 h
    rw [← heq, Pattern.drop_takeWhile]
    exact .inr (endsWord_dropWhile (fun _ hc => hc) cs)
  · obtain ⟨sign, heq⟩ := symbol?_spelled h
    rw [heq]
    cases sign <;> exact .inl (by decide)
  · obtain ⟨body, heq⟩ := text?_spelled h
    have hchars : (spelled (.text body)).chars = "\"".toList ++ body.toList ++ ['"'] := by
      rw [spelled, Token.Kind.spelling, String.toList_append, String.toList_append]
      rfl
    rw [heq, hchars, List.getLast?_concat]
    exact .inl (by decide)
  · exact .inr (number?_endsWord h)
  · exact .inr (var?_endsWord h)
  · exact .inr (ident?_endsWord h)
  · obtain ⟨-, heq⟩ := comment?_eq_some h
    rw [heq, List.drop_length]
    exact .inr rfl
  · rw [h, other, Pattern.drop_takeWhile]
    refine .inr (endsWord_dropWhile (fun c hc => ?_) cs)
    rw [isBlank_eq_false_of_isWordChar hc]
    rfl

/-- A word may begin where no word character stands in front. -/
theorem opensWord_of_before (h : ∀ c, i ≠ 0 → row[i - 1]? = some c → isWordChar c = false) :
    OpensWord row i := by
  intro c hc hword
  have hbefore : (i != 0 && row[i - 1]?.any isWordChar) = false := by
    rw [Bool.and_eq_false_imp, bne_iff_ne]
    intro hi
    cases hd : row[i - 1]? with
    | none => rfl
    | some d => exact h d hi hd
  rw [atBoundary, isWord_eq, hbefore, hc, Option.any_some, hword]
  rfl

/-- Behind a lexeme there is the beginning of a word or none. -/
theorem opensWord_behind {c : Char} (hc : row[i]? = some c) (hblank : Text.isBlank c = false) :
    OpensWord row (i + (first (row.drop i)).chars.length) := by
  obtain ⟨hlt, rfl⟩ := List.getElem?_eq_some_iff.1 hc
  have hheads : Heads (first (row.drop i)).chars (row.drop i) := by
    rw [List.drop_eq_getElem_cons hlt]
    exact first_heads hblank
  have hends := first_endsWord (row.drop i)
  generalize first (row.drop i) = l at hheads hends ⊢
  -- Its last character is of no word, or the next one is not.
  rcases hends with hlast | hend
  · apply opensWord_of_before
    intro d _ hd
    have hpos : 1 ≤ l.chars.length := List.length_pos_iff.2 hheads.ne_nil
    obtain ⟨rest, hrest⟩ := hheads.isPrefix
    rw [Nat.add_sub_assoc hpos, ← List.getElem?_drop, ← hrest,
      List.getElem?_append_left (Nat.sub_one_lt_of_lt hpos), ← List.getLast?_eq_getElem?] at hd
    rwa [hd, Option.any_some] at hlast
  · intro d hd hword
    rw [List.drop_drop, endsWord, List.head?_drop, hd, Option.any_some, hword] at hend
    cases hend

/-- No lexeme begins inside a word. -/
theorem Cut.opens_word {found : List (Nat × Lexeme)} (h : Cut row i found)
    (hopens : OpensWord row i) :
    ∀ x ∈ found, OpensWord row x.1 := by
  induction h with
  | done => exact fun _ hx => absurd hx List.not_mem_nil
  | blank hc hblank _ ih =>
    refine ih (opensWord_of_before fun d _ hd => ?_)
    rw [Nat.add_sub_cancel, hc, Option.some_inj] at hd
    rw [← hd, Bool.eq_false_iff]
    intro hword
    rw [isBlank_eq_false_of_isWordChar hword] at hblank
    cases hblank
  | lexeme hc hblank hfirst _ ih =>
    -- The lexeme itself begins where the cut does; the others are cut from behind it.
    intro x hx
    rcases List.mem_cons.1 hx with rfl | hx
    · exact hopens
    · exact ih (hfirst ▸ opensWord_behind hc hblank) x hx

/-! ## The first row that matches -/

/-- What the scanner has for a row of the table. -/
def Class.find? : Class → List Char → Option Lexeme
  | keyword => keyword?
  | number => number?
  | symbol => symbol?
  | text => text?
  | var => var?
  | ident => ident?
  | comment => comment?
  | other => fun cs => some (Lexeme.other cs)

/-- The lexer finds a lexeme of each class where the table prescribes it. -/
theorem finds (h : OpensWord row i) {c : Char} (hc : row[i]? = some c)
    (hblank : Text.isBlank c = false) (kind : Class) :
    Finds row i kind (kind.find? (row.drop i)) := by
  cases kind with
  | keyword => exact finds_keyword h
  | number => exact finds_number h
  | symbol => exact finds_symbol
  | text => exact finds_text
  | var => exact finds_var h
  | ident => exact finds_ident h
  | comment => exact finds_comment
  | other => exact finds_other hc hblank

/-- What is found for a row is of its class. -/
theorem toClass_of_find? {kind : Class} {cs : List Char} {l : Lexeme} (h : kind.find? cs = some l) :
    l.toClass = kind := by
  have hspelled : ∀ k : Token.Kind, k.toClass = kind → l = spelled k → l.toClass = kind := by
    rintro k rfl rfl
    rfl
  cases kind with
  | keyword => exact (keyword?_spelled h).elim fun _ => hspelled _ rfl
  | number => exact (number?_spelled h).elim fun _ hl => hspelled _ rfl hl.2
  | symbol => exact (symbol?_spelled h).elim fun _ => hspelled _ rfl
  | text => exact (text?_spelled h).elim fun _ => hspelled _ rfl
  | var => exact (var?_spelled h).elim fun _ => hspelled _ rfl
  | ident => exact (ident?_spelled h).elim fun _ => hspelled _ rfl
  | comment =>
    rw [(comment?_eq_some h).2]
    rfl
  | other => exact hspelled _ rfl ((Option.some.inj h).symm.trans (other_spelled cs))

/-- A number is neither a symbol nor a string. -/
theorem symbol?_text?_of_number? {cs : List Char} {l : Lexeme} (h : number? cs = some l) :
    symbol? cs = none ∧ text? cs = none := by
  cases cs with
  | nil => cases h
  | cons c cs =>
    have hdigit : c.isDigit = true := by
      rw [← Bool.not_eq_false]
      intro hnot
      rw [number?_cons hnot] at h
      cases h
    have hword := isWordChar_of_isDigit hdigit
    exact ⟨symbol?_cons (.inl hword), text?_cons hword⟩

/-- So the order of the table gives the same lexeme as the order of the scanner. -/
theorem findSome?_table (cs : List Char) :
    table.findSome? (Class.find? · cs) = some (first cs) := by
  rw [first]
  simp only [table, List.findSome?_cons, Class.find?]
  cases hnumber : number? cs with
  | some l =>
    obtain ⟨hsymbol, htext⟩ := symbol?_text?_of_number? hnumber
    rw [hsymbol, htext]
    cases keyword? cs <;> rfl
  | none =>
    cases keyword? cs <;> cases symbol? cs <;> cases text? cs <;> cases var? cs <;>
      cases ident? cs <;>
      cases comment? cs <;> rfl

/-- The first lexeme is what the table prescribes: the first class in it that matches, and the match
that its pattern prefers. -/
theorem first_prescribed {c : Char} (h : OpensWord row i) (hc : row[i]? = some c)
    (hblank : Text.isBlank c = false) :
    prescribed row i = some ((first (row.drop i)).toClass, (first (row.drop i)).chars.length) := by
  have hrow : ∀ kind : Class, ((ends row kind.pattern i).head?.map fun j => (kind, j - i))
      = (kind.find? (row.drop i)).map fun l => (l.toClass, l.chars.length) := by
    intro kind
    rw [finds h hc hblank kind]
    cases hfind : kind.find? (row.drop i) with
    | none => rfl
    | some l =>
      rw [Option.map_some, Option.map_some, Option.map_some, toClass_of_find? hfind,
        Nat.add_sub_cancel_left]
  rw [prescribed]
  simp only [hrow]
  exact List.map_findSome?.symm.trans (congrArg (Option.map _) (findSome?_table _))

end Lexeme

/-- Every lexeme of a source text is the one that the table prescribes at its column: its class is
the first one whose pattern matches there, and its characters are the match. The kind of its token
is spelled by them. -/
theorem Token.lexemes_prescribed (source : String) :
    ∀ row ∈ Text.lines source.toList, ∀ x ∈ Lexeme.scan 0 0 row,
      Lexeme.prescribed row x.1 = some (x.2.toClass, x.2.chars.length) ∧
        x.2.chars = (row.drop x.1).take x.2.chars.length ∧
        ∀ k, x.2.kind = some k → k.spelling.toList = x.2.chars := by
  rintro row - x hx
  have hcut := Lexeme.scan_cut row 0
  rw [List.drop_zero] at hcut
  have hopens : Lexeme.OpensWord row x.1 :=
    hcut.opens_word (Lexeme.opensWord_of_before fun _ hne => absurd rfl hne) x hx
  obtain ⟨hfirst, c, hc, hblank⟩ := hcut.first_eq x hx
  refine ⟨?_, List.prefix_iff_eq_take.1 (hcut.heads hx).isPrefix, fun k hk => ?_⟩
  · rw [Lexeme.first_prescribed hopens hc hblank, hfirst]
  · rw [← hfirst] at hk ⊢
    rw [Lexeme.first_spelled hk]
    rfl

/-- Going back over a fraction that is not the end of a word, and over a string that
is not closed. -/
theorem Token.lexemes_prescribed_back :
    Lexeme.prescribed "12.5a \"open PROGs >=A1 #e".toList 0 = some (.number, 2) ∧
      Lexeme.prescribed "12.5a \"open PROGs >=A1 #e".toList 6 = some (.other, 5) :=
  ⟨(lexemes_prescribed "12.5a \"open PROGs >=A1 #e" _ (by decide +kernel)
      (0, Lexeme.spelled (.number "12")) (by decide +kernel)).1,
    (lexemes_prescribed "12.5a \"open PROGs >=A1 #e" _ (by decide +kernel)
      (6, Lexeme.spelled (.other "\"open")) (by decide +kernel)).1⟩

end Zed

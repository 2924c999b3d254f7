import Zed.Proofs.Token.Printing

/-!
# Lines are scanned on their own

The tokens of a line do not depend on the lines around it, nor on the way it is ended. So the tokens
of two texts with a line feed between them are those of the first and then those of the second,
moved down by the lines of the first (`Token.ofSource_append_newline`).

A line feed may take a carriage return with it, and the line that it ends may be empty. Neither
makes a difference, because of what is shown first: what follows the lexemes of a line, from a
blank on, changes none of them, unless it holds a quote that closes a string
(`Lexeme.first_append`). The tokens of a text can therefore be taken from its segments, whether or
not these are lines (`Token.ofSource_eq_segments`).
-/

set_option autoImplicit false

namespace Zed

/-! ## What follows a blank -/

namespace Lexeme

theorem isBlank_eq_false_of_isDigit {c : Char} (hc : c.isDigit = true) : Text.isBlank c = false :=
  isBlank_eq_false_of_isWordChar (isWordChar_of_isDigit hc)

theorem isBlank_eq_false_of_isIdentChar {c : Char} (hc : isIdentChar c = true) :
    Text.isBlank c = false :=
  isBlank_eq_false_of_isWordChar (isWordChar_of_isIdentChar hc)

/-- Nothing is here, or a blank and anything behind it. -/
def Parted (rest : List Char) : Prop :=
  ∀ c ∈ rest.head?, Text.isBlank c = true

namespace Parted

variable {rest : List Char}

/-- What begins with a blank does not begin with a character of another class. -/
theorem eq_false (h : Parted rest) {p : Char → Bool}
    (hp : ∀ c, p c = true → Text.isBlank c = false) {c : Char} (hc : c ∈ rest.head?) :
    p c = false := by
  rw [← Bool.not_eq_true]
  intro hpc
  have hblank := h c hc
  rw [hp c hpc] at hblank
  cases hblank

/-- A run of characters that are not blank ends before a blank. -/
theorem takeWhile_append (h : Parted rest) {p : Char → Bool}
    (hp : ∀ c, p c = true → Text.isBlank c = false) (cs : List Char) :
    (cs ++ rest).takeWhile p = cs.takeWhile p := by
  induction cs with
  | nil =>
    cases rest with
    | nil => rfl
    | cons c rest => exact List.takeWhile_cons_of_neg (by rw [h.eq_false hp rfl]; decide)
  | cons c cs ih => rw [List.cons_append, List.takeWhile_cons, List.takeWhile_cons, ih]

/-- A run that ends in front of a blank does not depend on what follows. -/
theorem dropWhile_append (h : Parted rest) {p : Char → Bool}
    (hp : ∀ c, p c = true → Text.isBlank c = false) (cs : List Char) :
    (cs ++ rest).dropWhile p = cs.dropWhile p ++ rest := by
  have hsplit : cs.takeWhile p ++ (cs ++ rest).dropWhile p
      = cs.takeWhile p ++ (cs.dropWhile p ++ rest) := by
    rw [← h.takeWhile_append hp cs, List.takeWhile_append_dropWhile, h.takeWhile_append hp cs,
      ← List.append_assoc, List.takeWhile_append_dropWhile]
  exact List.append_cancel_left hsplit

/-- The end of a word does not depend on what follows a blank. -/
theorem endsWord_append (h : Parted rest) (cs : List Char) :
    endsWord (cs ++ rest) = endsWord cs := by
  cases cs with
  | cons c cs => rfl
  | nil =>
    cases rest with
    | nil => rfl
    | cons c rest =>
      have hword : isWordChar c = false := h.eq_false (fun _ => isBlank_eq_false_of_isWordChar) rfl
      rw [List.nil_append, endsWord, List.head?_cons, Option.any_some, hword]
      rfl

/-! Each class finds the same lexeme with and without what follows the blank. -/

/-- A keyword does not depend on what follows a blank. -/
theorem keyword?_append (h : Parted rest) (cs : List Char) :
    keyword? (cs ++ rest) = keyword? cs := by
  rw [keyword?, h.takeWhile_append fun _ => isBlank_eq_false_of_isWordChar]
  rfl

theorem symbol?_append (h : Parted rest) (cs : List Char) : symbol? (cs ++ rest) = symbol? cs := by
  have hstarts : ∀ sign : List Char, (∀ c ∈ sign, Text.isBlank c = false) →
      sign.isPrefixOf (cs ++ rest) = sign.isPrefixOf cs := by
    intro sign hsign
    induction sign generalizing cs with
    | nil => rfl
    | cons c sign ih =>
      obtain ⟨hc, hsign⟩ := List.forall_mem_cons.1 hsign
      cases cs with
      | cons d cs =>
        rw [List.cons_append, List.isPrefixOf_cons_cons, List.isPrefixOf_cons_cons, ih cs hsign]
      | nil =>
        cases rest with
        | nil => rfl
        | cons d rest =>
          have hne : (c == d) = false := by
            rw [beq_eq_false_iff_ne]
            rintro rfl
            have hblank := h c rfl
            rw [hc] at hblank
            cases hblank
          rw [List.nil_append, List.isPrefixOf_cons_cons, hne]
          rfl
  have hsigns : ∀ s : Symbol, ∀ c ∈ s.spelling.toList, Text.isBlank c = false := by
    intro s c hc
    have hall : (s.spelling.toList.all fun c => !Text.isBlank c) = true := by cases s <;> rfl
    have hnot := List.all_eq_true.1 hall c hc
    rwa [Bool.not_eq_true'] at hnot
  rw [symbol?, symbol?]
  simp only [hstarts _ (hsigns _)]

/-- A fraction does not depend on what follows a blank. -/
theorem fraction?_append (h : Parted rest) (cs : List Char) :
    fraction? (cs ++ rest) = fraction? cs := by
  cases cs with
  | nil =>
    cases rest with
    | nil => rfl
    | cons c rest =>
      have hc : c ≠ '.' := by
        rintro rfl
        exact absurd (h '.' rfl) (by decide)
      rw [List.nil_append, fraction?.eq_def]
      split
      · next heq => exact absurd (List.cons.inj heq).1 hc
      · rfl
  | cons c cs =>
    rw [List.cons_append, fraction?.eq_def, fraction?.eq_def (c :: cs)]
    split
    · next heq =>
      cases heq
      simp only [h.takeWhile_append fun _ => isBlank_eq_false_of_isDigit,
        h.dropWhile_append fun _ => isBlank_eq_false_of_isDigit, h.endsWord_append]
    · next hc =>
      split
      · next heq =>
        cases heq
        exact absurd rfl (hc _)
      · rfl

/-- A numeral does not depend on what follows a blank. -/
theorem number?_append (h : Parted rest) (cs : List Char) : number? (cs ++ rest) = number? cs := by
  simp only [number?, h.takeWhile_append fun _ => isBlank_eq_false_of_isDigit,
    h.dropWhile_append fun _ => isBlank_eq_false_of_isDigit, h.fraction?_append, h.endsWord_append]

theorem var?_append (h : Parted rest) (cs : List Char) : var? (cs ++ rest) = var? cs := by
  cases cs with
  | cons c cs =>
    simp only [List.cons_append, var?, h.takeWhile_append fun _ => isBlank_eq_false_of_isDigit,
      h.dropWhile_append fun _ => isBlank_eq_false_of_isDigit, h.endsWord_append]
  | nil =>
    cases rest with
    | nil => rfl
    | cons c rest =>
      have hupper : c.isUpper = false := by
        refine h.eq_false (fun d hd => isBlank_eq_false_of_isIdentChar ?_) rfl
        rw [isIdentChar_eq, hd, Bool.true_or, Bool.true_or]
      rw [List.nil_append, var?, if_neg]
      · rfl
      · rw [hupper]
        exact fun hname => Bool.false_ne_true hname.1

theorem ident?_append (h : Parted rest) (cs : List Char) : ident? (cs ++ rest) = ident? cs := by
  simp only [ident?, h.takeWhile_append fun _ => isBlank_eq_false_of_isIdentChar,
    h.dropWhile_append fun _ => isBlank_eq_false_of_isIdentChar, h.endsWord_append]

/-- What is read up to a blank does not depend on what follows it. -/
theorem other_append (h : Parted rest) (cs : List Char) : other (cs ++ rest) = other cs := by
  have hp : ∀ c, (!Text.isBlank c) = true → Text.isBlank c = false := fun c hc => by
    rwa [Bool.not_eq_true'] at hc
  rw [other, other, h.takeWhile_append hp]

end Parted

/-- A string that is closed stays as it is, whatever follows. -/
theorem text?_append_of_eq_some {cs : List Char} {l : Lexeme} (rest : List Char)
    (h : text? cs = some l) :
    text? (cs ++ rest) = some l := by
  rw [text?.eq_def] at h
  split at h
  · next cs =>
    dsimp only at h
    split at h
    · next more hmore =>
      cases h
      have hsplit := cs.takeWhile_append_dropWhile (p := isBodyChar)
      have hbody : ∀ c ∈ cs.takeWhile isBodyChar, isBodyChar c = true :=
        List.all_eq_true.1 List.all_takeWhile
      rw [hmore] at hsplit
      generalize cs.takeWhile isBodyChar = body at hsplit hbody
      rw [← hsplit, List.cons_append, List.append_assoc, List.cons_append, text?,
        List.takeWhile_append_of_pos hbody, List.dropWhile_append_of_pos hbody,
        List.takeWhile_cons_of_neg (by decide), List.dropWhile_cons_of_neg (by decide),
        List.append_nil]
      rfl
    · cases h
  · cases h

/-- A string that is not closed stays open if no quote follows. -/
theorem text?_append {rest : List Char} (h : '"' ∉ rest) {cs : List Char} (hne : cs ≠ []) :
    text? (cs ++ rest) = text? cs := by
  cases htext : text? cs with
  | some l => exact text?_append_of_eq_some rest htext
  | none =>
    obtain ⟨c, cs, rfl⟩ := List.exists_cons_of_ne_nil hne
    rw [List.cons_append, text?.eq_def]
    split
    · next heq =>
      cases heq
      dsimp only
      split
      · next more hmore =>
        -- The closing quote would stand in `cs`, and then close it there.
        rw [List.dropWhile_append] at hmore
        split at hmore
        · have hmem : '"' ∈ rest.dropWhile isBodyChar := hmore ▸ List.mem_cons_self
          exact absurd ((List.dropWhile_sublist _).subset hmem) h
        · next hne =>
          rw [text?] at htext
          cases hdrop : cs.dropWhile isBodyChar with
          | nil =>
            rw [hdrop] at hne
            exact absurd rfl hne
          | cons d ds =>
            rw [hdrop] at hmore htext
            cases hmore
            cases htext
      · rfl
    · rfl

/-- What begins with a number sign is a comment. -/
theorem first_sign (cs : List Char) : first ('#' :: cs) = ⟨none, '#' :: cs⟩ := by
  have hsymbol : symbol? ('#' :: cs) = none := rfl
  rw [first, keyword?_cons (by decide), hsymbol, number?_cons (by decide)]
  rfl

/-- The lexeme at the beginning of a line stays the same if something is put behind the line that
begins with a blank and closes no string. A comment is the exception: it takes everything. -/
theorem first_append {c : Char} {cs rest : List Char} (h : Parted rest) (hsign : c ≠ '#')
    (htext : text? (c :: cs ++ rest) = text? (c :: cs)) :
    first (c :: cs ++ rest) = first (c :: cs) := by
  have hcomment : ∀ ds, comment? (c :: ds) = none := fun ds => by
    rw [comment?, List.head?_cons, if_neg]
    rintro ⟨⟩
    exact hsign rfl
  rw [first, first, h.keyword?_append, h.symbol?_append, htext, h.number?_append, h.var?_append,
    h.ident?_append, h.other_append, List.cons_append, hcomment, hcomment]

/-! ## Behind the end of a line -/

/-- This can be put behind a line: it begins with a blank, closes no string, and has no
token in it. -/
structure Trailing (rest : List Char) : Prop where
  parted : Parted rest
  unquoted : '"' ∉ rest
  silent : ∀ column, ∀ x ∈ scan column 0 rest, x.2.kind = none

/-- What is put behind a line has no influence on its tokens. -/
theorem scan_append {rest : List Char} (h : Trailing rest) (number column : Nat) (cs : List Char) :
    (scan column 0 (cs ++ rest)).filterMap (Token.ofLexeme? number) =
      (scan column 0 cs).filterMap (Token.ofLexeme? number) := by
  -- Every lexeme has a character, so what is left of the line gets shorter.
  induction hlength : cs.length using Nat.strongRecOn generalizing column cs with
  | _ length ih =>
    subst hlength
    cases cs with
    | nil =>
      rw [List.nil_append, scan, List.filterMap_nil, List.filterMap_eq_nil_iff]
      intro x hx
      rw [Token.ofLexeme?, h.silent column x hx]
      rfl
    | cons c cs =>
      by_cases hblank : Text.isBlank c = true
      · rw [List.cons_append, scan_cons_of_blank hblank, scan_cons_of_blank hblank]
        exact ih _ (Nat.lt_succ_self _) _ _ rfl
      · rw [Bool.not_eq_true] at hblank
        by_cases hsign : c = '#'
        · subst hsign
          -- Two comments, with nothing behind them.
          rw [List.cons_append, scan_cons_of_not_blank hblank,
            scan_cons_of_not_blank hblank, first_sign, first_sign, List.drop_length,
            List.drop_length]
          rfl
        · have hfirst :=
            first_append h.parted hsign (text?_append h.unquoted (List.cons_ne_nil c cs))
          have hheads : Heads (first (c :: cs)).chars (c :: cs) := first_heads hblank
          rw [List.cons_append] at hfirst ⊢
          rw [scan_cons_of_not_blank hblank, scan_cons_of_not_blank hblank, hfirst,
            ← List.cons_append, List.drop_append_of_le_length hheads.isPrefix.length_le,
            List.filterMap_cons, List.filterMap_cons, ih _ ?_ _ _ rfl]
          have hlength := List.length_pos_iff.2 hheads.ne_nil
          rw [List.length_drop, List.length_cons]
          omega

/-- Blanks can be put behind a line. -/
theorem trailing_of_blank {rest : List Char} (h : ∀ c ∈ rest, Text.isBlank c = true) :
    Trailing rest where
  parted c hc := h c (List.mem_of_mem_head? hc)
  unquoted hmem := absurd (h _ hmem) (by decide)
  silent := by
    induction rest with
    | nil => exact fun _ x hx => absurd hx List.not_mem_nil
    | cons c rest ih =>
      obtain ⟨hc, hrest⟩ := List.forall_mem_cons.1 h
      intro column
      rw [scan_cons_of_blank hc]
      exact ih hrest (column + 1)

end Lexeme

namespace Text

theorem segments_ne_nil (text : List Char) : segments text ≠ [] := by
  cases text with
  | nil => exact List.cons_ne_nil _ _
  | cons c text =>
    rw [segments_cons, cutBefore]
    split
    · exact List.cons_ne_nil _ _
    · rw [ne_eq, List.modifyHead_eq_nil_iff]
      exact segments_ne_nil text

/-- The parts of two texts with a line break between them are those of both texts. -/
theorem segments_append (a b : List Char) :
    segments (a ++ '\n' :: b) = segments a ++ segments b := by
  induction a with
  | nil => rfl
  | cons c a ih =>
    rw [List.cons_append, segments_cons, segments_cons, ih, cutBefore, cutBefore]
    split
    · rfl
    · obtain ⟨part, parts, hparts⟩ := List.exists_cons_of_ne_nil (segments_ne_nil a)
      rw [hparts]
      rfl

/-- There is one part more than there are line breaks. -/
theorem length_segments (text : List Char) : (segments text).length = text.count '\n' + 1 := by
  induction text with
  | nil => rfl
  | cons c text ih =>
    rw [segments_cons, cutBefore, List.count_cons]
    split
    · next hc => rw [List.length_cons, ih, hc, if_pos (beq_self_eq_true _)]
    · next hc => rw [List.length_modifyHead, ih, if_neg (by rwa [beq_iff_eq]), Nat.add_zero]

end Text

/-! ## Lines and segments -/

namespace Token

/-- A line has the same tokens with and without the carriage return at its end. -/
theorem ofLine_withoutReturn (number : Nat) (part : List Char) :
    ofLine number (Text.withoutReturn part) = ofLine number part := by
  rw [Text.withoutReturn]
  split
  · next hreturn =>
    obtain ⟨row, rfl⟩ := List.getLast?_eq_some_iff.1 hreturn
    have htrailing : Lexeme.Trailing ['\r'] := Lexeme.trailing_of_blank (List.all_eq_true.1 rfl)
    rw [List.dropLast_concat, ofLine, ofLine, Lexeme.scan_append htrailing]
  · rfl

/-- The tokens of rows that are numbered from `number` on. -/
def ofRows (number : Nat) (rows : List (List Char)) : List Token :=
  (rows.zipIdx number).flatMap fun numbered => ofLine numbered.2 numbered.1

theorem ofRows_cons (number : Nat) (row : List Char) (rows : List (List Char)) :
    ofRows number (row :: rows) = ofLine number row ++ ofRows (number + 1) rows := rfl

/-- The tokens of rows in a row are those of both parts, the second one with later line numbers. -/
theorem ofRows_append (number : Nat) (rows others : List (List Char)) :
    ofRows number (rows ++ others)
      = ofRows number rows ++ ofRows (number + rows.length) others := by
  rw [ofRows, List.zipIdx_append, List.flatMap_append]
  rfl

/-- The tokens of a text are those of its segments, each numbered as a line. -/
theorem ofSource_eq_segments (source : String) :
    ofSource source = ofRows 1 (Text.segments source.toList) := by
  show ofRows 1 (Text.linesOfSegments (Text.segments source.toList)) = _
  generalize Text.segments source.toList = parts
  generalize 1 = number
  induction parts generalizing number with
  | nil => rfl
  | cons part parts ih =>
    cases parts with
    | nil =>
      rw [Text.linesOfSegments]
      split
      · next hempty =>
        rw [hempty]
        rfl
      · rfl
    | cons next parts =>
      have hlines : Text.linesOfSegments (part :: next :: parts)
          = Text.withoutReturn part :: Text.linesOfSegments (next :: parts) := rfl
      rw [hlines, ofRows_cons, ofRows_cons, ih, ofLine_withoutReturn]

/-- The token on a line further down. -/
def lower (lines : Nat) (t : Token) : Token :=
  { t with position := ⟨t.position.line + lines, t.position.column⟩ }

/-- A line further down has the same tokens, further down. -/
theorem ofLine_add (number lines : Nat) (row : List Char) :
    ofLine (number + lines) row = (ofLine number row).map (lower lines) := by
  rw [ofLine, ofLine, List.map_filterMap]
  congr 1
  funext x
  rw [ofLexeme?, ofLexeme?, Option.map_map]
  rfl

/-- Rows further down have the same tokens, further down. -/
theorem ofRows_add (number lines : Nat) (rows : List (List Char)) :
    ofRows (number + lines) rows = (ofRows number rows).map (lower lines) := by
  induction rows generalizing number with
  | nil => rfl
  | cons row rows ih =>
    rw [ofRows_cons, ofRows_cons, List.map_append, ofLine_add, Nat.add_right_comm, ih]

/-- The tokens of two texts with a line feed between them are the tokens of the first and those of
the second, which stand as many lines further down as the first and that line feed take. -/
theorem ofSource_append_newline (a b : String) :
    ofSource (a ++ "\n" ++ b)
      = ofSource a ++ (ofSource b).map (lower (1 + a.toList.count '\n')) := by
  have hsegments : Text.segments (a ++ "\n" ++ b).toList
      = Text.segments a.toList ++ Text.segments b.toList := by
    rw [String.toList_append, String.toList_append, List.append_assoc]
    exact Text.segments_append a.toList b.toList
  rw [ofSource_eq_segments, ofSource_eq_segments a, ofSource_eq_segments b, hsegments,
    ofRows_append, Text.length_segments, Nat.add_comm (a.toList.count '\n'), ofRows_add]

end Token

end Zed

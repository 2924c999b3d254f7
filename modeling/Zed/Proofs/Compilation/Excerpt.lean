import Zed.Proofs.Compilation.Gate
import Zed.Proofs.Scope.Order
import Zed.Proofs.Script.Layout
import Zed.Proofs.Token.Isolation

/-!
# Where the caret points

The excerpt of a diagnostic shows the line that it is about, and under that line a caret. The caret
stands under the first character of the lexeme that the message quotes
(`Compilation.excerpt_points`). Three counts have to agree for this: lines and columns as the tokens
carry them, the position that a report takes from a token, and the line that an excerpt picks
together with the width of its margin.

Every report with a position is about a token: a fault blames one, and an undefined read has the
name and the position of a variable, whose lexeme is its name. Neither a line nor a message has a
line feed in it, so that an excerpt has exactly four rows.
-/

set_option autoImplicit false

namespace Zed

/-! ## Texts without line feeds -/

namespace Text

/-- A part of a text between two line breaks has no line break in it. -/
theorem flat_of_mem_segments {text part : List Char} (h : part ∈ segments text) : '\n' ∉ part := by
  induction text generalizing part with
  | nil =>
    rw [segments_nil, List.mem_singleton] at h
    rw [h]
    exact List.not_mem_nil
  | cons c text ih =>
    rw [segments_cons, cutBefore] at h
    -- A line feed opens a segment; any other character goes to the front of the first one.
    split at h
    · rcases List.mem_cons.1 h with rfl | h
      · exact List.not_mem_nil
      · exact ih h
    · next hc =>
      cases hsegments : segments text with
      | nil =>
        rw [hsegments] at h
        cases h
      | cons first others =>
        rw [hsegments] at ih h
        rcases List.mem_cons.1 h with rfl | h
        · rw [List.mem_cons, not_or]
          exact ⟨Ne.symm hc, ih List.mem_cons_self⟩
        · exact ih (List.mem_cons_of_mem _ h)

theorem subset_withoutReturn (part : List Char) : withoutReturn part ⊆ part := by
  rw [withoutReturn]
  split
  · exact List.dropLast_subset part
  · exact List.Subset.refl part

theorem flat_of_mem_linesOfSegments {parts : List (List Char)}
    (hparts : ∀ part ∈ parts, '\n' ∉ part) {row : List Char} (h : row ∈ linesOfSegments parts) :
    '\n' ∉ row := by
  induction parts with
  | nil => cases h
  | cons part parts ih =>
    cases parts with
    | nil =>
      rw [linesOfSegments] at h
      split at h
      · cases h
      · rw [List.mem_singleton.1 h]
        exact hparts part List.mem_cons_self
    | cons next parts =>
      rw [linesOfSegments] at h
      · rcases List.mem_cons.1 h with rfl | h
        · exact fun hmem => hparts part List.mem_cons_self (subset_withoutReturn part hmem)
        · exact ih (fun other hother => hparts other (List.mem_cons_of_mem _ hother)) h
      · intro hnil
        cases hnil

/-- A line of a text has no line break in it. -/
theorem flat_of_mem_lines {text row : List Char} (h : row ∈ lines text) : '\n' ∉ row :=
  flat_of_mem_linesOfSegments (fun _ => flat_of_mem_segments) h

end Text

open Python (flat_append flat_of_isDigit)

/-- What the grammar expects is said on one line. -/
theorem Expectation.flat_wording (wanted : Expectation) : '\n' ∉ wanted.wording.toList := by
  cases wanted with
  | keyword word => cases word <;> decide
  | symbol sign => cases sign <;> decide
  | _ => decide

namespace Diagnostic

theorem flat_repr (n : Nat) : '\n' ∉ n.repr.toList := by
  rw [Nat.toList_repr]
  exact flat_of_isDigit Binary64.isDigit_toDigits

theorem flat_place (p : Position) : '\n' ∉ (place p).toList :=
  flat_append (flat_append (flat_append (flat_append (by decide) (flat_repr p.line)) (by decide))
    (flat_repr p.column)) (by decide)

end Diagnostic

/-! ## Lexemes of variables -/

/-- The lexeme of a variable is its name. -/
theorem Lexeme.chars_of_var {cs : List Char} {name : String}
    (h : (first cs).kind = some (.var name)) :
    String.ofList (first cs).chars = name := by
  rw [first_spelled h, spelled, Token.Kind.spelling, String.ofList_toList]

/-- A variable is written as its name. -/
theorem Token.lexeme_of_var {source : String} {t : Token} {name : String} (ht : t ∈ ofSource source)
    (hkind : t.kind = .var name) : t.lexeme = name := by
  obtain ⟨n, row, -, ht⟩ := mem_ofSource.1 ht
  obtain ⟨x, hx, kind, hx', rfl⟩ := mem_ofLine.1 ht
  -- A lexeme of a cut is the first one of the line from its column on.
  obtain ⟨hfirst, -⟩ := (Lexeme.scan_cut row 0).first_eq x hx
  cases hkind
  rw [← hfirst] at hx'
  show String.ofList x.2.chars = name
  rw [← hfirst]
  exact Lexeme.chars_of_var hx'

/-! ## Rows of an excerpt -/

namespace Diagnostic

/-- The margin of a row without a number. -/
def gutter (p : Position) : List Char :=
  List.replicate p.line.repr.length ' ' ++ [' ', '|']

/-- The margin of a row that is numbered. -/
def margin (p : Position) : List Char :=
  p.line.repr.toList ++ [' ', '|', ' ']

/-- The row of the caret. -/
def caretRow (p : Position) : List Char :=
  gutter p ++ List.replicate (p.column + 1) ' ' ++ ['^']

/-- The margin of a numbered row is one blank wider than the one above and below it. -/
theorem length_gutter (p : Position) : (gutter p).length + 1 = (margin p).length := by
  rw [gutter, margin, List.length_append, List.length_replicate, List.length_append,
    String.length_toList]
  rfl

/-- There is one caret in its row, under the column of the source line. -/
theorem getElem?_caretRow (p : Position) (i : Nat) :
    (caretRow p)[i]? = some '^' ↔ i = (margin p).length + p.column := by
  have hlength : (gutter p ++ List.replicate (p.column + 1) ' ').length
      = (margin p).length + p.column := by
    rw [List.length_append, List.length_replicate, ← length_gutter]
    omega
  rw [caretRow, ← hlength]
  constructor
  · intro hi
    rcases Nat.lt_trichotomy i (gutter p ++ List.replicate (p.column + 1) ' ').length with
      hlt | heq | hgt
    · -- In front of the caret there are spaces and a bar.
      rw [List.getElem?_append_left hlt] at hi
      have hmem := List.mem_of_getElem? hi
      simp [gutter, List.mem_replicate] at hmem
    · exact heq
    · rw [List.getElem?_eq_none (by rw [List.length_append]; exact hgt)] at hi
      cases hi
  · intro hi
    rw [hi]
    exact List.getElem?_concat_length

theorem pointer_toList (row : List Char) (p : Position) :
    (pointer row p).toList
      = gutter p ++ '\n' :: (margin p ++ row ++ '\n' :: (caretRow p ++ ['\n'])) := by
  simp [pointer, gutter, margin, caretRow, spaces, String.toList_append, List.replicate_succ]

variable {d : Diagnostic} {source : String} {row : List Char} {p : Position}

theorem excerpt_toList :
    (d.excerpt source).toList = ("error: " ++ d.message).toList ++ '\n' ::
      ((d.position.bind fun p => (Text.lines source.toList)[p.line - 1]?.map
          fun row => pointer row p).getD "").toList := by
  simp [excerpt, excerptFrom, String.toList_append]

/-- An excerpt with a position is the message, an empty margin, the line and the caret below it. -/
theorem segments_excerpt (hposition : d.position = some p)
    (hrow : (Text.lines source.toList)[p.line - 1]? = some row) (hflat : '\n' ∉ d.message.toList) :
    Text.segments (d.excerpt source).toList
      = [("error: " ++ d.message).toList, gutter p, margin p ++ row, caretRow p, []] := by
  -- No row has a line feed in it, so the text is cut between the rows and nowhere else.
  have hgutter : '\n' ∉ gutter p := by simp [gutter, List.mem_replicate]
  have hmargin : '\n' ∉ margin p ++ row := by
    rw [margin, List.mem_append, List.mem_append, not_or, not_or]
    exact ⟨⟨flat_repr p.line, by decide⟩, Text.flat_of_mem_lines (List.mem_of_getElem? hrow)⟩
  have hcaret : '\n' ∉ caretRow p := by simp [caretRow, hgutter, List.mem_replicate]
  rw [excerpt_toList, hposition, Option.bind_some, hrow, Option.map_some, Option.getD_some,
    pointer_toList, Text.segments_append_newline _ (flat_append (by decide) hflat),
    Text.segments_append_newline _ hgutter, Text.segments_append_newline _ hmargin,
    Text.segments_append_newline _ hcaret, Text.segments_nil]

/-- An excerpt without a position is the message alone. -/
theorem segments_excerpt_of_no_position (hposition : d.position = none)
    (hflat : '\n' ∉ d.message.toList) :
    Text.segments (d.excerpt source).toList = [("error: " ++ d.message).toList, []] := by
  rw [excerpt_toList, hposition, Text.segments_append_newline _ (flat_append (by decide) hflat)]
  rfl

/-! ## Tokens of reports -/

/-- The diagnostic says that a token is misplaced, or that the variable which it
names is undefined. -/
inductive Concerns (t : Token) : Diagnostic → Prop
  | misplaced (wanted : Expectation) : Concerns t (wanted.blame t)
  | undefinedRead : Concerns t (.undefinedRead t.lexeme t.position)

variable {t : Token}

/-- The position of a diagnostic is that of the token it concerns. -/
theorem Concerns.position (h : Concerns t d) : d.position = some t.position := by
  cases h <;> rfl

/-- The message quotes the token it concerns, and says where it stands. -/
theorem Concerns.quotes (h : Concerns t d) :
    ∃ fault, d.message = fault ++ "'" ++ t.lexeme ++ "'" ++ place t.position := by
  cases h with
  | misplaced wanted =>
    refine ⟨"Expected " ++ wanted.wording ++ " instead of ", ?_⟩
    have hquote : " instead of '" = " instead of " ++ "'" := rfl
    rw [Expectation.blame, Diagnostic.misplaced, Diagnostic.malformed, hquote,
      ← String.append_assoc]
  | undefinedRead => exact ⟨"Undefined variable ", rfl⟩

/-- The message is on one line, if the token it quotes is. -/
theorem Concerns.flat_message (h : Concerns t d) (hlexeme : '\n' ∉ t.lexeme.toList) :
    '\n' ∉ d.message.toList := by
  cases h with
  | misplaced wanted =>
    have hwanted : '\n' ∉ ("Expected " ++ wanted.wording ++ " instead of '").toList :=
      flat_append (flat_append (by decide) wanted.flat_wording) (by decide)
    exact flat_append (flat_append (flat_append hwanted hlexeme) (by decide))
      (flat_place t.position)
  | undefinedRead =>
    exact flat_append (flat_append (flat_append (by decide) hlexeme) (by decide))
      (flat_place t.position)

/-- The diagnostic is about a token of the source that stands on the line `row`, and its excerpt
shows that line with a caret under the first character of the token. -/
structure PointsAt (d : Diagnostic) (source : String) (t : Token) (row : List Char) : Prop where
  token : t ∈ Token.ofSource source ∧ t.lexeme ≠ ""
  position : d.position = some t.position
  quotes : ∃ fault, d.message = fault ++ "'" ++ t.lexeme ++ "'" ++ place t.position
  line : 1 ≤ t.position.line ∧ (Text.lines source.toList)[t.position.line - 1]? = some row
  column : t.position.column < row.length
  rows : Text.segments (d.excerpt source).toList = [("error: " ++ d.message).toList,
    gutter t.position, margin t.position ++ row, caretRow t.position, []]
  caret : ∀ i, (caretRow t.position)[i]? = some '^' ↔
    i = (margin t.position).length + t.position.column
  /-- The lexeme begins where the caret stands. -/
  lexeme : t.lexeme.toList <+: (margin t.position ++ row).drop
    ((margin t.position).length + t.position.column)

/-- A diagnostic about a token of a source text points at it in its line. -/
theorem Concerns.exists_pointsAt (h : Concerns t d) (ht : t ∈ Token.ofSource source) :
    ∃ row, d.PointsAt source t row := by
  obtain ⟨hne, hline, row, hrow, hlexeme⟩ := Token.exists_row ht
  have hcolumn : t.position.column < row.length := by
    by_contra hle
    rw [List.drop_eq_nil_of_le (Nat.le_of_not_lt hle), List.prefix_nil] at hlexeme
    exact hne (String.toList_eq_nil_iff.1 hlexeme)
  -- The lexeme is a part of a line, and so has no line feed in it either.
  have hflat : '\n' ∉ t.lexeme.toList := fun hmem =>
    Text.flat_of_mem_lines (List.mem_of_getElem? hrow) (List.mem_of_mem_drop (hlexeme.mem hmem))
  refine ⟨row, ⟨ht, hne⟩, h.position, h.quotes, ⟨hline, hrow⟩, hcolumn,
    segments_excerpt h.position hrow (h.flat_message hflat), getElem?_caretRow t.position, ?_⟩
  rwa [List.drop_length_add_append]

end Diagnostic

/-- Unless it says that the tokens ran out, a report concerns a token. -/
theorem Compilation.concerns_of_mem_diagnostics {source : String} {d : Diagnostic}
    (h : d ∈ (ofSource source).diagnostics) :
    d = .truncated ∨ ∃ t ∈ Token.ofSource source, d.Concerns t := by
  obtain ⟨added, hadded, hreports⟩ := reports_eq (Token.ofSource source)
  rw [ofSource_diagnostics, hreports, List.mem_append] at h
  rcases h with hread | hadd
  · obtain ⟨t, ht, hblames⟩ := (Reading.ofTokens_charges _).exists_blames d hread
    obtain ⟨wanted, rfl⟩ := hblames.exists_blame
    exact .inr ⟨t, ht, .misplaced wanted⟩
  · cases hadded with
    | truncated => exact .inl (List.mem_singleton.1 hadd)
    | @checked p _ hprogram =>
      obtain ⟨vs, hreads, hsublist⟩ := p.exists_undefinedReads_eq
      rw [hreads, List.mem_map] at hadd
      obtain ⟨v, hv, rfl⟩ := hadd
      -- What is reported was read from a token, and the lexeme of a variable is the name
      -- in the report.
      have hmem := (hsublist.trans (Reading.variables_sublist hprogram)).subset hv
      obtain ⟨t, ht, hvar⟩ := List.mem_filterMap.1 hmem
      obtain ⟨hkind, hposition⟩ := Token.occurrence?_eq_some hvar
      have hlexeme : t.lexeme = v.name := Token.lexeme_of_var ht hkind
      refine .inr ⟨t, ht, ?_⟩
      rw [Variable.report, ← hlexeme, ← hposition]
      exact .undefinedRead
    | refused => cases hadd

/-- A report with a position points at a token of the source, which its message quotes: the excerpt
has four rows, and the caret in the last of them stands under the first character of that token. A
report without a position is shown by its message alone. -/
theorem Compilation.excerpt_points {source : String} {d : Diagnostic}
    (h : d ∈ (ofSource source).diagnostics) :
    (d.position = none → Text.segments (d.excerpt source).toList
      = [("error: " ++ d.message).toList, []]) ∧
    ∀ p, d.position = some p → ∃ t row, t.position = p ∧ d.PointsAt source t row := by
  rcases concerns_of_mem_diagnostics h with rfl | ⟨t, ht, hconcerns⟩
  · refine ⟨fun hnone => Diagnostic.segments_excerpt_of_no_position hnone (by decide),
      fun p hp => ?_⟩
    cases hp
  · rw [hconcerns.position]
    refine ⟨nofun, fun p hp => ?_⟩
    obtain ⟨row, hpoints⟩ := hconcerns.exists_pointsAt ht
    exact ⟨t, row, Option.some.inj hp, hpoints⟩

/-- A line whose number has two digits, with a wide blank and a letter in front of
what is undefined. -/
def wideBlankSource : String :=
  String.join ["PROG wide\n\n\n\n\n\n\n\n\n", "\u3000OUT[1] é : = A B: ", "ENDPROG"]

theorem wideBlankSource_excerpt_points :
    ((Diagnostic.undefinedRead "B" ⟨10, 16⟩ ∈ (Compilation.ofSource wideBlankSource).diagnostics ∧
      ∃ t row, t.position = ⟨10, 16⟩ ∧
        (Diagnostic.undefinedRead "B" ⟨10, 16⟩).PointsAt wideBlankSource t row) ∧
    (Diagnostic.misplaced "':'" ⟨.other "é", "é", ⟨10, 8⟩⟩
      ∈ (Compilation.ofSource wideBlankSource).diagnostics ∧
      ∃ t row, t.position = ⟨10, 8⟩ ∧
        (Diagnostic.misplaced "':'" ⟨.other "é", "é", ⟨10, 8⟩⟩).PointsAt wideBlankSource t row)) ∧
    Diagnostic.truncated ∈ (Compilation.ofSource "PROG").diagnostics ∧
      Text.segments (Diagnostic.truncated.excerpt "PROG").toList
        = ["error: Unexpected end of file.".toList, []] := by
  have hwide : Diagnostic.undefinedRead "B" ⟨10, 16⟩
      ∈ (Compilation.ofSource wideBlankSource).diagnostics ∧
      Diagnostic.misplaced "':'" ⟨.other "é", "é", ⟨10, 8⟩⟩
        ∈ (Compilation.ofSource wideBlankSource).diagnostics := by
    rw [Compilation.ofSource_diagnostics, wideBlankSource, Token.ofSource_join]
    decide +kernel
  have hshort : Diagnostic.truncated ∈ (Compilation.ofSource "PROG").diagnostics := by
    rw [Compilation.ofSource_diagnostics]
    decide +kernel
  exact ⟨⟨⟨hwide.1, (Compilation.excerpt_points hwide.1).2 _ rfl⟩,
    hwide.2, (Compilation.excerpt_points hwide.2).2 _ rfl⟩,
    hshort, (Compilation.excerpt_points hshort).1 rfl⟩

end Zed

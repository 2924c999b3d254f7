import Zed.Proofs.Token.Margins
import Zed.Proofs.Token.Offsets

/-!
# A cursor over the bytes of a text

The text is read by a cursor: the line it stands in, a byte offset in this line, and the lines that
are still to come. Asked for a token, the cursor takes turns. In each turn it passes the blanks at
its offset. At the end of the line it goes on to the next line, or is finished if there is none;
otherwise it takes the lexeme at its offset, and goes on if this is a comment. All accesses are
checked (`Zed.Bytes`), so a turn has no result where one of them is not allowed.

One invariant carries everything (`Fits`): some characters of the line stand before the offset,
their number is the column, and no word is cut there. `Fits.turn?_cases` says what a turn does to a
cursor that fits. Blanks keep the invariant because a blank is no character of a word, lexemes
because of `Lexeme.opensWord_behind`. By induction on the turns, every cursor that is reached fits;
and by induction on what is left to read, every question is answered. The tokens that are answered
are those of `Token.ofSource`.
-/

set_option autoImplicit false

namespace Zed

open Bytes

/-- A place in a text. -/
structure Cursor where
  /-- The lines behind the current one. -/
  lines : List (List Char)
  /-- The characters of the current line. -/
  current : List Char
  /-- The number of bytes of the current line that are already read. -/
  offset : Nat
  /-- The number of the current line. -/
  line : Nat
  /-- The number of characters of the current line that are already read. -/
  column : Nat
  deriving DecidableEq, Repr

/-- What comes of a turn: the text is finished, or the cursor goes on, or there is a token. -/
inductive Cursor.Turn where
  | finished (next : Cursor)
  | goesOn (next : Cursor)
  | yields (t : Token) (next : Cursor)
  deriving DecidableEq, Repr

namespace Cursor

/-- The cursor behind a turn. -/
def Turn.next : Turn → Cursor
  | finished next => next
  | goesOn next => next
  | yields _ next => next

/-- At the beginning of a text, which is the beginning of an empty line if the text has no line. -/
def start (source : String) : Cursor :=
  ⟨(Text.lines source.toList).tail, (Text.lines source.toList).headD [], 0, 1, 0⟩

/-- Behind some more characters of the current line. -/
def pass (s : Cursor) (chars : List Char) : Cursor :=
  { s with offset := s.offset + size chars, column := s.column + chars.length }

/-- Passes the blanks at the offset. -/
def skipBlanks? (s : Cursor) : Option Cursor := do
  let rest ← tail? s.current s.offset
  let parts ← splitAt? (size rest - size (rest.dropWhile Text.isBlank)) rest
  return s.pass parts.1

/-- The turn at the end of a line. -/
def Turn.ofEnd (s : Cursor) : Turn :=
  match s.lines with
  | [] => .finished s
  | next :: lines => .goesOn ⟨lines, next, 0, s.line + 1, 0⟩

/-- Takes the lexeme at the offset, or the next line at the end of the line. -/
def take? (s : Cursor) : Option Turn :=
  if size s.current ≤ s.offset then some (.ofEnd s)
  else do
    let found ← classify? s.current s.offset
    let chars ← slice? s.current s.offset (s.offset + found.2)
    let next := { s with offset := s.offset + found.2, column := s.column + chars.length }
    match found.1 with
    | some kind => return .yields ⟨kind, String.ofList chars, ⟨s.line, s.column⟩⟩ next
    | none => return .goesOn next

/-- One turn. -/
def turn? (s : Cursor) : Option Turn := do
  let s ← s.skipBlanks?
  s.take?

/-- The cursors that are reached when a text is read, however often a token is asked for. -/
inductive Reached (source : String) : Cursor → Prop
  | start : Reached source (start source)
  | turn {s : Cursor} {t : Turn} : Reached source s → s.turn? = some t → Reached source t.next

/-- The places of a text where a lexeme is classified: the blanks are passed, and the line is not
at its end. -/
def Classifies (source : String) (s : Cursor) : Prop :=
  ∃ earlier, Reached source earlier ∧ earlier.skipBlanks? = some s ∧ s.offset < size s.current

/-- Asked for a token, the cursor takes turns until there is one or the text is finished. -/
inductive Answers : Cursor → Option Token → Cursor → Prop
  | finished {s next : Cursor} : s.turn? = some (.finished next) → Answers s none next
  | yields {s next : Cursor} {t : Token} : s.turn? = some (.yields t next) → Answers s (some t) next
  | goesOn {s next last : Cursor} {answer : Option Token} :
      s.turn? = some (.goesOn next) → Answers next answer last → Answers s answer last

/-- The tokens of one question after the other, up to the end of the text. -/
inductive Collects : Cursor → List Token → Prop
  | done {s next : Cursor} : Answers s none next → Collects s []
  | more {s next : Cursor} {t : Token} {ts : List Token} :
      Answers s (some t) next → Collects next ts → Collects s (t :: ts)

/-- There is only one turn to take, so that a question has only one answer. -/
theorem Answers.unique {s next : Cursor} {answer : Option Token} (h : Answers s answer next) :
    ∀ {answer' next'}, Answers s answer' next' → answer = answer' ∧ next = next' := by
  induction h with
  | finished hturn =>
    intro _ _ h'
    cases h' with
    | finished hturn' =>
      cases hturn.symm.trans hturn'
      exact ⟨rfl, rfl⟩
    | yields hturn' => cases hturn.symm.trans hturn'
    | goesOn hturn' _ => cases hturn.symm.trans hturn'
  | yields hturn =>
    intro _ _ h'
    cases h' with
    | finished hturn' => cases hturn.symm.trans hturn'
    | yields hturn' =>
      cases hturn.symm.trans hturn'
      exact ⟨rfl, rfl⟩
    | goesOn hturn' _ => cases hturn.symm.trans hturn'
  | goesOn hturn _ ih =>
    intro _ _ h'
    cases h' with
    | finished hturn' => cases hturn.symm.trans hturn'
    | yields hturn' => cases hturn.symm.trans hturn'
    | goesOn hturn' hrest =>
      cases hturn.symm.trans hturn'
      exact ih hrest

/-- What a cursor collects is determined. -/
theorem Collects.unique {s : Cursor} {ts us : List Token} (hts : Collects s ts)
    (hus : Collects s us) : ts = us := by
  induction hts generalizing us with
  | done hanswer =>
    cases hus with
    | done _ => rfl
    | more hanswer' _ => exact absurd (hanswer.unique hanswer').1 (by simp)
  | more hanswer _ ih =>
    cases hus with
    | done hanswer' => exact absurd (hanswer.unique hanswer').1 (by simp)
    | more hanswer' hrest =>
      obtain ⟨heq, rfl⟩ := hanswer.unique hanswer'
      cases heq
      rw [ih hrest]

/-- The turn that takes a lexeme. -/
def Turn.ofLexeme (s : Cursor) (l : Lexeme) : Turn :=
  match Token.ofLexeme? s.line (s.column, l) with
  | some t => .yields t (s.pass l.chars)
  | none => .goesOn (s.pass l.chars)

/-! ## The invariant -/

/-- The characters `before` of the line are read and the characters `after` are not, and no
word is cut. -/
structure Fits (s : Cursor) (before after : List Char) : Prop where
  current : s.current = before ++ after
  offset : s.offset = size before
  column : s.column = before.length
  opens : Lexeme.OpensWord (before ++ after) before.length

/-- The tokens that are still to come. -/
def pending (s : Cursor) (after : List Char) : List Token :=
  (Lexeme.scan s.column 0 after).filterMap (Token.ofLexeme? s.line)
    ++ (s.lines.zipIdx (s.line + 1)).flatMap fun numbered => Token.ofLine numbered.2 numbered.1

/-- The number of characters and of lines that are left. -/
def left (s : Cursor) (after : List Char) : Nat :=
  after.length + (s.lines.map fun row => row.length + 1).sum

theorem opensWord_zero (row : List Char) : Lexeme.OpensWord row 0 :=
  Lexeme.opensWord_of_before fun _ hne => absurd rfl hne

theorem fits_line (lines : List (List Char)) (row : List Char) (line : Nat) :
    Fits ⟨lines, row, 0, line, 0⟩ [] row :=
  ⟨rfl, rfl, rfl, opensWord_zero row⟩

namespace Fits

variable {s : Cursor} {before after chars rest : List Char}

/-- A cursor that passes some characters, behind which a word may begin, still fits. -/
theorem pass (h : s.Fits before (chars ++ rest))
    (hopens : Lexeme.OpensWord (before ++ chars ++ rest) (before ++ chars).length) :
    (s.pass chars).Fits (before ++ chars) rest where
  current := by rw [List.append_assoc]; exact h.current
  offset := by rw [size_append, ← h.offset]; rfl
  column := by rw [List.length_append, ← h.column]; rfl
  opens := hopens

/-! ## Blanks -/

/-- Behind a blank there is no word to be cut. -/
theorem opensWord_blanks (h : s.Fits before (chars ++ rest))
    (hblanks : ∀ c ∈ chars, Text.isBlank c = true) :
    Lexeme.OpensWord (before ++ chars ++ rest) (before ++ chars).length := by
  rcases List.eq_nil_or_concat chars with rfl | ⟨chars, b, rfl⟩
  · rw [List.append_nil]
    exact h.opens
  · apply Lexeme.opensWord_of_before
    intro c _ hc
    have hcb : c = b := by simpa using hc.symm
    rw [Bool.eq_false_iff]
    intro hword
    have hblank := hblanks b (by simp)
    rw [← hcb, Lexeme.isBlank_eq_false_of_isWordChar hword] at hblank
    cases hblank

/-- Passing the blanks never fails. -/
theorem skipBlanks?_eq (h : s.Fits before after) :
    s.skipBlanks? = some (s.pass (after.takeWhile Text.isBlank)) := by
  have hsplit := after.takeWhile_append_dropWhile (p := Text.isBlank)
  have hsize : size after - size (after.dropWhile Text.isBlank)
      = size (after.takeWhile Text.isBlank) := by
    rw [Nat.sub_eq_iff_eq_add (size_le_of_suffix (List.dropWhile_suffix _)), ← size_append, hsplit]
  rw [skipBlanks?, h.current, h.offset, tail?_size]
  simp only [Option.bind_eq_bind, Option.bind_some, splitAt?_eq_some_iff.2 ⟨hsplit.symm, hsize⟩]
  rfl

theorem pass_blanks (h : s.Fits before after) :
    (s.pass (after.takeWhile Text.isBlank)).Fits (before ++ after.takeWhile Text.isBlank)
      (after.dropWhile Text.isBlank) := by
  rw [← after.takeWhile_append_dropWhile (p := Text.isBlank)] at h
  exact h.pass (h.opensWord_blanks (List.all_eq_true.1 List.all_takeWhile))

/-! ## Lexemes -/

variable {c : Char} {cs : List Char}

/-- The line is at its end exactly if no character is left. -/
theorem lt_size_iff (h : s.Fits before after) : s.offset < size s.current ↔ after ≠ [] := by
  rw [h.current, h.offset, size_append, Nat.lt_add_right_iff_pos, Nat.pos_iff_ne_zero, ne_eq,
    size_eq_zero]

/-- A lexeme leaves the cursor where no word is cut. -/
theorem pass_first (h : s.Fits before (c :: cs)) (hc : Text.isBlank c = false) :
    ∃ rest, c :: cs = (Lexeme.first (c :: cs)).chars ++ rest ∧
      (s.pass (Lexeme.first (c :: cs)).chars).Fits
        (before ++ (Lexeme.first (c :: cs)).chars) rest := by
  have hat : (before ++ c :: cs)[before.length]? = some c := by simp
  have hbehind := Lexeme.opensWord_behind hat hc
  rw [List.drop_left] at hbehind
  have hheads : Lexeme.Heads (Lexeme.first (c :: cs)).chars (c :: cs) := Lexeme.first_heads hc
  obtain ⟨rest, hrest⟩ := hheads.isPrefix
  generalize (Lexeme.first (c :: cs)).chars = chars at hrest hbehind ⊢
  refine ⟨rest, hrest.symm, Fits.pass (hrest.symm ▸ h) ?_⟩
  rwa [List.append_assoc, hrest, List.length_append]

/-- Where a cursor fits, classifying never fails, and finds the first lexeme. -/
theorem classify?_eq (h : s.Fits before after) (hne : after ≠ []) :
    classify? s.current s.offset = some (measured (Lexeme.first after)) := by
  rw [h.current, h.offset, classify?_size hne h.opens]

/-- In front of a lexeme the turn takes it. -/
theorem take?_cons (h : s.Fits before (c :: cs)) (hc : Text.isBlank c = false) :
    s.take? = some (.ofLexeme s (Lexeme.first (c :: cs))) := by
  have hinside : ¬ size s.current ≤ s.offset :=
    Nat.not_le.2 (h.lt_size_iff.2 (List.cons_ne_nil _ _))
  have hheads : Lexeme.Heads (Lexeme.first (c :: cs)).chars (c :: cs) := Lexeme.first_heads hc
  have hslice := slice?_size before hheads.isPrefix
  rw [← h.current, ← h.offset] at hslice
  rw [take?, if_neg hinside, h.classify?_eq (List.cons_ne_nil _ _)]
  generalize Lexeme.first (c :: cs) = l at hslice ⊢
  simp only [Option.bind_eq_bind, Option.bind_some, measured, hslice, Turn.ofLexeme,
    Token.ofLexeme?]
  cases l.kind <;> rfl

/-- At the end of a line the turn goes on with the next one. -/
theorem take?_nil (h : s.Fits before []) : s.take? = some (.ofEnd s) := by
  have hend : size s.current ≤ s.offset := by
    rw [h.current, h.offset, List.append_nil]
  rw [take?, if_pos hend]

/-! ## Turns -/

theorem pending_blanks (s : Cursor) (after : List Char) :
    s.pending after
      = (s.pass (after.takeWhile Text.isBlank)).pending (after.dropWhile Text.isBlank) := by
  have hblanks : ∀ c ∈ after.takeWhile Text.isBlank, Text.isBlank c = true :=
    List.all_eq_true.1 List.all_takeWhile
  have hscan := Lexeme.scan_blanks hblanks s.column (after.dropWhile Text.isBlank)
  rw [List.takeWhile_append_dropWhile] at hscan
  rw [pending, hscan]
  rfl

/-- Behind a lexeme its token, if it has one, is no longer pending. -/
theorem pending_first (s : Cursor) (hc : Text.isBlank c = false)
    (hrest : c :: cs = (Lexeme.first (c :: cs)).chars ++ rest) :
    s.pending (c :: cs) = (Token.ofLexeme? s.line (s.column, Lexeme.first (c :: cs))).toList
      ++ (s.pass (Lexeme.first (c :: cs)).chars).pending rest := by
  have hdrop : (c :: cs).drop (Lexeme.first (c :: cs)).chars.length = rest := by
    generalize (Lexeme.first (c :: cs)).chars = chars at hrest ⊢
    rw [hrest, List.drop_left]
  rw [pending, Lexeme.scan_cons_of_not_blank hc, hdrop, List.filterMap_cons]
  cases Token.ofLexeme? s.line (s.column, Lexeme.first (c :: cs)) <;> rfl

/-- What a turn does. It passes over what gives no token, or yields the first of the
tokens to come. -/
theorem turn?_cases (h : s.Fits before after) :
    (∃ next read, s.turn? = some (.finished next) ∧ next.Fits read [] ∧ s.pending after = []) ∨
    (∃ next read rest, s.turn? = some (.goesOn next) ∧ next.Fits read rest ∧
      s.pending after = next.pending rest ∧ next.left rest < s.left after) ∨
    ∃ t next read rest, s.turn? = some (.yields t next) ∧ next.Fits read rest ∧
      s.pending after = t :: next.pending rest := by
  have hturn : s.turn? = (s.pass (after.takeWhile Text.isBlank)).take? := by
    rw [turn?, h.skipBlanks?_eq]
    rfl
  have hfits := h.pass_blanks
  have hlines : (s.pass (after.takeWhile Text.isBlank)).lines = s.lines := rfl
  have hpending := pending_blanks s after
  have hshort : (after.dropWhile Text.isBlank).length ≤ after.length :=
    (List.dropWhile_suffix _).length_le
  have hblank := List.head?_dropWhile_not Text.isBlank after
  rw [hturn]
  generalize s.pass (after.takeWhile Text.isBlank) = passed, after.dropWhile Text.isBlank = rest
    at hfits hlines hpending hshort hblank ⊢
  cases rest with
  | nil =>
    -- The line is at its end: the next one follows, or the text is finished.
    rw [hfits.take?_nil, hpending, Turn.ofEnd]
    cases hnext : passed.lines with
    | nil =>
      refine .inl ⟨passed, _, rfl, hfits, ?_⟩
      rw [pending, hnext]
      rfl
    | cons row rows =>
      refine .inr (.inl ⟨_, _, _, rfl, fits_line _ _ _, ?_, ?_⟩)
      · rw [pending, hnext]
        rfl
      · rw [left, left, ← hlines, hnext]
        simp only [List.map_cons, List.sum_cons]
        omega
  | cons c cs =>
    obtain ⟨rest, hrest, hnext⟩ := hfits.pass_first hblank
    have hheads : Lexeme.Heads (Lexeme.first (c :: cs)).chars (c :: cs) := Lexeme.first_heads hblank
    rw [hfits.take?_cons hblank, hpending, pending_first passed hblank hrest, Turn.ofLexeme]
    cases Token.ofLexeme? passed.line (passed.column, Lexeme.first (c :: cs)) with
    | some t => exact .inr (.inr ⟨t, _, _, rest, rfl, hnext, rfl⟩)
    | none =>
      refine .inr (.inl ⟨_, _, rest, rfl, hnext, rfl, ?_⟩)
      -- The comment has a character at least, so that less is left.
      have hchars := List.length_pos_iff.2 hheads.ne_nil
      have hlength := congrArg List.length hrest
      have hsame : (passed.pass (Lexeme.first (c :: cs)).chars).lines = s.lines := hlines
      rw [List.length_append] at hlength
      rw [left, left, hsame]
      omega

end Fits

/-- So every cursor that is reached fits. -/
theorem Reached.fits {source : String} {s : Cursor} (h : Reached source s) :
    ∃ before after, s.Fits before after := by
  induction h with
  | start => exact ⟨[], _, fits_line _ _ _⟩
  | turn _ hturn ih =>
    obtain ⟨before, after, hfits⟩ := ih
    rcases hfits.turn?_cases with ⟨next, read, heq, hnext, -⟩ | ⟨next, read, rest, heq, hnext, -⟩ |
      ⟨t, next, read, rest, heq, hnext, -⟩
    all_goals
      rw [heq] at hturn
      cases hturn
      exact ⟨_, _, hnext⟩

/-- Every question is answered, by the first of the tokens to come. -/
theorem Fits.answers {s : Cursor} {before after : List Char} (h : s.Fits before after) :
    (∃ next, Answers s none next ∧ s.pending after = []) ∨
    ∃ t next read rest, Answers s (some t) next ∧ next.Fits read rest ∧
      s.pending after = t :: next.pending rest := by
  -- A turn that goes on leaves less to read, so the induction is on what is left.
  induction hleft : s.left after using Nat.strongRecOn generalizing s before after with
  | _ n ih =>
    rcases h.turn?_cases with ⟨next, _, hturn, -, hpending⟩ |
      ⟨next, read, rest, hturn, hnext, hpending, hlt⟩ |
      ⟨t, next, read, rest, hturn, hnext, hpending⟩
    · exact .inl ⟨next, .finished hturn, hpending⟩
    · rcases ih _ (hleft ▸ hlt) hnext rfl with ⟨last, hanswer, hnone⟩ |
        ⟨t, last, read, rest, hanswer, hlast, hsome⟩
      · exact .inl ⟨last, .goesOn hturn hanswer, hpending.trans hnone⟩
      · exact .inr ⟨t, last, read, rest, .goesOn hturn hanswer, hlast, hpending.trans hsome⟩
    · exact .inr ⟨t, next, read, rest, .yields hturn, hnext, hpending⟩

/-- A cursor collects exactly what is pending. -/
theorem Fits.collects {s : Cursor} {before after : List Char} (h : s.Fits before after) :
    Collects s (s.pending after) := by
  -- Each answer is the first of the tokens to come, so the induction is on these.
  induction hpending : s.pending after generalizing s before after with
  | nil =>
    rcases h.answers with ⟨next, hanswer, -⟩ | ⟨t, next, read, rest, -, -, heq⟩
    · exact .done hanswer
    · rw [hpending] at heq
      cases heq
  | cons t ts ih =>
    rcases h.answers with ⟨next, -, heq⟩ | ⟨t', next, read, rest, hanswer, hnext, heq⟩
    · rw [hpending] at heq
      cases heq
    · rw [hpending] at heq
      cases heq
      exact .more hanswer (ih hnext rfl)

/-- At the start all tokens of the source text are pending. -/
theorem pending_start (source : String) :
    (start source).pending (start source).current = Token.ofSource source := by
  rw [pending, start, Token.ofSource]
  cases Text.lines source.toList with
  | nil => rfl
  | cons row rows => rfl

/-! ## The places of lexemes -/

/-- A place where a lexeme can be classified: a character that is not blank begins inside the line,
and it does not continue a word. What is classified has a byte at least and ends, inside the line,
with a character. -/
structure Legal (s : Cursor) : Prop where
  /-- The offset does not divide a character. -/
  valid : String.Pos.Raw.IsValid (String.ofList s.current) ⟨s.offset⟩
  /-- It lies before the end of the line. -/
  inside : s.offset < size s.current
  /-- The character there is not blank, and what is classified is the lexeme that it begins. -/
  lexeme : ∃ c cs, tail? s.current s.offset = some (c :: cs) ∧ Text.isBlank c = false ∧
    classify? s.current s.offset = some (measured (Lexeme.first (c :: cs)))
  /-- A byte of a word follows no other one, so that the tests for a boundary let it pass. -/
  fresh : ∀ b, byte? s.current s.offset = some b → isWordByte b = true →
    (s.offset = 0 ∨ ∃ d, byte? s.current (s.offset - 1) = some d ∧ isWordByte d = false) ∧
      isBoundary? s.current s.offset = some true
  /-- The length is positive, does not exceed the line and does not divide a character. -/
  length : ∀ found, classify? s.current s.offset = some found → 1 ≤ found.2 ∧
    s.offset + found.2 ≤ size s.current ∧
      String.Pos.Raw.IsValid (String.ofList s.current) ⟨s.offset + found.2⟩

/-- Where a word begins, no word stands in front of it. -/
theorem Fits.fresh {s : Cursor} {before after : List Char} (h : s.Fits before after) {b : UInt8}
    (hb : byte? s.current s.offset = some b) (hword : isWordByte b = true) :
    (s.offset = 0 ∨ ∃ d, byte? s.current (s.offset - 1) = some d ∧ isWordByte d = false) ∧
      isBoundary? s.current s.offset = some true := by
  rw [h.current, h.offset] at hb ⊢
  rw [byte?_size] at hb
  have hhead : after.head?.any Lexeme.isWordChar = true := by
    rw [← isWordByte_mirrors.any_head?, hb, Option.any_some, hword]
  obtain ⟨c, hc, hcword⟩ := (Option.any_eq_true ..).1 hhead
  have hboundary : isBoundary? (before ++ after) (size before) = some true := by
    rw [isBoundary?_eq_atBoundary, h.opens c ?_ hcword]
    rw [List.getElem?_append_right (Nat.le_refl _), Nat.sub_self, ← List.head?_eq_getElem?, hc]
  refine ⟨?_, hboundary⟩
  -- There is a boundary and a word behind it, so there is none before it.
  rw [isBoundary?_size, hhead, Option.some_inj, bne_iff_ne, ne_eq, Bool.not_eq_true] at hboundary
  by_cases hne : before = []
  · exact .inl (size_eq_zero.2 hne)
  · have hbytes : ofChars before ≠ [] := List.length_pos_iff.1 (size_pos hne)
    have hlast : (ofChars before).getLast? = some ((ofChars before).getLast hbytes) :=
      List.getLast?_eq_getLast_of_ne_nil hbytes
    rw [← isWordByte_mirrors.any_getLast?, hlast, Option.any_some] at hboundary
    exact .inr ⟨_, (byte?_size_sub_one hne after).trans hlast, hboundary⟩

/-- A cursor that fits is legal in front of every lexeme. -/
theorem Fits.legal {s : Cursor} {before cs : List Char} {c : Char} (h : s.Fits before (c :: cs))
    (hc : Text.isBlank c = false) : s.Legal := by
  have hclassify := h.classify?_eq (List.cons_ne_nil _ _)
  have hheads : Lexeme.Heads (Lexeme.first (c :: cs)).chars (c :: cs) := Lexeme.first_heads hc
  constructor
  case valid => exact isValid_iff.2 ⟨before, c :: cs, h.current, h.offset⟩
  case inside => exact h.lt_size_iff.2 (List.cons_ne_nil _ _)
  case lexeme =>
    refine ⟨c, cs, ?_, hc, hclassify⟩
    rw [h.current, h.offset, tail?_size]
  case fresh => exact fun b => h.fresh
  case length =>
    intro found hfound
    rw [hclassify] at hfound
    cases hfound
    obtain ⟨rest, hrest⟩ := hheads.isPrefix
    have hcurrent : s.current = before ++ (Lexeme.first (c :: cs)).chars ++ rest := by
      rw [h.current, List.append_assoc, hrest]
    have hend : s.offset + size (Lexeme.first (c :: cs)).chars
        = size (before ++ (Lexeme.first (c :: cs)).chars) := by
      rw [size_append, h.offset]
    refine ⟨size_pos hheads.ne_nil, ?_, isValid_iff.2 ⟨_, rest, hcurrent, hend⟩⟩
    rw [measured, hend, hcurrent, size_append _ rest]
    exact Nat.le_add_right _ _

/-- Whatever the text, lexemes are classified at legal places only. No access of a cursor that is
reached fails, and each of its questions is answered after finitely many turns. The tokens that are
answered, from the beginning to the end of the text, are those of the scanner. -/
theorem positions_legal (source : String) :
    (∀ s, Classifies source s → s.Legal) ∧
      (∀ s, Reached source s → (∃ t, s.turn? = some t) ∧ ∃ answer next, Answers s answer next) ∧
      ∀ tokens, Collects (start source) tokens ↔ tokens = Token.ofSource source := by
  refine ⟨?_, ?_, ?_⟩
  · rintro s ⟨earlier, hreached, hskip, hinside⟩
    obtain ⟨before, after, hfits⟩ := hreached.fits
    have hpassed := hfits.pass_blanks
    have hblank := List.head?_dropWhile_not Text.isBlank after
    rw [hfits.skipBlanks?_eq] at hskip
    cases hskip
    obtain ⟨c, cs, hcs⟩ := List.exists_cons_of_ne_nil (hpassed.lt_size_iff.1 hinside)
    rw [hcs] at hpassed hblank
    exact hpassed.legal hblank
  · intro s hreached
    obtain ⟨before, after, hfits⟩ := hreached.fits
    constructor
    · rcases hfits.turn?_cases with ⟨_, _, hturn, -⟩ | ⟨_, _, _, hturn, -⟩ | ⟨_, _, _, _, hturn, -⟩
      all_goals exact ⟨_, hturn⟩
    · rcases hfits.answers with ⟨next, hanswer, -⟩ | ⟨t, next, -, -, hanswer, -⟩
      · exact ⟨none, next, hanswer⟩
      · exact ⟨some t, next, hanswer⟩
  · have hfits : (start source).Fits [] (start source).current := fits_line _ _ _
    have hcollects := hfits.collects
    rw [pending_start] at hcollects
    exact fun tokens => ⟨fun h => h.unique hcollects, fun h => h ▸ hcollects⟩

/-- The fraction of this number is no whole word, so the next lexeme begins right behind
its first digit. -/
example : Classifies "1.5abc" ⟨[], "1.5abc".toList, 1, 1, 1⟩ :=
  ⟨_, .turn .start (t := .yields ⟨.number "1", "1", ⟨1, 0⟩⟩ ⟨[], "1.5abc".toList, 1, 1, 1⟩)
      (by decide +kernel),
    by decide +kernel, by decide +kernel⟩

end Cursor

end Zed

import Zed.Proofs.Token.Locality

/-!
# The margin of a text

Whatever stands behind the last lexeme of a line is layout: blanks, and behind them a comment. It
can be different on each line of a text, and a carriage return before each line feed is a case of
it. The tokens are the same with and without it, at the same places (`Token.ofSource_withMargins`).

A margin must not close a string that the line has left open, so there is no quote in its
comment. And it is parted from the line by a blank, or the sign of its comment would belong to
the last run of characters.
-/

set_option autoImplicit false

namespace Zed

/-! ## Margins -/

/-- What can be put behind a line: blanks, and a comment if there is a blank before it. -/
structure Margin where
  blanks : List Char
  /-- The comment without its sign, if there is one. -/
  remark : Option (List Char)
  isBlank : ∀ c ∈ blanks, Text.isBlank c = true
  blanks_flat : '\n' ∉ blanks
  blanks_ne_nil : remark.isSome = true → blanks ≠ []
  remark_flat : ∀ cs ∈ remark, '\n' ∉ cs
  remark_unquoted : ∀ cs ∈ remark, '"' ∉ cs

namespace Margin

/-- The characters of a margin. -/
def chars (m : Margin) : List Char :=
  m.blanks ++ m.remark.elim [] ('#' :: ·)

/-- A margin has no line break in it. -/
theorem flat (m : Margin) : '\n' ∉ m.chars := by
  rw [chars, List.mem_append, not_or]
  refine ⟨m.blanks_flat, ?_⟩
  cases hremark : m.remark with
  | none => exact List.not_mem_nil
  | some cs => exact List.not_mem_cons_of_ne_of_not_mem (by decide) (m.remark_flat cs hremark)

/-- A margin starts with a blank, or is empty. -/
theorem parted (m : Margin) : Lexeme.Parted m.chars := by
  intro c hc
  cases hblanks : m.blanks with
  | cons d ds =>
    rw [chars, hblanks] at hc
    cases hc
    exact m.isBlank c (hblanks ▸ List.mem_cons_self)
  | nil =>
    -- Without a blank there is no comment either.
    cases hremark : m.remark with
    | none =>
      rw [chars, hblanks, hremark] at hc
      cases hc
    | some cs => exact absurd hblanks (m.blanks_ne_nil (by rw [hremark]; rfl))

/-- A margin has no quote in it. -/
theorem unquoted (m : Margin) : '"' ∉ m.chars := by
  rw [chars, List.mem_append, not_or]
  refine ⟨fun hmem => absurd (m.isBlank _ hmem) (by decide), ?_⟩
  cases hremark : m.remark with
  | none => exact List.not_mem_nil
  | some cs => exact List.not_mem_cons_of_ne_of_not_mem (by decide) (m.remark_unquoted cs hremark)

end Margin

namespace Lexeme

/-- Blanks in front of the rest of a line only move its lexemes. -/
theorem scan_blanks {blanks : List Char} (h : ∀ c ∈ blanks, Text.isBlank c = true) (column : Nat)
    (rest : List Char) : scan column 0 (blanks ++ rest) = scan (column + blanks.length) 0 rest := by
  induction blanks generalizing column with
  | nil => rfl
  | cons c blanks ih =>
    obtain ⟨hc, hblanks⟩ := List.forall_mem_cons.1 h
    rw [List.cons_append, scan_cons_of_blank hc, ih hblanks, List.length_cons, Nat.add_assoc,
      Nat.add_comm 1]

/-- A comment is the only lexeme of the rest of its line. -/
theorem scan_sign (column : Nat) (cs : List Char) :
    scan column 0 ('#' :: cs) = [(column, ⟨none, '#' :: cs⟩)] := by
  rw [scan_cons_of_not_blank (by decide), first_sign, List.drop_length]
  rfl

end Lexeme

/-- There is no token in a margin. -/
theorem Margin.silent (m : Margin) (column : Nat) :
    ∀ x ∈ Lexeme.scan column 0 m.chars, x.2.kind = none := by
  rw [chars, Lexeme.scan_blanks m.isBlank]
  cases m.remark with
  | none => exact fun x hx => absurd hx List.not_mem_nil
  | some cs =>
    rw [Option.elim_some, Lexeme.scan_sign]
    exact List.forall_mem_singleton.2 rfl

theorem Margin.trailing (m : Margin) : Lexeme.Trailing m.chars :=
  ⟨m.parted, m.unquoted, m.silent⟩

/-! ## Margins behind all lines -/

namespace Text

/-- Puts a margin behind each line, the last one included. The line that the text begins in has
the given number. -/
def withMargins (margin : Nat → Margin) : (number : Nat) → List Char → List Char
  | number, [] => (margin number).chars
  | number, c :: text =>
    if c = '\n' then (margin number).chars ++ '\n' :: withMargins margin (number + 1) text
    else c :: withMargins margin number text

variable (margin : Nat → Margin)

/-- A text with margins has the same segments, each with its own margin. -/
theorem segments_withMargins (number : Nat) (text : List Char) :
    segments (withMargins margin number text)
      = (segments text).mapIdx fun i row => row ++ (margin (number + i)).chars := by
  induction text generalizing number with
  | nil => exact segments_of_flat (margin number).flat
  | cons c text ih =>
    rw [withMargins, segments_cons, cutBefore]
    split
    · -- The margin is the first segment, and the others are one line further down.
      rw [segments_append, segments_of_flat (margin number).flat, ih, List.mapIdx_cons]
      simp only [Nat.add_assoc, Nat.add_comm 1]
      rfl
    · next hc =>
      -- The character joins the first segment, in front of the margin.
      obtain ⟨row, rows, hrows⟩ := List.exists_cons_of_ne_nil (segments_ne_nil text)
      rw [segments_cons, cutBefore, if_neg hc, ih, hrows, List.mapIdx_cons, List.modifyHead_cons,
        List.modifyHead_cons, List.mapIdx_cons]
      rfl

end Text

namespace Token

/-- A margin behind a line adds no token. -/
theorem ofLine_margin (number : Nat) (row : List Char) (m : Margin) :
    ofLine number (row ++ m.chars) = ofLine number row :=
  Lexeme.scan_append m.trailing number 0 row

/-- Margins behind the lines add no token. -/
theorem ofRows_margins (margin : Nat → Margin) (number : Nat) (rows : List (List Char)) :
    ofRows number (rows.mapIdx fun i row => row ++ (margin (number + i)).chars)
      = ofRows number rows := by
  induction rows generalizing number with
  | nil => rfl
  | cons row rows ih =>
    rw [List.mapIdx_cons, ofRows_cons, ofRows_cons, ofLine_margin]
    have hrows := ih (number + 1)
    simp only [Nat.add_assoc, Nat.add_comm 1] at hrows
    simp only [hrows]

/-- A text has the same tokens at the same places, whatever margin is put behind each
of its lines. -/
theorem ofSource_withMargins (margin : Nat → Margin) (source : String) :
    ofSource (String.ofList (Text.withMargins margin 1 source.toList)) = ofSource source := by
  rw [ofSource_eq_segments, ofSource_eq_segments, String.toList_ofList, Text.segments_withMargins,
    ofRows_margins]

-- A carriage return before each line feed.
example :
    Text.withMargins
      (fun _ => ⟨['\r'], none, List.forall_mem_singleton.2 rfl, by decide, nofun, nofun, nofun⟩) 1
      "OUT[A]:\nOUT[B]:".toList = "OUT[A]:\r\nOUT[B]:\r".toList := by decide

end Token

end Zed

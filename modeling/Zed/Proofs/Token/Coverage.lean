import Mathlib.Data.List.Pairwise
import Zed.Proofs.Token.Cut

/-!
# Tokens cover their source

Nothing of a source text is lost but blanks and comments, and every token says exactly where it
stands (`Token.ofSource_exact`). The lines are cut one by one, so this is a statement about the cut
of each line, carried over to the tokens that its lexemes make, and to the lines in their order.
-/

set_option autoImplicit false

namespace Zed

/-- The order of places in a source: by lines, and by columns on one line. -/
def Position.Precedes (p q : Position) : Prop :=
  p.line < q.line ∨ p.line = q.line ∧ p.column < q.column

namespace Token

/-- The column behind the last character of a token. -/
def endColumn (t : Token) : Nat :=
  t.position.column + t.lexeme.length

/-- A comment begins at column `start` of a line: there is its sign, at the beginning of the line or
behind a blank or a token, and no token stands in the rest of the line or reaches into it. -/
structure OpensComment (tokens : List Token) (number : Nat) (row : List Char)
    (start : Nat) : Prop where
  sign : row[start]? = some '#'
  opened : start = 0 ∨ (∃ i c, start = i + 1 ∧ row[i]? = some c ∧ Text.isBlank c = true) ∨
    ∃ t ∈ tokens, t.position.line = number ∧ t.endColumn = start
  free : ∀ t ∈ tokens, t.position.line = number → t.endColumn ≤ start

/-! ## Tokens of a line -/

open Lexeme (scan scan_cut)

/-- The token that a lexeme makes at a place. -/
def ofKind (number : Nat) (x : Nat × Lexeme) (kind : Kind) : Token :=
  ⟨kind, String.ofList x.2.chars, ⟨number, x.1⟩⟩

/-- The tokens of a line are its lexemes that have a kind. -/
theorem mem_ofLine {number : Nat} {row : List Char} {t : Token} :
    t ∈ ofLine number row ↔
      ∃ x ∈ scan 0 0 row, ∃ kind, x.2.kind = some kind ∧ ofKind number x kind = t := by
  simp only [ofLine, List.mem_filterMap, ofLexeme?, Option.map_eq_some_iff, ofKind]

/-- A token ends as many columns further as it has characters. -/
theorem endColumn_ofKind (number : Nat) (x : Nat × Lexeme) (kind : Kind) :
    (ofKind number x kind).endColumn = x.1 + x.2.chars.length := by
  simp [endColumn, ofKind]

/-- A token stands in its line, at its column. -/
theorem ofLine_stands {number : Nat} {row : List Char} {t : Token} (ht : t ∈ ofLine number row) :
    t.lexeme ≠ "" ∧ t.position.line = number ∧ t.lexeme.toList <+: row.drop t.position.column := by
  obtain ⟨x, hx, kind, -, rfl⟩ := mem_ofLine.1 ht
  have hheads := (scan_cut row 0).heads hx
  refine ⟨fun hempty => hheads.ne_nil ?_, rfl, ?_⟩
  · rw [← String.toList_eq_nil_iff] at hempty
    simpa [ofKind] using hempty
  · simpa [ofKind] using hheads.isPrefix

/-- The tokens of a line do not overlap, and come from left to right. -/
theorem ofLine_pairwise (number : Nat) (row : List Char) :
    (ofLine number row).Pairwise fun t u => t.endColumn ≤ u.position.column := by
  rw [ofLine, List.pairwise_filterMap]
  refine (scan_cut row 0).pairwise.imp ?_
  intro x y hxy t ht u hu
  obtain ⟨k, -, rfl⟩ := Option.map_eq_some_iff.1 ht
  obtain ⟨l, -, rfl⟩ := Option.map_eq_some_iff.1 hu
  simpa [endColumn] using hxy

/-- What no token of the line covers is blank or part of a comment. -/
theorem ofLine_covers (number : Nat) {row : List Char} {i : Nat} {c : Char}
    (hc : row[i]? = some c) :
    (∃ t ∈ ofLine number row, t.position.column ≤ i ∧ i < t.endColumn) ∨ Text.isBlank c = true ∨
      ∃ start, start ≤ i ∧ OpensComment (ofLine number row) number row start := by
  have hcut := scan_cut row 0
  rcases hcut.covers i c (Nat.zero_le i) hc with hblank | ⟨x, hx, hle, hlt⟩
  · exact .inr (.inl hblank)
  cases hkind : x.2.kind with
  | some kind =>
    refine .inl ⟨ofKind number x kind, mem_ofLine.2 ⟨x, hx, kind, hkind, rfl⟩, hle, ?_⟩
    rwa [endColumn_ofKind]
  | none =>
    obtain ⟨hsign, hend⟩ := hcut.comment hx hkind
    refine .inr (.inr ⟨x.1, hle, hsign, ?_, ?_⟩)
    · rcases hcut.opens x hx with hstart | hblank | ⟨y, hy, hyx⟩
      · exact .inl hstart
      · exact .inr (.inl hblank)
      · -- The lexeme before it is a token, since behind a comment there is nothing.
        cases hykind : y.2.kind with
        | some kind =>
          refine .inr (.inr ⟨ofKind number y kind,
            mem_ofLine.2 ⟨y, hy, kind, hykind, rfl⟩, rfl, ?_⟩)
          rw [endColumn_ofKind, hyx]
        | none =>
          obtain ⟨-, hyend⟩ := hcut.comment hy hykind
          obtain ⟨hlength, -⟩ := List.getElem?_eq_some_iff.1 hsign
          omega
    · intro t ht _
      obtain ⟨y, hy, kind, hykind, rfl⟩ := mem_ofLine.1 ht
      rw [endColumn_ofKind]
      refine hcut.le_comment hx hy hkind ?_
      rintro rfl
      rw [hkind] at hykind
      cases hykind

/-! ## Tokens of a source -/

/-- The tokens of a source text are those of its lines, which are numbered from one. -/
theorem mem_ofSource {source : String} {t : Token} :
    t ∈ ofSource source ↔
      ∃ n row, (Text.lines source.toList)[n]? = some row ∧ t ∈ ofLine (n + 1) row := by
  rw [ofSource, List.mem_flatMap]
  constructor
  · rintro ⟨⟨row, number⟩, hmem, ht⟩
    obtain ⟨n, hn⟩ := List.mem_iff_getElem?.1 hmem
    rw [List.getElem?_zipIdx, Option.map_eq_some_iff] at hn
    obtain ⟨row', hrow, heq⟩ := hn
    cases heq
    rw [Nat.add_comm] at ht
    exact ⟨n, row, hrow, ht⟩
  · rintro ⟨n, row, hrow, ht⟩
    refine ⟨(row, n + 1), List.mem_iff_getElem?.2 ⟨n, ?_⟩, ht⟩
    rw [List.getElem?_zipIdx, hrow, Nat.add_comm]
    rfl

/-- The tokens on a line of the source are those of the line. -/
theorem mem_ofLine_of_mem_ofSource {source : String} {n : Nat} {row : List Char} {t : Token}
    (hrow : (Text.lines source.toList)[n]? = some row) (ht : t ∈ ofSource source)
    (hnumber : t.position.line = n + 1) : t ∈ ofLine (n + 1) row := by
  obtain ⟨m, row', hrow', ht'⟩ := mem_ofSource.1 ht
  obtain ⟨-, hposition, -⟩ := ofLine_stands ht'
  obtain rfl : m = n := by omega
  rw [hrow] at hrow'
  cases hrow'
  exact ht'

/-- The tokens of a source text do not overlap, and come in the order of the text. -/
theorem ofSource_pairwise (source : String) :
    (ofSource source).Pairwise fun t u => t.position.line < u.position.line ∨
      t.position.line = u.position.line ∧ t.endColumn ≤ u.position.column := by
  rw [ofSource, List.pairwise_flatMap]
  constructor
  · rintro ⟨row, number⟩ -
    refine (List.Pairwise.and_mem.1 (ofLine_pairwise number row)).imp ?_
    rintro t u ⟨ht, hu, htu⟩
    exact .inr ⟨(ofLine_stands ht).2.1.trans (ofLine_stands hu).2.1.symm, htu⟩
  · rw [List.pairwise_iff_getElem]
    intro i j hi hj hij t ht u hu
    rw [List.getElem_zipIdx] at ht hu
    have htline := (ofLine_stands ht).2.1
    have huline := (ofLine_stands hu).2.1
    left
    omega

/-- A token stands on a line of the source, and its lexeme there at its column. -/
theorem exists_row {source : String} {t : Token} (ht : t ∈ ofSource source) :
    t.lexeme ≠ "" ∧ 1 ≤ t.position.line ∧
      ∃ row, (Text.lines source.toList)[t.position.line - 1]? = some row ∧
        t.lexeme.toList <+: row.drop t.position.column := by
  obtain ⟨n, row, hrow, ht⟩ := mem_ofSource.1 ht
  obtain ⟨hne, hnumber, hlexeme⟩ := ofLine_stands ht
  refine ⟨hne, by omega, row, ?_, hlexeme⟩
  rw [hnumber]
  exact hrow

/-- The positions of tokens increase, and on one line a token begins behind the one before it.
Tokens are not empty, so this follows from the order of the columns where they end. -/
theorem ofSource_ordered (source : String) :
    (ofSource source).Pairwise fun t u => t.position.Precedes u.position ∧
      (t.position.line = u.position.line → t.endColumn ≤ u.position.column) := by
  refine (List.Pairwise.and_mem.1 (ofSource_pairwise source)).imp ?_
  rintro t u ⟨ht, -, htu⟩
  have hpos : 0 < t.lexeme.length := by
    rw [Nat.pos_iff_ne_zero, ne_eq, String.length_eq_zero_iff]
    exact (exists_row ht).1
  rcases htu with hlt | ⟨heq, hle⟩
  · exact ⟨.inl hlt, fun heq => absurd heq (Nat.ne_of_lt hlt)⟩
  · exact ⟨.inr ⟨heq, Nat.lt_of_lt_of_le (Nat.lt_add_of_pos_right hpos) hle⟩, fun _ => hle⟩

/-- Every token has characters, and they stand at its position in the source. Tokens come in the
order of their positions and do not overlap. A character of a line that belongs to no token is blank
or belongs to a comment. -/
theorem ofSource_exact (source : String) :
    let lines := Text.lines source.toList
    let tokens := ofSource source
    (∀ t ∈ tokens, t.lexeme ≠ "" ∧ 1 ≤ t.position.line ∧
      ∃ row, lines[t.position.line - 1]? = some row ∧
        t.lexeme.toList <+: row.drop t.position.column) ∧
    (tokens.Pairwise fun t u => t.position.Precedes u.position ∧
      (t.position.line = u.position.line → t.endColumn ≤ u.position.column)) ∧
    ∀ n row, lines[n]? = some row → ∀ i c, row[i]? = some c →
      (∃ t ∈ tokens, t.position.line = n + 1 ∧ t.position.column ≤ i ∧ i < t.endColumn) ∨
      Text.isBlank c = true ∨ ∃ start, start ≤ i ∧ OpensComment tokens (n + 1) row start := by
  intro lines tokens
  refine ⟨fun t ht => exists_row ht, ofSource_ordered source, fun n row hrow i c hc => ?_⟩
  have hmem : ∀ t ∈ ofLine (n + 1) row, t ∈ tokens := fun t ht => mem_ofSource.2 ⟨n, row, hrow, ht⟩
  rcases ofLine_covers (n + 1) hc with ⟨t, ht, hin⟩ | hblank | ⟨start, hle, hcomment⟩
  · exact .inl ⟨t, hmem t ht, (ofLine_stands ht).2.1, hin⟩
  · exact .inr (.inl hblank)
  · refine .inr (.inr ⟨start, hle, hcomment.sign, ?_, fun t ht hnumber => ?_⟩)
    · rcases hcomment.opened with hstart | hblank | ⟨t, ht, hend⟩
      · exact .inl hstart
      · exact .inr (.inl hblank)
      · exact .inr (.inr ⟨t, hmem t ht, hend⟩)
    · exact hcomment.free t (mem_ofLine_of_mem_ofSource hrow ht hnumber) hnumber

end Token

end Zed

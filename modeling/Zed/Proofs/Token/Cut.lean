import Mathlib.Data.List.Pairwise
import Zed.Token.Scan

/-!
# How a line is cut

A line is cut from left to right: at each column stands the end of the line, a blank, or the first
character of a lexeme. `Lexeme.Cut` says this as a relation, with the columns of one line
throughout, and `scan_cut` that scanning a line gives such a cut. What follows from a cut is shown
by induction on it:

* every lexeme is found where it stands (`Cut.first_eq`), and lexemes
  do not overlap (`Cut.pairwise`);
* every character that is not blank belongs to a lexeme (`Cut.covers`);
* a lexeme begins where the cut begins, behind a blank, or right
  behind another lexeme (`Cut.opens`).

A comment is the only lexeme that makes no token. It goes on to the end of its line, so that nothing
is found behind it.
-/

set_option autoImplicit false

namespace Zed.Lexeme

/-! ## The characters of a lexeme -/

/-- The characters stand at the beginning of `cs`, and there is at least one. -/
structure Heads (chars cs : List Char) : Prop where
  isPrefix : chars <+: cs
  ne_nil : chars ≠ []

theorem Heads.takeWhile {p : Char → Bool} {cs : List Char} (h : cs.takeWhile p ≠ []) :
    Heads (cs.takeWhile p) cs :=
  ⟨List.takeWhile_prefix p, h⟩

/-- A keyword is a beginning of the characters, and not empty. -/
theorem keyword?_heads {cs : List Char} {l : Lexeme} (h : keyword? cs = some l) :
    Heads l.chars cs := by
  obtain ⟨word, hword, rfl⟩ := Option.map_eq_some_iff.1 h
  apply Heads.takeWhile
  intro hnil
  -- No keyword is spelled without a letter.
  rw [hnil] at hword
  cases hword

theorem symbol?_heads {cs : List Char} {l : Lexeme} (h : symbol? cs = some l) :
    Heads l.chars cs := by
  obtain ⟨sign, hsign, rfl⟩ := Option.map_eq_some_iff.1 h
  have hprefix := List.find?_some hsign
  exact ⟨List.isPrefixOf_iff_prefix.1 hprefix, by cases sign <;> decide⟩

/-- A text with its quotes is a beginning of the characters. -/
theorem text?_heads {cs : List Char} {l : Lexeme} (h : text? cs = some l) : Heads l.chars cs := by
  rw [text?.eq_def] at h
  split at h
  · next rest =>
    dsimp only at h
    split at h
    · next more hrest =>
      cases h
      refine ⟨⟨more, ?_⟩, List.cons_ne_nil _ _⟩
      -- The closing quote is the first character behind the body.
      have hsplit := rest.takeWhile_append_dropWhile (p := isBodyChar)
      rw [hrest] at hsplit
      show '"' :: (rest.takeWhile isBodyChar ++ ['"'] ++ more) = '"' :: rest
      rw [List.append_assoc, List.singleton_append, hsplit]
    · cases h
  · cases h

/-- A fraction is a beginning of the characters, from its point on. -/
theorem fraction?_prefix {cs fraction : List Char} (h : fraction? cs = some fraction) :
    fraction <+: cs := by
  rw [fraction?.eq_def] at h
  split at h
  · dsimp only at h
    split at h
    · cases h
      exact (List.prefix_cons_inj _).2 (List.takeWhile_prefix _)
    · cases h
  · cases h

/-- A numeral is a beginning of the characters. -/
theorem number?_heads {cs : List Char} {l : Lexeme} (h : number? cs = some l) :
    Heads l.chars cs := by
  rw [number?] at h
  split at h
  · cases h
  · next hne =>
    split at h
    · next fraction hfraction =>
      cases h
      refine ⟨?_, List.append_ne_nil_of_left_ne_nil hne _⟩
      obtain ⟨rest, hrest⟩ := fraction?_prefix hfraction
      refine ⟨rest, ?_⟩
      rw [List.append_assoc, hrest, List.takeWhile_append_dropWhile]
    · split at h
      · cases h
        exact .takeWhile hne
      · cases h

theorem var?_heads {cs : List Char} {l : Lexeme} (h : var? cs = some l) : Heads l.chars cs := by
  rw [var?.eq_def] at h
  split at h
  · dsimp only at h
    split at h
    · cases h
      exact ⟨(List.prefix_cons_inj _).2 (List.takeWhile_prefix _), List.cons_ne_nil _ _⟩
    · cases h
  · cases h

theorem ident?_heads {cs : List Char} {l : Lexeme} (h : ident? cs = some l) : Heads l.chars cs := by
  rw [ident?] at h
  split at h
  · next hname =>
    cases h
    exact .takeWhile hname.1
  · cases h

/-- A comment takes everything up to the end of its line. -/
theorem comment?_eq_some {cs : List Char} {l : Lexeme} (h : comment? cs = some l) :
    cs.head? = some '#' ∧ l = ⟨none, cs⟩ := by
  rw [comment?] at h
  split at h
  · next hsign => exact ⟨hsign, (Option.some.inj h).symm⟩
  · cases h

/-- What is read up to a blank is a beginning of the characters, and not empty if there is no
blank in front. -/
theorem other_heads {c : Char} {cs : List Char} (hc : Text.isBlank c = false) :
    Heads (other (c :: cs)).chars (c :: cs) := by
  apply Heads.takeWhile
  rw [List.takeWhile_cons_of_pos (by rw [hc]; rfl)]
  exact List.cons_ne_nil _ _

/-- The class that a lexeme at the beginning of `cs` belongs to. -/
theorem first_cases (cs : List Char) :
    keyword? cs = some (first cs) ∨ symbol? cs = some (first cs) ∨ text? cs = some (first cs) ∨
      number? cs = some (first cs) ∨ var? cs = some (first cs) ∨ ident? cs = some (first cs) ∨
      comment? cs = some (first cs) ∨ first cs = other cs := by
  rw [first]
  cases keyword? cs with
  | some l => exact .inl rfl
  | none =>
  cases symbol? cs with
  | some l => exact .inr (.inl rfl)
  | none =>
  cases text? cs with
  | some l => exact .inr (.inr (.inl rfl))
  | none =>
  cases number? cs with
  | some l => exact .inr (.inr (.inr (.inl rfl)))
  | none =>
  cases var? cs with
  | some l => exact .inr (.inr (.inr (.inr (.inl rfl))))
  | none =>
  cases ident? cs with
  | some l => exact .inr (.inr (.inr (.inr (.inr (.inl rfl)))))
  | none =>
  cases comment? cs with
  | some l => exact .inr (.inr (.inr (.inr (.inr (.inr (.inl rfl))))))
  | none => exact .inr (.inr (.inr (.inr (.inr (.inr (.inr rfl))))))

/-- Behind the blanks there is always a lexeme, and it takes at least one character. -/
theorem first_heads {c : Char} {cs : List Char} (hc : Text.isBlank c = false) :
    Heads (first (c :: cs)).chars (c :: cs) := by
  rcases first_cases (c :: cs) with h | h | h | h | h | h | h | h
  · exact keyword?_heads h
  · exact symbol?_heads h
  · exact text?_heads h
  · exact number?_heads h
  · exact var?_heads h
  · exact ident?_heads h
  · obtain ⟨-, h⟩ := comment?_eq_some h
    rw [h]
    exact ⟨List.prefix_rfl, List.cons_ne_nil _ _⟩
  · rw [h]
    exact other_heads hc

/-- Only a comment makes no token. -/
theorem comment?_of_kind_eq_none {cs : List Char} (h : (first cs).kind = none) :
    comment? cs = some (first cs) := by
  rcases first_cases cs with hfirst | hfirst | hfirst | hfirst | hfirst | hfirst | hfirst | hfirst
  · obtain ⟨word, _, heq⟩ := Option.map_eq_some_iff.1 hfirst
    rw [← heq] at h
    cases h
  · obtain ⟨sign, _, heq⟩ := Option.map_eq_some_iff.1 hfirst
    rw [← heq] at h
    cases h
  · rw [text?.eq_def] at hfirst
    grind
  · rw [number?] at hfirst
    grind
  · rw [var?.eq_def] at hfirst
    grind
  · rw [ident?] at hfirst
    grind
  · exact hfirst
  · rw [hfirst] at h
    cases h

/-! ## Cuts -/

/-- The line is cut, from a column on, into lexemes and blanks. -/
inductive Cut (row : List Char) : (column : Nat) → List (Nat × Lexeme) → Prop
  | done {column : Nat} : row.length ≤ column → Cut row column []
  | blank {column : Nat} {c : Char} {found : List (Nat × Lexeme)} :
      row[column]? = some c → Text.isBlank c = true → Cut row (column + 1) found →
      Cut row column found
  | lexeme {column : Nat} {c : Char} {l : Lexeme} {found : List (Nat × Lexeme)} :
      row[column]? = some c → Text.isBlank c = false → first (row.drop column) = l →
      Cut row (column + l.chars.length) found → Cut row column ((column, l) :: found)

/-- The characters that belong to the lexeme before are passed over. -/
theorem scan_eq_scan_drop (column inside : Nat) (cs : List Char) :
    scan column inside cs = scan (column + inside) 0 (cs.drop inside) := by
  induction cs generalizing column inside with
  | nil =>
    rw [List.drop_nil]
    cases inside <;> rfl
  | cons c cs ih =>
    cases inside with
    | zero => rfl
    | succ inside =>
      rw [scan, ih, List.drop_succ_cons]
      congr 1
      omega

/-- A blank moves the column by one. -/
theorem scan_cons_of_blank {column : Nat} {c : Char} {cs : List Char} (hc : Text.isBlank c = true) :
    scan column 0 (c :: cs) = scan (column + 1) 0 cs := by
  rw [scan, if_pos hc]

/-- After a lexeme, scanning goes on behind its last character. -/
theorem scan_cons_of_not_blank {column : Nat} {c : Char} {cs : List Char}
    (hc : Text.isBlank c = false) :
    scan column 0 (c :: cs) = (column, first (c :: cs)) ::
      scan (column + (first (c :: cs)).chars.length) 0
        ((c :: cs).drop (first (c :: cs)).chars.length) := by
  have hlength : 0 < (first (c :: cs)).chars.length :=
    List.length_pos_iff.2 (first_heads hc).ne_nil
  rw [scan, if_neg (by rw [hc]; decide)]
  dsimp only
  generalize first (c :: cs) = l at hlength ⊢
  obtain ⟨more, hmore⟩ := Nat.exists_eq_succ_of_ne_zero (Nat.ne_of_gt hlength)
  rw [scan_eq_scan_drop, hmore, Nat.succ_eq_add_one, Nat.add_one_sub_one, List.drop_succ_cons,
    Nat.add_assoc, Nat.add_comm 1]

/-- Scanning the rest of a line cuts it. -/
theorem scan_cut (row : List Char) (column : Nat) :
    Cut row column (scan column 0 (row.drop column)) := by
  -- Every lexeme has a character, so what is left of the line gets shorter.
  induction hleft : row.length - column using Nat.strongRecOn generalizing column with
  | _ left ih =>
    rcases Nat.lt_or_ge column row.length with hlt | hge
    · have hc : row[column]? = some row[column] := List.getElem?_eq_getElem hlt
      have hdrop : row.drop column = row[column] :: row.drop (column + 1) :=
        List.drop_eq_getElem_cons hlt
      by_cases hblank : Text.isBlank row[column] = true
      · rw [hdrop, scan_cons_of_blank hblank]
        exact .blank hc hblank (ih _ (by omega) (column + 1) rfl)
      · rw [Bool.not_eq_true] at hblank
        have hheads : Heads (first (row.drop column)).chars (row.drop column) := by
          rw [hdrop]
          exact first_heads hblank
        have hlength := List.length_pos_iff.2 hheads.ne_nil
        rw [hdrop, scan_cons_of_not_blank hblank, ← hdrop, List.drop_drop]
        exact .lexeme hc hblank rfl (ih _ (by omega) _ rfl)
    · rw [List.drop_eq_nil_of_le hge]
      exact .done hge

namespace Cut

variable {row : List Char} {column : Nat} {found : List (Nat × Lexeme)}

/-- No lexeme of the rest starts in front of it. -/
theorem le_of_mem (h : Cut row column found) : ∀ x ∈ found, column ≤ x.1 := by
  induction h with
  | done => exact fun _ hx => absurd hx List.not_mem_nil
  | blank _ _ _ ih => exact fun x hx => Nat.le_of_succ_le (ih x hx)
  | lexeme _ _ _ _ ih =>
    intro x hx
    rcases List.mem_cons.1 hx with rfl | hx
    · exact Nat.le_refl _
    · exact Nat.le_trans (Nat.le_add_right _ _) (ih x hx)

/-- Each lexeme is the one that stands at its column, which is not blank. -/
theorem first_eq (h : Cut row column found) :
    ∀ x ∈ found, first (row.drop x.1) = x.2 ∧
      ∃ c, row[x.1]? = some c ∧ Text.isBlank c = false := by
  induction h with
  | done => exact fun _ hx => absurd hx List.not_mem_nil
  | blank _ _ _ ih => exact ih
  | lexeme hc hblank hfirst _ ih =>
    intro x hx
    rcases List.mem_cons.1 hx with rfl | hx
    · exact ⟨hfirst, _, hc, hblank⟩
    · exact ih x hx

/-- A lexeme stands in the row, at its column. -/
theorem heads (h : Cut row column found) {x : Nat × Lexeme} (hx : x ∈ found) :
    Heads x.2.chars (row.drop x.1) := by
  obtain ⟨hfirst, c, hc, hblank⟩ := h.first_eq x hx
  obtain ⟨hlt, rfl⟩ := List.getElem?_eq_some_iff.1 hc
  rw [← hfirst, List.drop_eq_getElem_cons hlt]
  exact first_heads hblank

/-- Lexemes come from left to right and do not overlap. -/
theorem pairwise (h : Cut row column found) :
    found.Pairwise fun x y => x.1 + x.2.chars.length ≤ y.1 := by
  induction h with
  | done => exact .nil
  | blank _ _ _ ih => exact ih
  | lexeme _ _ _ hrest ih => exact .cons (fun y hy => hrest.le_of_mem y hy) ih

/-- A character is blank or belongs to a lexeme. -/
theorem covers (h : Cut row column found) :
    ∀ i c, column ≤ i → row[i]? = some c →
      Text.isBlank c = true ∨ ∃ x ∈ found, x.1 ≤ i ∧ i < x.1 + x.2.chars.length := by
  induction h with
  | done hle =>
    intro i c hi hc
    obtain ⟨hlt, -⟩ := List.getElem?_eq_some_iff.1 hc
    omega
  | @blank column b _ hb hblank _ ih =>
    intro i c hi hc
    rcases Nat.eq_or_lt_of_le hi with rfl | hlt
    · rw [hb] at hc
      cases hc
      exact .inl hblank
    · exact ih i c hlt hc
  | @lexeme column _ l _ _ _ _ _ ih =>
    intro i c hi hc
    rcases Nat.lt_or_ge i (column + l.chars.length) with hlt | hge
    · exact .inr ⟨(column, l), List.mem_cons_self, hi, hlt⟩
    · rcases ih i c hge hc with hblank | ⟨x, hx, hin⟩
      · exact .inl hblank
      · exact .inr ⟨x, List.mem_cons_of_mem _ hx, hin⟩

/-- A lexeme begins where the cut begins, behind a blank, or where another lexeme ends. -/
theorem opens (h : Cut row column found) :
    ∀ x ∈ found, x.1 = column ∨ (∃ i c, x.1 = i + 1 ∧ row[i]? = some c ∧ Text.isBlank c = true) ∨
      ∃ y ∈ found, y.1 + y.2.chars.length = x.1 := by
  induction h with
  | done => exact fun _ hx => absurd hx List.not_mem_nil
  | blank hc hblank _ ih =>
    intro x hx
    rcases ih x hx with heq | hopens
    · exact .inr (.inl ⟨_, _, heq, hc, hblank⟩)
    · exact .inr hopens
  | lexeme _ _ _ _ ih =>
    intro x hx
    rcases List.mem_cons.1 hx with rfl | hx
    · exact .inl rfl
    · rcases ih x hx with heq | hblank | ⟨y, hy, hend⟩
      · exact .inr (.inr ⟨_, List.mem_cons_self, heq.symm⟩)
      · exact .inr (.inl hblank)
      · exact .inr (.inr ⟨y, List.mem_cons_of_mem _ hy, hend⟩)

/-- A comment begins with its sign and ends with the line. -/
theorem comment (h : Cut row column found) {x : Nat × Lexeme} (hx : x ∈ found)
    (hkind : x.2.kind = none) :
    row[x.1]? = some '#' ∧ x.1 + x.2.chars.length = row.length := by
  obtain ⟨hfirst, c, hc, -⟩ := h.first_eq x hx
  rw [← hfirst] at hkind
  obtain ⟨hsign, heq⟩ := comment?_eq_some (comment?_of_kind_eq_none hkind)
  obtain ⟨hlt, -⟩ := List.getElem?_eq_some_iff.1 hc
  rw [List.head?_drop] at hsign
  refine ⟨hsign, ?_⟩
  rw [← hfirst, heq]
  show x.1 + (row.drop x.1).length = row.length
  rw [List.length_drop]
  omega

/-- Neither of the lexemes reaches into the other. -/
def Apart (x y : Nat × Lexeme) : Prop :=
  x.1 + x.2.chars.length ≤ y.1 ∨ y.1 + y.2.chars.length ≤ x.1

instance : Std.Symm Apart :=
  ⟨fun _ _ => Or.symm⟩

/-- Every other lexeme ends before a comment begins. -/
theorem le_comment (h : Cut row column found) {x y : Nat × Lexeme} (hx : x ∈ found) (hy : y ∈ found)
    (hkind : x.2.kind = none) (hne : y ≠ x) : y.1 + y.2.chars.length ≤ x.1 := by
  have hapart : found.Pairwise Apart := h.pairwise.imp Or.inl
  rcases hapart.forall hy hx hne with hbefore | hbehind
  · exact hbefore
  · -- Behind the comment the line has no characters, and `y` has one.
    obtain ⟨-, hend⟩ := h.comment hx hkind
    obtain ⟨-, c, hc, -⟩ := h.first_eq y hy
    obtain ⟨hlt, -⟩ := List.getElem?_eq_some_iff.1 hc
    omega

end Cut

end Zed.Lexeme

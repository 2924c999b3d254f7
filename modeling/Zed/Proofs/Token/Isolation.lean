import Zed.Proofs.Token.Coverage
import Zed.Proofs.Token.Locality

/-!
# Lexemes on lines of their own

A lexeme that makes a token is found again when it stands alone on a line (`Lexeme.first_alone`).
Most classes look at what follows their lexeme, and the classes that are tried before look at it
too. But what made a lexeme what it is lies in its own characters: a keyword, symbol, number,
string, variable or identifier is the spelling of its kind, and any other run of characters ends at
a blank, so that taking the rest of the line away opens no other class for it.

So the lexemes of a text can be written one on each line, and the tokens stay the same but
for their places (`Token.ofSource_intercalate_lexemes`).
-/

set_option autoImplicit false

namespace Zed

namespace Lexeme

/-! ## What each class finds -/

/-- The lexeme that a token of this kind is written as. -/
def spelled (k : Token.Kind) : Lexeme :=
  ⟨some k, k.spelling.toList⟩

/-- A keyword is written as it is spelled. -/
theorem keyword?_spelled {cs : List Char} {l : Lexeme} (h : keyword? cs = some l) :
    ∃ word, l = spelled (.keyword word) := by
  obtain ⟨word, hword, rfl⟩ := Option.map_eq_some_iff.1 h
  rw [Keyword.ofSpelling?] at hword
  have hfound := List.find?_some hword
  have hspelling := eq_of_beq hfound
  refine ⟨word, ?_⟩
  rw [spelled, Token.Kind.spelling, hspelling, String.toList_ofList]

theorem symbol?_spelled {cs : List Char} {l : Lexeme} (h : symbol? cs = some l) :
    ∃ sign, l = spelled (.symbol sign) := by
  obtain ⟨sign, -, rfl⟩ := Option.map_eq_some_iff.1 h
  exact ⟨sign, rfl⟩

/-- A text is written as it is spelled, with its quotes. -/
theorem text?_spelled {cs : List Char} {l : Lexeme} (h : text? cs = some l) :
    ∃ body, l = spelled (.text body) := by
  rw [text?.eq_def] at h
  split at h
  · next cs =>
    dsimp only at h
    split at h
    · cases h
      have hchars : ("\"" ++ String.ofList (cs.takeWhile isBodyChar) ++ "\"").toList
          = '"' :: cs.takeWhile isBodyChar ++ ['"'] := by
        simp only [String.toList_append, String.toList_ofList]
        rfl
      exact ⟨String.ofList (cs.takeWhile isBodyChar), by rw [spelled, Token.Kind.spelling, hchars]⟩
    · cases h
  · cases h

/-- A fraction is a point and at least one digit. -/
theorem fraction?_eq_some {cs fraction : List Char} (h : fraction? cs = some fraction) :
    ∃ places, fraction = '.' :: places ∧ places ≠ [] ∧ ∀ d ∈ places, d.isDigit = true := by
  rw [fraction?.eq_def] at h
  split at h
  · dsimp only at h
    split at h
    · next hplaces =>
      cases h
      exact ⟨_, rfl, hplaces.1, List.all_eq_true.1 List.all_takeWhile⟩
    · cases h
  · cases h

/-- A number is written as its numeral. -/
theorem number?_spelled {cs : List Char} {l : Lexeme} (h : number? cs = some l) :
    ∃ spelling : String, IsNumeral spelling.toList ∧ l = spelled (.number spelling) := by
  have hfound : ∀ chars, IsNumeral chars → ∃ spelling : String, IsNumeral spelling.toList ∧
      (⟨some (.number (String.ofList chars)), chars⟩ : Lexeme) = spelled (.number spelling) := by
    intro chars hchars
    refine ⟨String.ofList chars, ?_, ?_⟩
    · rwa [String.toList_ofList]
    · rw [spelled, Token.Kind.spelling, String.toList_ofList]
  have hdigits : ∀ d ∈ cs.takeWhile Char.isDigit, d.isDigit = true :=
    List.all_eq_true.1 List.all_takeWhile
  rw [number?] at h
  split at h
  · cases h
  · next hne =>
    split at h
    · next fraction hfraction =>
      cases h
      obtain ⟨places, rfl, hplacesne, hplaces⟩ := fraction?_eq_some hfraction
      exact hfound _ (.point hne hdigits hplacesne hplaces)
    · split at h
      · cases h
        exact hfound _ (.whole hne hdigits)
      · cases h

theorem var?_spelled {cs : List Char} {l : Lexeme} (h : var? cs = some l) :
    ∃ name, l = spelled (.var name) := by
  rw [var?.eq_def] at h
  split at h
  · next c cs =>
    dsimp only at h
    split at h
    · cases h
      refine ⟨String.ofList (c :: cs.takeWhile Char.isDigit), ?_⟩
      rw [spelled, Token.Kind.spelling, String.toList_ofList]
    · cases h
  · cases h

theorem ident?_spelled {cs : List Char} {l : Lexeme} (h : ident? cs = some l) :
    ∃ name, l = spelled (.ident name) := by
  rw [ident?] at h
  split at h
  · cases h
    refine ⟨String.ofList (cs.takeWhile isIdentChar), ?_⟩
    rw [spelled, Token.Kind.spelling, String.toList_ofList]
  · cases h

theorem other_spelled (cs : List Char) :
    other cs = spelled (.other (String.ofList (cs.takeWhile fun c => !Text.isBlank c))) := by
  rw [spelled, Token.Kind.spelling, String.toList_ofList]
  rfl

/-- A lexeme that makes a token is the spelling of its kind. -/
theorem first_spelled {cs : List Char} {k : Token.Kind} (h : (first cs).kind = some k) :
    first cs = spelled k := by
  have hsame : ∀ {k'}, first cs = spelled k' → first cs = spelled k := by
    intro k' hk'
    rw [hk'] at h
    cases h
    exact hk'
  rcases first_cases cs with hfirst | hfirst | hfirst | hfirst | hfirst | hfirst | hfirst | hfirst
  · exact (keyword?_spelled hfirst).elim fun _ => hsame
  · exact (symbol?_spelled hfirst).elim fun _ => hsame
  · exact (text?_spelled hfirst).elim fun _ => hsame
  · exact (number?_spelled hfirst).elim fun _ hl => hsame hl.2
  · exact (var?_spelled hfirst).elim fun _ => hsame
  · exact (ident?_spelled hfirst).elim fun _ => hsame
  · rw [(comment?_eq_some hfirst).2] at h
    cases h
  · exact hsame (hfirst.trans (other_spelled cs))

/-- No class that is tried before strings takes a quote. -/
theorem first_of_text? {cs : List Char} {l : Lexeme} (h : text? cs = some l) : first cs = l := by
  have hquote : ∃ ds, cs = '"' :: ds := by
    rw [text?.eq_def] at h
    split at h
    · exact ⟨_, rfl⟩
    · cases h
  obtain ⟨ds, rfl⟩ := hquote
  rw [first, keyword?_cons (by decide), symbol?_cons (.inr rfl), h]
  rfl

/-- A lexeme is a comment, or the spelling of a kind that can be printed, or a run of other
characters, in which no string begins. -/
theorem first_shape (cs : List Char) :
    comment? cs = some (first cs) ∨ (∃ k : Token.Kind, k.Printable ∧ first cs = spelled k) ∨
      first cs = other cs ∧ text? cs = none := by
  have hadmitted := first_admitted cs
  rcases first_cases cs with h | h | h | h | h | h | h | h
  · obtain ⟨word, hword⟩ := keyword?_spelled h
    exact .inr (.inl ⟨.keyword word, trivial, hword⟩)
  · obtain ⟨sign, hsign⟩ := symbol?_spelled h
    exact .inr (.inl ⟨.symbol sign, trivial, hsign⟩)
  · obtain ⟨body, hbody⟩ := text?_spelled h
    rw [hbody] at hadmitted
    exact .inr (.inl ⟨.text body, hadmitted _ rfl, hbody⟩)
  · obtain ⟨spelling, hnumeral, hspelling⟩ := number?_spelled h
    exact .inr (.inl ⟨.number spelling, hnumeral, hspelling⟩)
  · obtain ⟨name, hname⟩ := var?_spelled h
    rw [hname] at hadmitted
    exact .inr (.inl ⟨.var name, hadmitted _ rfl, hname⟩)
  · obtain ⟨name, hname⟩ := ident?_spelled h
    rw [hname] at hadmitted
    exact .inr (.inl ⟨.ident name, hadmitted _ rfl, hname⟩)
  · exact .inl h
  · refine .inr (.inr ⟨h, ?_⟩)
    cases htext : text? cs with
    | none => rfl
    | some l =>
      obtain ⟨body, rfl⟩ := text?_spelled htext
      rw [first_of_text? htext] at h
      cases h

/-! ## A lexeme alone -/

/-- A lexeme that makes a token is found again if it stands alone. -/
theorem first_alone {c : Char} {cs : List Char} {k : Token.Kind} (hc : Text.isBlank c = false)
    (h : (first (c :: cs)).kind = some k) :
    first (first (c :: cs)).chars = first (c :: cs) := by
  rcases first_shape (c :: cs) with hcomment | ⟨k, hk, hspelled⟩ | ⟨hother, htext⟩
  · rw [(comment?_eq_some hcomment).2] at h
    cases h
  · have halone := first_printable hk .nil
    rw [List.append_nil] at halone
    rw [hspelled]
    exact halone
  · -- The run ends at a blank, and what follows that blank has been of no use.
    let visible : Char → Bool := fun d => !Text.isBlank d
    have hrun : (c :: cs).takeWhile visible = c :: cs.takeWhile visible :=
      List.takeWhile_cons_of_pos (by rw [Bool.not_eq_true', hc])
    have hsplit := (c :: cs).takeWhile_append_dropWhile (p := visible)
    have hparted : Parted ((c :: cs).dropWhile visible) := by
      intro d hd
      have hvisible := List.head?_dropWhile_not visible (c :: cs)
      rw [Option.mem_def.1 hd] at hvisible
      simpa [visible] using hvisible
    generalize (c :: cs).dropWhile visible = rest at hsplit hparted
    rw [hrun] at hsplit
    have hsign : c ≠ '#' := by
      rintro rfl
      rw [first_sign] at h
      cases h
    have hclosed : text? (c :: cs.takeWhile visible) = none := by
      cases hsome : text? (c :: cs.takeWhile visible) with
      | none => rfl
      | some l =>
        rw [← hsplit, text?_append_of_eq_some rest hsome] at htext
        cases htext
    have hchars : (first (c :: cs)).chars = c :: cs.takeWhile visible := by
      rw [hother]
      exact hrun
    calc first (first (c :: cs)).chars
        = first (c :: cs.takeWhile visible) := by rw [hchars]
      _ = first (c :: cs.takeWhile visible ++ rest) :=
        (first_append hparted hsign (by rw [hsplit, htext, hclosed])).symm
      _ = first (c :: cs) := by rw [hsplit]

/-- A lexeme that makes a token has no line break in it. -/
theorem flat_of_kind {c : Char} {cs : List Char} {k : Token.Kind}
    (h : (first (c :: cs)).kind = some k) :
    '\n' ∉ (first (c :: cs)).chars := by
  rcases first_shape (c :: cs) with hcomment | ⟨k, hk, hspelled⟩ | ⟨hother, -⟩
  · rw [(comment?_eq_some hcomment).2] at h
    cases h
  · rw [hspelled]
    exact hk.flat
  · rw [hother]
    intro hmem
    have hvisible := List.all_eq_true.1 List.all_takeWhile _ hmem
    exact absurd hvisible (by decide)

/-- A line with one lexeme on it is scanned as that lexeme. -/
theorem scan_alone {row : List Char} {x : Nat × Lexeme} {k : Token.Kind} (hx : x ∈ scan 0 0 row)
    (hk : x.2.kind = some k) : scan 0 0 x.2.chars = [(0, x.2)] ∧ '\n' ∉ x.2.chars := by
  obtain ⟨hfirst, c, hc, hblank⟩ := (scan_cut row 0).first_eq x hx
  obtain ⟨hlt, rfl⟩ := List.getElem?_eq_some_iff.1 hc
  have hheads := (scan_cut row 0).heads hx
  rw [List.drop_eq_getElem_cons hlt] at hfirst hheads
  rw [← hfirst] at hk
  have halone := first_alone hblank hk
  have hflat := flat_of_kind hk
  rw [hfirst] at halone hflat
  refine ⟨?_, hflat⟩
  -- The lexeme begins with the character that is not blank.
  obtain ⟨d, ds, hchars⟩ := List.exists_cons_of_ne_nil hheads.ne_nil
  have hprefix := hheads.isPrefix
  rw [hchars, List.cons_prefix_cons] at hprefix
  rw [← hprefix.1] at hblank
  rw [hchars] at halone ⊢
  rw [scan_cons_of_not_blank hblank, halone, hchars, List.drop_length]
  rfl

end Lexeme

/-! ## One lexeme on each line -/

namespace Text

/-- Parts without line feeds are the segments of the text that is joined from them. -/
theorem segments_intercalate {parts : List (List Char)} (hne : parts ≠ [])
    (h : ∀ part ∈ parts, '\n' ∉ part) :
    segments (['\n'].intercalate parts) = parts := by
  induction parts with
  | nil => exact absurd rfl hne
  | cons part parts ih =>
    obtain ⟨hpart, hparts⟩ := List.forall_mem_cons.1 h
    cases parts with
    | nil =>
      rw [List.intercalate_singleton]
      exact segments_of_flat hpart
    | cons next parts =>
      rw [List.intercalate_cons_cons, List.append_assoc, List.singleton_append, segments_append,
        segments_of_flat hpart, ih (List.cons_ne_nil _ _) hparts]
      rfl

end Text

namespace Token

/-- The token at the beginning of a line. -/
def opening (number : Nat) (t : Token) : Token :=
  { t with position := ⟨number, 0⟩ }

/-- The lexeme of a token, on a line of its own, makes that token. -/
theorem ofLine_lexeme {source : String} {t : Token} (ht : t ∈ ofSource source) (number : Nat) :
    ofLine number t.lexeme.toList = [t.opening number] ∧ '\n' ∉ t.lexeme.toList := by
  obtain ⟨n, row, -, ht⟩ := mem_ofSource.1 ht
  obtain ⟨x, hx, kind, hkind, rfl⟩ := mem_ofLine.1 ht
  obtain ⟨hscan, hflat⟩ := Lexeme.scan_alone hx hkind
  rw [ofKind, String.toList_ofList]
  refine ⟨?_, hflat⟩
  rw [ofLine, hscan, List.filterMap_cons, ofLexeme?, hkind]
  rfl

/-- Lexemes on lines of their own make their tokens, each at the beginning of its line. -/
theorem ofRows_lexemes {ts : List Token}
    (h : ∀ t ∈ ts, ∀ number, ofLine number t.lexeme.toList = [t.opening number]) (number : Nat) :
    ofRows number (ts.map fun t => t.lexeme.toList)
      = ts.mapIdx fun i t => t.opening (i + number) := by
  induction ts generalizing number with
  | nil => rfl
  | cons t ts ih =>
    obtain ⟨ht, hts⟩ := List.forall_mem_cons.1 h
    rw [List.map_cons, ofRows_cons, ht, ih hts, List.mapIdx_cons, Nat.zero_add]
    simp only [Nat.add_assoc, Nat.add_comm 1, List.singleton_append]

/-- If the lexemes of a text are written one on each line, its tokens are found again in order, each
at the beginning of its line. -/
theorem ofSource_intercalate_lexemes (source : String) :
    ofSource ("\n".intercalate ((ofSource source).map Token.lexeme))
      = (ofSource source).mapIdx fun i t => ⟨t.kind, t.lexeme, ⟨i + 1, 0⟩⟩ := by
  have halone : ∀ t ∈ ofSource source,
      ∀ number, ofLine number t.lexeme.toList = [t.opening number] :=
    fun t ht number => (ofLine_lexeme ht number).1
  have hflat : ∀ t ∈ ofSource source, '\n' ∉ t.lexeme.toList := fun t ht => (ofLine_lexeme ht 1).2
  generalize ofSource source = ts at halone hflat
  rw [ofSource_eq_segments, String.toList_intercalate, List.map_map]
  show ofRows 1 (Text.segments (['\n'].intercalate (ts.map fun t => t.lexeme.toList))) = _
  by_cases hempty : ts = []
  · subst hempty
    rfl
  · have hrows : ∀ row ∈ ts.map fun t => t.lexeme.toList, '\n' ∉ row := List.forall_mem_map.2 hflat
    rw [Text.segments_intercalate (by rwa [ne_eq, List.map_eq_nil_iff]) hrows]
    exact ofRows_lexemes halone 1

end Token

end Zed

import Zed.Proofs.Token.Table

/-!
# Bytes of a line

A line is stored in UTF-8, and its places can be given by byte offsets instead of columns. Offsets
are less safe than columns: an offset can lie behind the end of the line or between two bytes of one
character. So every access here is checked and has no result (`none`) where it is not allowed:

* `splitAt?` cuts a line at an offset, `slice?` takes what is between two offsets,
  `byte?` reads one byte;
* `runLength?` counts the bytes of a class from an offset on, and `isBoundary?` asks whether a word
  begins or ends at an offset.

`splitAt?_eq_some_iff` says what the check is: an offset is allowed exactly if it is the number of
bytes of some characters at the beginning of the line. At such an offset each of the other
operations has a result, and it is what the operation on characters gives (`slice?_size`,
`runLength?_size`, `isBoundary?_size`). For the last two this rests on one property of the encoding:
all bytes of a character beyond ASCII are at least 128, and no class of bytes that is given by ASCII
characters has such a byte (`within_mirrors`).
-/

set_option autoImplicit false

namespace Zed.Bytes

/-! ## Encoding -/

/-- The bytes of a text in UTF-8. -/
def ofChars (cs : List Char) : List UInt8 :=
  cs.flatMap String.utf8EncodeChar

/-- The number of bytes of a text. -/
def size (cs : List Char) : Nat :=
  (ofChars cs).length

@[simp] theorem ofChars_nil : ofChars [] = [] := rfl

@[simp] theorem ofChars_cons (c : Char) (cs : List Char) :
    ofChars (c :: cs) = String.utf8EncodeChar c ++ ofChars cs := rfl

@[simp] theorem ofChars_append (cs ds : List Char) :
    ofChars (cs ++ ds) = ofChars cs ++ ofChars ds :=
  List.flatMap_append

@[simp] theorem size_cons (c : Char) (cs : List Char) : size (c :: cs) = c.utf8Size + size cs := by
  rw [size, ofChars_cons, List.length_append, String.length_utf8EncodeChar]
  rfl

/-- The bytes of characters in a row are those of both parts. -/
@[simp] theorem size_append (cs ds : List Char) : size (cs ++ ds) = size cs + size ds := by
  rw [size, ofChars_append, List.length_append]
  rfl

theorem size_pos {cs : List Char} (h : cs ≠ []) : 0 < size cs := by
  obtain ⟨c, cs, rfl⟩ := List.exists_cons_of_ne_nil h
  rw [size_cons]
  exact Nat.add_pos_left c.utf8Size_pos _

/-- Every character takes a byte. -/
theorem size_eq_zero {cs : List Char} : size cs = 0 ↔ cs = [] := by
  refine ⟨fun h => ?_, fun h => h ▸ rfl⟩
  by_contra hne
  exact absurd h (Nat.ne_of_gt (size_pos hne))

/-- The end of a text takes no more bytes than the text. -/
theorem size_le_of_suffix {cs ds : List Char} (h : cs <:+ ds) : size cs ≤ size ds := by
  obtain ⟨rest, rfl⟩ := h
  rw [size_append]
  exact Nat.le_add_left _ _

theorem exists_byte (c : Char) : ∃ b bs, String.utf8EncodeChar c = b :: bs :=
  List.exists_cons_of_ne_nil String.utf8EncodeChar_ne_nil

/-- A character of ASCII is one byte, its code. -/
theorem utf8EncodeChar_of_ascii {c : Char} (h : c.toNat < 128) :
    String.utf8EncodeChar c = [c.toUInt8] :=
  String.utf8EncodeChar_eq_singleton
    (Char.utf8Size_eq_one_iff.2 (UInt32.le_iff_toNat_le.2 (Nat.le_of_lt_succ h)))

/-- A character below 128 is its own byte. -/
theorem toNat_toUInt8 {c : Char} (h : c.toNat < 128) : c.toUInt8.toNat = c.toNat := by
  have hmod : c.toUInt8.toNat = c.toNat % 2 ^ 8 := UInt32.toNat_toUInt8 c.val
  omega

/-- Every byte of a character beyond ASCII is at least 128. -/
theorem le_of_mem_utf8EncodeChar {c : Char} {b : UInt8} (h : 128 ≤ c.toNat)
    (hb : b ∈ String.utf8EncodeChar c) : 128 ≤ b.toNat := by
  have hval : c.val.toNat = c.toNat := rfl
  have hmark : ∀ n k, 128 ≤ k → n + k < 256 → 128 ≤ (UInt8.ofNat (n + k)).toNat := by
    intro n k hk hlt
    rw [UInt8.toNat_ofNat_of_lt' hlt]
    omega
  -- The leading byte is marked by 192, 224 or 240, all others are marked by 128.
  simp only [String.utf8EncodeChar, hval] at hb
  rw [if_neg (by omega)] at hb
  split at hb
  · simp only [List.mem_cons, List.not_mem_nil, or_false] at hb
    rcases hb with rfl | rfl <;> exact hmark _ _ (by omega) (by omega)
  · split at hb
    · simp only [List.mem_cons, List.not_mem_nil, or_false] at hb
      rcases hb with rfl | rfl | rfl <;> exact hmark _ _ (by omega) (by omega)
    · simp only [List.mem_cons, List.not_mem_nil, or_false] at hb
      rcases hb with rfl | rfl | rfl | rfl <;> exact hmark _ _ (by omega) (by omega)

/-! ## Slices -/

/-- Cuts a text behind its first `n` bytes. Nothing can be cut behind the end or
inside a character. -/
def splitAt? (n : Nat) : List Char → Option (List Char × List Char)
  | [] => if n = 0 then some ([], []) else none
  | c :: cs =>
    if n = 0 then some ([], c :: cs)
    else if c.utf8Size ≤ n then (splitAt? (n - c.utf8Size) cs).map
      fun parts => (c :: parts.1, parts.2)
    else none

/-- What follows an offset. -/
def tail? (row : List Char) (start : Nat) : Option (List Char) :=
  (splitAt? start row).map Prod.snd

/-- What stands between two offsets. -/
def slice? (row : List Char) (start stop : Nat) : Option (List Char) :=
  if start ≤ stop then do
    let rest ← tail? row start
    let parts ← splitAt? (stop - start) rest
    return parts.1
  else none

/-- A text can be split at the offset of any of its characters. -/
theorem splitAt?_size (cs ds : List Char) : splitAt? (size cs) (cs ++ ds) = some (cs, ds) := by
  induction cs with
  | nil => cases ds <;> rfl
  | cons c cs ih =>
    have hpos := c.utf8Size_pos
    rw [List.cons_append, splitAt?, size_cons, if_neg (by omega), if_pos (Nat.le_add_right _ _),
      Nat.add_sub_cancel_left, ih]
    rfl

/-- A text can be cut exactly where some of its characters end. -/
theorem splitAt?_eq_some_iff {n : Nat} {row cs ds : List Char} :
    splitAt? n row = some (cs, ds) ↔ row = cs ++ ds ∧ n = size cs := by
  refine ⟨fun h => ?_, fun h => by rw [h.1, h.2, splitAt?_size]⟩
  induction row generalizing n cs ds with
  | nil =>
    rw [splitAt?] at h
    split at h
    · next hn =>
      cases h
      exact ⟨rfl, hn⟩
    · cases h
  | cons c row ih =>
    rw [splitAt?] at h
    split at h
    · next hn =>
      cases h
      exact ⟨rfl, hn⟩
    · split at h
      · next hle =>
        obtain ⟨parts, hparts, heq⟩ := Option.map_eq_some_iff.1 h
        obtain ⟨hrow, hsize⟩ := ih hparts
        cases heq
        rw [List.cons_append, ← hrow, size_cons, ← hsize]
        exact ⟨rfl, by omega⟩
      · cases h

/-- In other words, the offset is a valid position of the text. -/
theorem isValid_iff {row : List Char} {n : Nat} :
    String.Pos.Raw.IsValid (String.ofList row) ⟨n⟩ ↔ ∃ cs ds, row = cs ++ ds ∧ n = size cs := by
  have hend : ∀ cs : List Char, (String.ofList cs).rawEndPos = ⟨size cs⟩ := by
    intro cs
    rw [String.rawEndPos, String.utf8ByteSize, String.toByteArray_ofList, List.utf8Encode,
      List.size_toByteArray]
    rfl
  rw [String.Pos.Raw.isValid_iff_exists_append]
  constructor
  · rintro ⟨s, t, hrow, hn⟩
    refine ⟨s.toList, t.toList, ?_, ?_⟩
    · rw [← String.toList_append, ← hrow, String.toList_ofList]
    · rw [← String.ofList_toList (s := s), hend] at hn
      exact congrArg String.Pos.Raw.byteIdx hn
  · rintro ⟨cs, ds, rfl, rfl⟩
    exact ⟨String.ofList cs, String.ofList ds, String.ofList_append, (hend cs).symm⟩

/-- Behind the bytes of some characters the other characters follow. -/
theorem tail?_size (before cs : List Char) : tail? (before ++ cs) (size before) = some cs := by
  rw [tail?, splitAt?_size]
  rfl

/-- The bytes of a part are the part. -/
theorem slice?_size (before : List Char) {part cs : List Char} (h : part <+: cs) :
    slice? (before ++ cs) (size before) (size before + size part) = some part := by
  obtain ⟨rest, rfl⟩ := h
  rw [slice?, if_pos (Nat.le_add_right _ _), tail?_size, Nat.add_sub_cancel_left]
  simp only [Option.bind_eq_bind, Option.bind_some, splitAt?_size]
  rfl

/-! ## Single bytes -/

/-- The byte at an offset. -/
def byte? (row : List Char) (i : Nat) : Option UInt8 :=
  (ofChars row)[i]?

/-- The byte at the offset of a character is its first one. -/
theorem byte?_size (before cs : List Char) :
    byte? (before ++ cs) (size before) = (ofChars cs).head? := by
  rw [byte?, ofChars_append, size, List.getElem?_append_right (Nat.le_refl _), Nat.sub_self,
    List.head?_eq_getElem?]

/-- The byte in front of an offset is the last one of the character there. -/
theorem byte?_size_sub_one {before : List Char} (h : before ≠ []) (cs : List Char) :
    byte? (before ++ cs) (size before - 1) = (ofChars before).getLast? := by
  have hlt : size before - 1 < (ofChars before).length := Nat.sub_one_lt_of_lt (size_pos h)
  rw [byte?, ofChars_append, List.getElem?_append_left hlt, List.getLast?_eq_getElem?]
  rfl

/-! ## Classes of bytes -/

/-- The class of the bytes in some ranges of ASCII characters, which include both their ends. -/
def within (ranges : List (Char × Char)) (b : UInt8) : Bool :=
  ranges.any fun range => range.1.toUInt8 ≤ b && b ≤ range.2.toUInt8

/-- The bytes of words. -/
def isWordByte : UInt8 → Bool :=
  within [('A', 'Z'), ('a', 'z'), ('0', '9'), ('_', '_')]

/-- The bytes of digits. -/
def isDigitByte : UInt8 → Bool :=
  within [('0', '9')]

/-- The bytes of capital letters. -/
def isCapitalByte : UInt8 → Bool :=
  within [('A', 'Z')]

/-- The bytes of identifiers. -/
def isIdentByte : UInt8 → Bool :=
  within [('A', 'Z'), ('a', 'z'), ('_', '_')]

/-- The bytes of string bodies. -/
def isBodyByte : UInt8 → Bool :=
  within [(' ', ' '), ('!', '!'), ('#', '~')]

/-- A class of bytes stands for a class of characters: its bytes are the whole encodings of the
characters of the class, and no other character has such a byte. -/
structure Mirrors (q : UInt8 → Bool) (p : Char → Bool) : Prop where
  accepted : ∀ {c}, p c = true → String.utf8EncodeChar c = [c.toUInt8] ∧ q c.toUInt8 = true
  rejected : ∀ {c}, p c = false → ∀ b ∈ String.utf8EncodeChar c, q b = false

/-- A class of characters below 128 can be told from single bytes. -/
theorem within_mirrors {ranges : List (Char × Char)}
    (hranges : ∀ range ∈ ranges, range.1.toNat < 128 ∧ range.2.toNat < 128) :
    Mirrors (within ranges) (Pattern.within ranges) := by
  have hle : ∀ {c d : Char}, c ≤ d ↔ c.toNat ≤ d.toNat := UInt32.le_iff_toNat_le
  constructor
  · intro c hc
    obtain ⟨range, hrange, hbetween⟩ := List.any_eq_true.1 hc
    obtain ⟨hlo, hhi⟩ := hranges range hrange
    rw [Bool.and_eq_true, decide_eq_true_eq, decide_eq_true_eq, hle, hle] at hbetween
    have hascii : c.toNat < 128 := Nat.lt_of_le_of_lt hbetween.2 hhi
    refine ⟨utf8EncodeChar_of_ascii hascii, List.any_eq_true.2 ⟨range, hrange, ?_⟩⟩
    rwa [Bool.and_eq_true, decide_eq_true_eq, decide_eq_true_eq, UInt8.le_iff_toNat_le,
      UInt8.le_iff_toNat_le, toNat_toUInt8 hlo, toNat_toUInt8 hhi, toNat_toUInt8 hascii]
  · intro c hc b hb
    rw [Bool.eq_false_iff] at hc ⊢
    intro hwithin
    obtain ⟨range, hrange, hbetween⟩ := List.any_eq_true.1 hwithin
    obtain ⟨hlo, hhi⟩ := hranges range hrange
    rw [Bool.and_eq_true, decide_eq_true_eq, decide_eq_true_eq, UInt8.le_iff_toNat_le,
      UInt8.le_iff_toNat_le, toNat_toUInt8 hlo, toNat_toUInt8 hhi] at hbetween
    -- So the byte is below 128 and is the whole character.
    have hascii : c.toNat < 128 := by
      by_contra hge
      have := le_of_mem_utf8EncodeChar (Nat.le_of_not_lt hge) hb
      omega
    rw [utf8EncodeChar_of_ascii hascii, List.mem_singleton] at hb
    rw [hb, toNat_toUInt8 hascii, ← hle, ← hle] at hbetween
    refine hc (List.any_eq_true.2 ⟨range, hrange, ?_⟩)
    rwa [Bool.and_eq_true, decide_eq_true_eq, decide_eq_true_eq]

theorem isWordByte_mirrors : Mirrors isWordByte Lexeme.isWordChar :=
  Lexeme.isWord_eq ▸ within_mirrors (by decide)

theorem isDigitByte_mirrors : Mirrors isDigitByte Char.isDigit :=
  Lexeme.within_digits ▸ within_mirrors (by decide)

theorem isCapitalByte_mirrors : Mirrors isCapitalByte Char.isUpper :=
  Lexeme.within_capitals ▸ within_mirrors (by decide)

theorem isIdentByte_mirrors : Mirrors isIdentByte Lexeme.isIdentChar :=
  Lexeme.within_letters ▸ within_mirrors (by decide)

theorem isBodyByte_mirrors : Mirrors isBodyByte Lexeme.isBodyChar :=
  Lexeme.within_body ▸ within_mirrors (by decide)

/-- The first byte of a text is the code of an ASCII character exactly if the first character
is this one. -/
theorem head?_ofChars_eq_iff {d : Char} (hd : d.toNat < 128) (cs : List Char) :
    (ofChars cs).head? = some d.toUInt8 ↔ cs.head? = some d := by
  cases cs with
  | nil => simp
  | cons c cs =>
    rw [ofChars_cons, List.head?_cons, Option.some_inj]
    rcases Nat.lt_or_ge c.toNat 128 with hc | hc
    · rw [utf8EncodeChar_of_ascii hc, List.singleton_append, List.head?_cons, Option.some_inj,
        ← UInt8.toNat_inj, toNat_toUInt8 hc, toNat_toUInt8 hd, Char.toNat_inj]
    · constructor
      · intro h
        obtain ⟨b, bs, hbytes⟩ := exists_byte c
        have hb := le_of_mem_utf8EncodeChar hc (hbytes ▸ List.mem_cons_self)
        rw [hbytes, List.cons_append, List.head?_cons, Option.some_inj] at h
        rw [h, toNat_toUInt8 hd] at hb
        omega
      · rintro rfl
        omega

namespace Mirrors

variable {q : UInt8 → Bool} {p : Char → Bool}

/-- The run of a class in the bytes is the run of the class in the characters. -/
theorem takeWhile_ofChars (h : Mirrors q p) (cs : List Char) :
    (ofChars cs).takeWhile q = ofChars (cs.takeWhile p) := by
  induction cs with
  | nil => rfl
  | cons c cs ih =>
    cases hc : p c with
    | true =>
      obtain ⟨hbytes, hq⟩ := h.accepted hc
      rw [List.takeWhile_cons_of_pos hc, ofChars_cons, ofChars_cons, hbytes, List.singleton_append,
        List.takeWhile_cons_of_pos hq, ih, List.singleton_append]
    | false =>
      -- The run ends at the first byte of the character already.
      obtain ⟨b, bs, hbytes⟩ := exists_byte c
      have hb : ¬ q b = true := by
        rw [h.rejected hc b (hbytes ▸ List.mem_cons_self)]
        decide
      rw [List.takeWhile_cons_of_neg (by rw [hc]; decide), ofChars_cons, hbytes, List.cons_append,
        List.takeWhile_cons_of_neg hb]
      rfl

/-- A byte of a character is of the class exactly if the character is. -/
theorem eq_of_mem (h : Mirrors q p) {c : Char} {b : UInt8} (hb : b ∈ String.utf8EncodeChar c) :
    q b = p c := by
  cases hc : p c with
  | true =>
    obtain ⟨hbytes, hq⟩ := h.accepted hc
    rw [hbytes, List.mem_singleton] at hb
    rw [hb, hq]
  | false => exact h.rejected hc b hb

/-- Whether the first character is in a class can be told from the first byte. -/
theorem any_head? (h : Mirrors q p) (cs : List Char) :
    (ofChars cs).head?.any q = cs.head?.any p := by
  cases cs with
  | nil => rfl
  | cons c cs =>
    obtain ⟨b, bs, hbytes⟩ := exists_byte c
    rw [ofChars_cons, hbytes, List.cons_append, List.head?_cons, List.head?_cons, Option.any_some,
      Option.any_some, h.eq_of_mem (hbytes ▸ List.mem_cons_self)]

/-- Whether the last character is in a class can be told from the last byte. -/
theorem any_getLast? (h : Mirrors q p) (cs : List Char) :
    (ofChars cs).getLast?.any q = cs.getLast?.any p := by
  rcases List.eq_nil_or_concat cs with rfl | ⟨cs, c, rfl⟩
  · rfl
  · have hne := @String.utf8EncodeChar_ne_nil c
    rw [List.concat_eq_append, ofChars_append, List.getLast?_concat, ofChars_cons, ofChars_nil,
      List.append_nil, List.getLast?_append_of_ne_nil _ hne, List.getLast?_eq_getLast_of_ne_nil hne,
      Option.any_some, Option.any_some, h.eq_of_mem (List.getLast_mem hne)]

end Mirrors

/-! ## Runs and boundaries -/

/-- The number of bytes of a class from an offset on. -/
def runLength? (row : List Char) (start : Nat) (accept : UInt8 → Bool) : Option Nat :=
  if start ≤ size row then some (((ofChars row).drop start).takeWhile accept).length else none

/-- The byte before an offset belongs to a word. -/
def isWordBefore? (row : List Char) (i : Nat) : Option Bool :=
  if 0 < i then (byte? row (i - 1)).map isWordByte else some false

/-- The byte behind an offset belongs to a word. -/
def isWordBehind? (row : List Char) (i : Nat) : Option Bool :=
  if i < size row then (byte? row i).map isWordByte else some false

/-- Of the bytes before and behind an offset, exactly one belongs to a word. -/
def isBoundary? (row : List Char) (i : Nat) : Option Bool := do
  let before ← isWordBefore? row i
  let behind ← isWordBehind? row i
  return before != behind

/-- The length of a run can be told from the bytes. -/
theorem runLength?_size {q : UInt8 → Bool} {p : Char → Bool} (h : Mirrors q p)
    (before cs : List Char) :
    runLength? (before ++ cs) (size before) q = some (size (cs.takeWhile p)) := by
  rw [runLength?, if_pos (by rw [size_append]; exact Nat.le_add_right _ _), ofChars_append, size,
    List.drop_left, h.takeWhile_ofChars]
  rfl

/-- Whether a word stands in front of an offset can be told from one byte. -/
theorem isWordBefore?_size (before cs : List Char) :
    isWordBefore? (before ++ cs) (size before) = some (before.getLast?.any Lexeme.isWordChar) := by
  by_cases hne : before = []
  · subst hne
    rfl
  · have hbytes : ofChars before ≠ [] := List.length_pos_iff.1 (size_pos hne)
    rw [isWordBefore?, if_pos (size_pos hne), byte?_size_sub_one hne,
      ← isWordByte_mirrors.any_getLast?, List.getLast?_eq_getLast_of_ne_nil hbytes]
    rfl

theorem isWordBehind?_size (before cs : List Char) :
    isWordBehind? (before ++ cs) (size before) = some (cs.head?.any Lexeme.isWordChar) := by
  by_cases hne : cs = []
  · subst hne
    rw [isWordBehind?, List.append_nil, if_neg (Nat.lt_irrefl _)]
    rfl
  · obtain ⟨b, bs, hbytes⟩ := List.exists_cons_of_ne_nil (List.length_pos_iff.1 (size_pos hne))
    rw [isWordBehind?, size_append, if_pos (Nat.lt_add_of_pos_right (size_pos hne)), byte?_size,
      ← isWordByte_mirrors.any_head?, hbytes]
    rfl

/-- At a boundary, a word begins or ends. -/
theorem isBoundary?_size (before cs : List Char) :
    isBoundary? (before ++ cs) (size before)
      = some (before.getLast?.any Lexeme.isWordChar != cs.head?.any Lexeme.isWordChar) := by
  rw [isBoundary?, isWordBefore?_size, isWordBehind?_size]
  rfl

/-- The test at bytes and the test at columns agree. -/
theorem isBoundary?_eq_atBoundary (before cs : List Char) :
    isBoundary? (before ++ cs) (size before)
      = some (Pattern.atBoundary (before ++ cs) before.length) := by
  rw [isBoundary?_size, Pattern.atBoundary, Lexeme.isWord_eq,
    List.getElem?_append_right (Nat.le_refl _), Nat.sub_self, List.head?_eq_getElem?]
  rcases List.eq_nil_or_concat before with rfl | ⟨before, c, rfl⟩
  · rfl
  · simp

end Zed.Bytes

/-!
# SHA-1

The digest that identifies a source text: SHA-1 of its UTF-8 bytes, in lowercase hexadecimal digits.
The message is filled up to whole blocks of sixteen 32-bit words, and each block stirs a state of
five words in eighty rounds.
-/

set_option autoImplicit false

namespace Zed.Digest

/-! ## Blocks of a message -/

/-- The bytes that fill a message of `size` bytes up: a single one bit, zeros, and the number of
bits of the message as eight bytes. -/
def padding (size : Nat) : List UInt8 :=
  let zeros := (119 - size % 64) % 64
  0x80 :: List.replicate zeros 0
    ++ (List.range 8).map fun i => (8 * size / Nat.pow 256 (7 - i)).toUInt8

/-- Four bytes as a word, the highest first. -/
def word (a b c d : UInt8) : UInt32 :=
  (a.toUInt32 <<< 24) ||| (b.toUInt32 <<< 16) ||| (c.toUInt32 <<< 8) ||| d.toUInt32

/-- Bytes as words; fewer than four bytes at the end are left out. -/
def words : List UInt8 → List UInt32
  | a :: b :: c :: d :: rest => word a b c d :: words rest
  | _ => []

/-! ## The state -/

/-- The five words that are stirred. -/
structure State where
  a : UInt32
  b : UInt32
  c : UInt32
  d : UInt32
  e : UInt32
  deriving DecidableEq, Repr

namespace State

/-- The state before the first block. -/
def initial : State :=
  ⟨0x67452301, 0xEFCDAB89, 0x98BADCFE, 0x10325476, 0xC3D2E1F0⟩

/-- Wordwise sum. -/
def add (s t : State) : State :=
  ⟨s.a + t.a, s.b + t.b, s.c + t.c, s.d + t.d, s.e + t.e⟩

end State

/-- Turns the bits of a word to the left. -/
def rotate (x : UInt32) (count : UInt32) : UInt32 :=
  (x <<< count) ||| (x >>> (32 - count))

/-- How round number `t` mixes three words, and the constant it adds. -/
def mix (t : Nat) (b c d : UInt32) : UInt32 × UInt32 :=
  if t < 20 then ((b &&& c) ||| (~~~b &&& d), 0x5A827999)
  else if t < 40 then (b ^^^ c ^^^ d, 0x6ED9EBA1)
  else if t < 60 then ((b &&& c) ||| (b &&& d) ||| (c &&& d), 0x8F1BBCDC)
  else (b ^^^ c ^^^ d, 0xCA62C1D6)

/-- One round with its number and word. -/
def round (s : State) (t : Nat) (w : UInt32) : State :=
  let mixed := mix t s.b s.c s.d
  ⟨rotate s.a 5 + mixed.1 + s.e + w + mixed.2, s.a, rotate s.b 30, s.c, s.d⟩

/-- The rounds from number `t` on. `window` holds the sixteen words that the next rounds take; each
word that leaves it is replaced at the end by one made of the others. -/
def rounds : (left : Nat) → (t : Nat) → (window : List UInt32) → State → State
  | left + 1, t, w :: window, s =>
    let next := rotate (w ^^^ window.getD 1 0 ^^^ window.getD 7 0 ^^^ window.getD 12 0) 1
    rounds left (t + 1) (window ++ [next]) (round s t w)
  | _, _, _, s => s

/-- Stirs one block of sixteen words. -/
def stir (s : State) (block : List UInt32) : State :=
  s.add (rounds 80 0 block s)

/-- Stirs all blocks of a message. There are at most `fuel` of them. -/
def stirAll : (fuel : Nat) → State → List UInt32 → State
  | fuel + 1, s, w :: ws => stirAll fuel (stir s ((w :: ws).take 16)) ((w :: ws).drop 16)
  | _, s, _ => s

/-! ## Hexadecimal digits -/

/-- A word as eight hexadecimal digits. -/
def hexWord (w : UInt32) : List Char :=
  (Nat.toDigits 16 w.toNat).leftpad 8 '0'

/-- The digest of a list of bytes. -/
def ofBytes (bytes : List UInt8) : String :=
  let message := words (bytes ++ padding bytes.length)
  let s := stirAll message.length .initial message
  String.ofList ([s.a, s.b, s.c, s.d, s.e].flatMap hexWord)

/-- The digest of a text. -/
def ofText (text : String) : String :=
  ofBytes text.toUTF8.data.toList

end Zed.Digest

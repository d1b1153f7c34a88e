import Inlining.Arithmetic

/-!
# Texts

Texts as users and graph readers spell them.

* Blank characters are those with the Unicode property `White_Space`; they are cut off both ends of
  a text.
* An integer is an optional sign and at least one digit, nothing else. Only ASCII digits count, and
  a value outside the signed 64-bit range is refused.
* A label in a DOT graph stands between double quotes. Quotes, backslashes and angle brackets are
  escaped by a backslash, a line feed becomes backslash and `n`, and carriage returns are dropped: a
  DOT reader has no spelling for them.

## Main definitions

* `Text.trim` — a text without the blanks at both ends
* `Text.integer64?` — reading an integer
* `Text.Label.escape` — writing a label
-/

namespace Inlining.Text

/-! ### Blanks -/

/-- The ranges of code points with the property `White_Space`, in ascending order. -/
def blankRanges : List (Nat × Nat) :=
  [(0x09, 0x0d), (0x20, 0x20), (0x85, 0x85), (0xa0, 0xa0), (0x1680, 0x1680), (0x2000, 0x200a),
    (0x2028, 0x2029), (0x202f, 0x202f), (0x205f, 0x205f), (0x3000, 0x3000)]

/-- Whether a character is blank. -/
def isBlank (c : Char) : Bool :=
  blankRanges.any fun (lo, hi) => lo ≤ c.toNat && c.toNat ≤ hi

/-- The characters without the blanks at both ends. -/
def trim (cs : List Char) : List Char :=
  ((cs.dropWhile isBlank).reverse.dropWhile isBlank).reverse

/-! ### Integers -/

/-- The value of a digit. -/
def digitValue (c : Char) : Nat := c.toNat - '0'.toNat

/-- The number that a list of digits spells. -/
def ofDigits (cs : List Char) : Nat := cs.foldl (fun n c => 10 * n + digitValue c) 0

/-- A natural number: at least one digit and only digits. -/
def natural? (cs : List Char) : Option Nat :=
  if cs.isEmpty || !cs.all Char.isDigit then none else some (ofDigits cs)

/-- An integer with an optional sign, of any size. -/
def integer? : List Char → Option Int
  | '+' :: cs => (natural? cs).map Int.ofNat
  | '-' :: cs => (natural? cs).map fun n => -Int.ofNat n
  | cs => (natural? cs).map Int.ofNat

/-- A signed 64-bit integer. -/
def integer64? (s : String) : Option Int :=
  (integer? s.toList).filter Word.isSigned

/-! ### Labels -/

namespace Label

/-- The spelling of one character inside a label. -/
def encodeChar : Char → List Char
  | '\\' => ['\\', '\\']
  | '"' => ['\\', '"']
  | '\n' => ['\\', 'n']
  | '\r' => []
  | '<' => ['\\', '<']
  | '>' => ['\\', '>']
  | c => [c]

/-- The spelling of a text inside a label. -/
def encode (cs : List Char) : List Char := cs.flatMap encodeChar

/-- The escaped form of a string. -/
def escape (s : String) : String := String.ofList (encode s.toList)

end Label

end Inlining.Text

/-!
# Blank characters

The characters with the Unicode property White_Space, and the trimming and word splitting that
rest on them.  A stylesheet separates its tokens by five of these characters only
(`isCssBlank`).
-/

namespace AtomicStyle.Text

/-- The ranges of the Unicode property White_Space, ascending. -/
def blankRanges : List (Nat × Nat) :=
  [(0x09, 0x0D), (0x20, 0x20), (0x85, 0x85), (0xA0, 0xA0), (0x1680, 0x1680), (0x2000, 0x200A),
    (0x2028, 0x2029), (0x202F, 0x202F), (0x205F, 0x205F), (0x3000, 0x3000)]

/-- Whether a character has the Unicode property White_Space. -/
def isBlank (c : Char) : Bool :=
  blankRanges.any fun range => range.1 ≤ c.toNat && c.toNat ≤ range.2

/-- The blanks of CSS syntax: tab, line feed, form feed, carriage return and space. -/
def isCssBlank (c : Char) : Bool :=
  c == ' ' || c == '\t' || c == '\n' || c == '\x0c' || c == '\r'

/-- Every blank of CSS syntax is a Unicode blank. -/
theorem isBlank_of_isCssBlank {c : Char} (h : isCssBlank c = true) : isBlank c = true := by
  simp only [isCssBlank, Bool.or_eq_true, beq_iff_eq] at h
  rcases h with (((rfl | rfl) | rfl) | rfl) | rfl <;> decide

def trimStart (s : List Char) : List Char :=
  s.dropWhile isBlank

def trimEnd (s : List Char) : List Char :=
  (s.reverse.dropWhile isBlank).reverse

/-- A text without the blanks at its two ends. -/
def trim (s : List Char) : List Char :=
  trimEnd (trimStart s)

/-- The maximal runs without a blank, in order. -/
def words (s : List Char) : List (List Char) :=
  (s.splitOnP isBlank).filter (!·.isEmpty)

/-- The words of a string. -/
def wordsOf (s : String) : List String :=
  (words s.toList).map String.ofList

/-- A string without the blanks at its two ends. -/
def trimmed (s : String) : String :=
  String.ofList (trim s.toList)

/-- The ASCII letters in lower case; every other character stays. -/
def lower (s : String) : String :=
  String.ofList (s.toList.map Char.toLower)

end AtomicStyle.Text

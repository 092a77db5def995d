/-!
# Digests

A 32-bit hash of a text, written in base 36.  Class names and variable names are built from these
digests, so two places that declare the same style agree on its name without knowing each other.
-/

namespace AtomicStyle.Digest

/-- The odd factor of every mixing step. -/
def factor : UInt32 := 0x5bd1e995

/-- The word of four bytes, lowest first. -/
def word (a b c d : UInt8) : UInt32 :=
  a.toUInt32 ||| (b.toUInt32 <<< 8) ||| (c.toUInt32 <<< 16) ||| (d.toUInt32 <<< 24)

/-- One word spread over all of its bits. -/
def scramble (k : UInt32) : UInt32 :=
  let k := k * factor
  (k ^^^ (k >>> 24)) * factor

/-- The state after one word. -/
def absorb (h k : UInt32) : UInt32 :=
  h * factor ^^^ scramble k

/-- The state after all bytes: words of four, then the bytes that remain. -/
def absorbAll (h : UInt32) : List UInt8 → UInt32
  | a :: b :: c :: d :: rest => absorbAll (absorb h (word a b c d)) rest
  | [] => h
  | [a] => (h ^^^ word a 0 0 0) * factor
  | [a, b] => (h ^^^ word a b 0 0) * factor
  | [a, b, c] => (h ^^^ word a b c 0) * factor

/-- The final spread of the state. -/
def finish (h : UInt32) : UInt32 :=
  let h := (h ^^^ (h >>> 13)) * factor
  h ^^^ (h >>> 15)

/-- The hash of a list of bytes. -/
def ofBytes (seed : UInt32) (bytes : List UInt8) : UInt32 :=
  finish (absorbAll (seed ^^^ bytes.length.toUInt32) bytes)

/-- The UTF-8 bytes of a text. -/
def bytesOf (s : String) : List UInt8 :=
  s.toList.flatMap String.utf8EncodeChar

/-- The hash of a text. -/
def ofText (seed : UInt32) (s : String) : UInt32 :=
  ofBytes seed (bytesOf s)

/-- A digit of base 36: the ten decimal digits, then the lower-case letters. -/
def digit (n : Nat) : Char :=
  if n < 10 then Char.ofNat ('0'.toNat + n) else Char.ofNat ('a'.toNat + (n - 10))

/-- The base 36 digits of a number, highest first. -/
def digits (n : Nat) : List Char :=
  if n < 36 then [digit n] else digits (n / 36) ++ [digit (n % 36)]

/-- The digest of a text. -/
def hash (s : String) : String :=
  String.ofList (digits (ofText 0 s).toNat)

/-- The number of characters of a token. -/
def tokenLength : Nat := 4

/-- The first four digits of a digest, filled up with zeros on the left. -/
def token (s : String) : String :=
  let first := (digits (ofText 0 s).toNat).take tokenLength
  String.ofList (List.replicate (tokenLength - first.length) '0' ++ first)

end AtomicStyle.Digest

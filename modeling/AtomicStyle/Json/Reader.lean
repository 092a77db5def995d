import AtomicStyle.Json.Basic
import AtomicStyle.Number.Reader

/-!
# Reading JSON

The text of a document is cut into tokens, and the tokens are read one after the other.  What has
been read so far is the containers that are open, innermost first, and what may follow.
-/

namespace AtomicStyle.Json

/-! ## Tokens -/

inductive Token where
  | openBrace
  | closeBrace
  | openBracket
  | closeBracket
  | colon
  | comma
  /-- A string without its quotes, its escapes as they are written. -/
  | string (body : List Char)
  /-- A number, `true`, `false`, `null`, or something that is none of these. -/
  | word (chars : List Char)
deriving DecidableEq, Repr

def isSpace (c : Char) : Bool :=
  c == ' ' || c == '\n' || c == '\t' || c == '\r'

/-- The token that a character is on its own. -/
def Token.ofChar? (c : Char) : Option Token :=
  match c with
  | '\x7b' => some .openBrace
  | '\x7d' => some .closeBrace
  | '[' => some .openBracket
  | ']' => some .closeBracket
  | ':' => some .colon
  | ',' => some .comma
  | _ => none

/-- Where the cutting stands: between tokens, or inside a word or a string whose characters so far
are given last one first. -/
inductive CutMode where
  | between
  | inWord (soFar : List Char)
  | inString (soFar : List Char)

/-- The tokens of a text; `none` where a string does not end or holds a control character. -/
def tokensFrom? : CutMode → List Char → Option (List Token)
  | .between, [] => some []
  | .inWord soFar, [] => some [.word soFar.reverse]
  | .inString _, [] => none
  | .between, c :: rest =>
    if isSpace c then tokensFrom? .between rest
    else if c == '"' then tokensFrom? (.inString []) rest
    else
      match Token.ofChar? c with
      | some token => (tokensFrom? .between rest).map (token :: ·)
      | none => tokensFrom? (.inWord [c]) rest
  | .inWord soFar, c :: rest =>
    let word := Token.word soFar.reverse
    if isSpace c then (tokensFrom? .between rest).map (word :: ·)
    else if c == '"' then (tokensFrom? (.inString []) rest).map (word :: ·)
    else
      match Token.ofChar? c with
      | some token => (tokensFrom? .between rest).map (word :: token :: ·)
      | none => tokensFrom? (.inWord (c :: soFar)) rest
  | .inString soFar, '\\' :: c :: rest => tokensFrom? (.inString (c :: '\\' :: soFar)) rest
  | .inString soFar, c :: rest =>
    if c == '"' then (tokensFrom? .between rest).map (Token.string soFar.reverse :: ·)
    else if c.toNat < 0x20 then none
    else tokensFrom? (.inString (c :: soFar)) rest

/-! ## Strings -/

/-- A character of a string, or a 16-bit unit that an escape stands for. -/
inductive Piece where
  | char (c : Char)
  | unit (n : Nat)
deriving DecidableEq, Repr

def hexValue? (c : Char) : Option Nat :=
  if c.isDigit then some (c.toNat - '0'.toNat)
  else if 'a' ≤ c && c ≤ 'f' then some (c.toNat - 'a'.toNat + 10)
  else if 'A' ≤ c && c ≤ 'F' then some (c.toNat - 'A'.toNat + 10)
  else none

/-- The character that a letter after a backslash stands for. -/
def simpleEscape? (c : Char) : Option Char :=
  match c with
  | '"' => some '"'
  | '\\' => some '\\'
  | '/' => some '/'
  | 'b' => some '\x08'
  | 'f' => some '\x0c'
  | 'n' => some '\n'
  | 'r' => some '\r'
  | 't' => some '\t'
  | _ => none

/-- The pieces of a string; `none` where an escape is malformed. -/
def pieces? : List Char → Option (List Piece)
  | [] => some []
  | '\\' :: 'u' :: a :: b :: c :: d :: rest => do
    let unit := (((← hexValue? a) * 16 + (← hexValue? b)) * 16 + (← hexValue? c)) * 16
      + (← hexValue? d)
    return .unit unit :: (← pieces? rest)
  | ['\\'] => none
  | '\\' :: c :: rest => do
    let char ← simpleEscape? c
    return .char char :: (← pieces? rest)
  | c :: rest => do
    return .char c :: (← pieces? rest)

/-- The text that pieces spell.  Two units between them stand for one character beyond the first
65536; such a unit alone stands for none. -/
def join? : List Piece → Option (List Char)
  | [] => some []
  | .char c :: rest => (join? rest).map (c :: ·)
  | [.unit n] => if 0xD800 ≤ n && n ≤ 0xDFFF then none else some [Char.ofNat n]
  | .unit n :: .unit m :: rest =>
    if 0xD800 ≤ n && n ≤ 0xDBFF && 0xDC00 ≤ m && m ≤ 0xDFFF then
      (join? rest).map (Char.ofNat (0x10000 + (n - 0xD800) * 0x400 + (m - 0xDC00)) :: ·)
    else if 0xD800 ≤ n && n ≤ 0xDFFF then none
    else (join? (.unit m :: rest)).map (Char.ofNat n :: ·)
  | .unit n :: .char c :: rest =>
    if 0xD800 ≤ n && n ≤ 0xDFFF then none
    else (join? rest).map (Char.ofNat n :: c :: ·)

/-- The content of a string; `none` where it is malformed. -/
def content? (body : List Char) : Option (Option String) :=
  (pieces? body).map fun pieces => (join? pieces).map String.ofList

/-! ## Words -/

/-- The digits and the sign of an exponent. -/
def exponent? (s : List Char) : Option (Option Int) :=
  match s with
  | [] => some none
  | c :: _ =>
    if c == 'e' || c == 'E' then (Number.exponent? s).map some else none

/-- The digits after a point and the rest. -/
def fraction? (s : List Char) : Option (List Char × List Char) :=
  match s with
  | '.' :: rest =>
    let (digits, after) := Number.digits rest
    if digits.isEmpty then none else some (digits, after)
  | _ => some ([], s)

/-- The numeral that a word is.  A zero in front stands alone. -/
def numeral? (word : List Char) : Option Numeral := do
  let (negative, body) := match word with
    | '-' :: rest => (true, rest)
    | _ => (false, word)
  let (whole, rest) := Number.digits body
  if whole.isEmpty || (whole.head? == some '0' && 1 < whole.length) then failure
  let (fraction, rest) ← fraction? rest
  let exponent ← exponent? rest
  return { negative, whole, fraction, exponent }

/-- The document that a word is. -/
def ofWord? (word : List Char) : Option Json :=
  if word == "null".toList then some .null
  else if word == "true".toList then some (.bool true)
  else if word == "false".toList then some (.bool false)
  else (numeral? word).map .number

/-! ## Documents -/

/-- A container that is open. -/
inductive Frame where
  | array (items : List Json)
  | object (members : List (Option String × Json))
  /-- An object in which the value of a member is being read. -/
  | member (members : List (Option String × Json)) (key : Option String)

/-- What may follow. -/
inductive Expecting where
  | value
  /-- A value, or the end of an array that is still empty. -/
  | firstItem
  | key
  /-- A key, or the end of an object that is still empty. -/
  | firstKey
  | colon
  /-- A comma or the end of the container. -/
  | separator
  | nothing (json : Json)

/-- What has been read: the open containers and what may follow. -/
structure Reading where
  around : List Frame := []
  expecting : Expecting := .value

namespace Reading

/-- Puts a value in its place. -/
def put? (around : List Frame) (json : Json) : Option Reading :=
  match around with
  | [] => some ⟨[], .nothing json⟩
  | .array items :: outer => some ⟨.array (items ++ [json]) :: outer, .separator⟩
  | .member members key :: outer => some ⟨.object (members ++ [(key, json)]) :: outer, .separator⟩
  | .object _ :: _ => none

/-- Reads the first token of a value. -/
def startValue? (around : List Frame) (token : Token) : Option Reading :=
  match token with
  | .openBrace => some ⟨.object [] :: around, .firstKey⟩
  | .openBracket => some ⟨.array [] :: around, .firstItem⟩
  | .string body => (content? body).bind fun text => put? around (.string text)
  | .word chars => (ofWord? chars).bind (put? around)
  | _ => none

/-- Reads the key of a member. -/
def startMember? (around : List Frame) (token : Token) : Option Reading :=
  match around, token with
  | .object members :: outer, .string body =>
    (content? body).map fun key => ⟨.member members key :: outer, .colon⟩
  | _, _ => none

/-- Ends a container, or goes on in it. -/
def separate? (around : List Frame) (token : Token) : Option Reading :=
  match around, token with
  | .array items :: outer, .closeBracket => put? outer (.array items)
  | .object members :: outer, .closeBrace => put? outer (.object members)
  | .array _ :: _, .comma => some ⟨around, .value⟩
  | .object _ :: _, .comma => some ⟨around, .key⟩
  | _, _ => none

/-- Reads one token. -/
def step? (reading : Reading) (token : Token) : Option Reading :=
  match reading.expecting with
  | .value => startValue? reading.around token
  | .firstItem =>
    if token = .closeBracket then separate? reading.around token
    else startValue? reading.around token
  | .key => startMember? reading.around token
  | .firstKey =>
    if token = .closeBrace then separate? reading.around token
    else startMember? reading.around token
  | .colon => if token = .colon then some ⟨reading.around, .value⟩ else none
  | .separator => separate? reading.around token
  | .nothing _ => none

end Reading

/-- The document of a text. -/
def parse? (text : String) : Option Json := do
  let tokens ← tokensFrom? .between text.toList
  let reading ← tokens.foldlM Reading.step? {}
  match reading.expecting with
  | .nothing json => some json
  | _ => none

end AtomicStyle.Json

import AtomicStyle.Expr.Printer
import AtomicStyle.Proofs.Decimals

/-!
# Reading expressions

A reader for the printed form of expressions, and what it does at each step.  It works from left
to right and knows no more than the printer does: operands are not ranked, and one blank stands
where the printer puts one.
-/

namespace AtomicStyle.Source

/-! ## Names -/

/-- Whether a character may stand in a name. -/
def isNameChar (c : Char) : Bool :=
  c.isAlphanum || c == '_' || c == '$' || decide (0x80 ≤ c.toNat)

/-- Whether a text is a name: name characters, the first of them no digit. -/
def isName (name : String) : Bool :=
  match name.toList with
  | [] => false
  | c :: rest => !c.isDigit && isNameChar c && rest.all isNameChar

/-! ## Reading -/

/-- The rest of a text behind what it starts with. -/
def skip? : List Char → List Char → Option (List Char)
  | [], s => some s
  | _ :: _, [] => none
  | c :: text, d :: s => if c = d then skip? text s else none

/-- The leading name of a text and what follows it. -/
def word (s : List Char) : String × List Char :=
  (String.ofList (s.takeWhile isNameChar), s.dropWhile isNameChar)

/-- The leading numeral of a text and what follows it. -/
def numeral (s : List Char) : List Char × List Char :=
  match (Number.digits s).2 with
  | '.' :: after =>
    if (Number.digits after).1.isEmpty then Number.digits s
    else ((Number.digits s).1 ++ '.' :: (Number.digits after).1, (Number.digits after).2)
  | _ => Number.digits s

/-- The number that a hexadecimal digit denotes. -/
def hexValue (c : Char) : Nat :=
  if c.isDigit then c.toNat - '0'.toNat else c.toNat - 'a'.toNat + 10

/-- The character that a backslash and another character stand for. -/
def unescaped (c : Char) : Char :=
  if c = 'n' then '\n'
  else if c = 'r' then '\r'
  else if c = 't' then '\t'
  else if c = 'b' then '\x08'
  else if c = 'f' then '\x0c'
  else c

/-- The text behind an opening quote up to the closing one, and what follows it. -/
def quoted? : List Char → Option (List Char × List Char)
  | [] => none
  | c :: rest =>
    if c = '"' then some ([], rest)
    else if c = '\\' then
      if rest.head? = some 'u' then do
        -- Only characters below 256 are written by their numbers.
        let (value, after) ← quoted? (rest.drop 5)
        some (Char.ofNat (16 * hexValue (rest.getD 3 '0') + hexValue (rest.getD 4 '0')) :: value,
          after)
      else do
        let (value, after) ← quoted? rest.tail
        some (unescaped (rest.headD '\\') :: value, after)
    else do
      let (value, after) ← quoted? rest
      some (c :: value, after)
termination_by s => s.length
decreasing_by all_goals simp only [List.length_cons, List.length_drop, List.length_tail]; omega

/-- A fixed text of a template, whether an expression follows it, and the rest. -/
def fixedText? : List Char → Option (List Char × Bool × List Char)
  | [] => none
  | c :: rest =>
    if c = '\x60' then some ([], false, rest)
    else if c = '$' ∧ rest.head? = some '\x7b' then some ([], true, rest.tail)
    else if c = '\\' ∧ rest.head? = some '\x60' then do
      let (value, more, after) ← fixedText? rest.tail
      some ('\x60' :: value, more, after)
    else do
      let (value, more, after) ← fixedText? rest
      some (c :: value, more, after)
termination_by s => s.length
decreasing_by all_goals simp only [List.length_cons, List.length_tail]; omega

/-- An operator between two operands. -/
inductive Connective where
  | binary (op : BinaryOp)
  | logical (op : LogicalOp)

namespace Connective

def symbol : Connective → String
  | binary op => op.symbol
  | logical op => op.symbol

/-- The operation on two operands. -/
def apply : Connective → Expr → Expr → Expr
  | binary op, left, right => .binary Span.none op left right
  | logical op, left, right => .logical Span.none op left right

end Connective

/-- The operators by their symbols; a question mark alone starts the cases of a condition. -/
def connectives : List (List Char × Option Connective) :=
  [(['+'], some (.binary .add)), (['-'], some (.binary .sub)), (['*'], some (.binary .mul)),
    (['/'], some (.binary .div)), (['%'], some (.binary .rem)),
    (['=', '=', '='], some (.binary .strictEq)), (['!', '=', '='], some (.binary .strictNe)),
    (['&', '&'], some (.logical .and)), (['|', '|'], some (.logical .or)),
    (['?', '?'], some (.logical .nullish)), (['?'], none)]

/-- The operator behind an operand. -/
def connective? (s : List Char) : Option (Option Connective × List Char) :=
  match s with
  | ' ' :: rest =>
    if rest.head? = some '\x7d' then none
    else
      (connectives.lookup (rest.takeWhile (· != ' '))).map fun op =>
        (op, (rest.dropWhile (· != ' ')).tail)
  | _ => none

/-- The operator in front of an operand. -/
def sign? (c : Char) : Option UnaryOp :=
  if c = '-' then some .neg
  else if c = '+' then some .plus
  else if c = '!' then some .not
  else none

/-- Whether a text goes on like a list of parameters: a comma or a parenthesis behind a name. -/
def startsParams (s : List Char) : Bool :=
  (s.dropWhile isNameChar).head?.any fun c => c == ',' || c == ')'

/-- Whether a text starts with a function. -/
def startsFunction (s : List Char) : Bool :=
  s.head? == some '(' && startsParams s.tail

/-- The rest of the parameters of a function, one of which is `name` so far, and its body. -/
def moreParams? (name : List Char) : List Char → Option (List String × List Char)
  | [] => none
  | c :: rest =>
    if c = ')' then
      (skip? [' ', '=', '>', ' '] rest).map fun body => ([String.ofList name], body)
    else if c = ',' then do
      let (names, body) ← moreParams? [] rest
      some (String.ofList name :: names, body)
    else if c = ' ' then moreParams? name rest
    else moreParams? (name ++ [c]) rest

/-- The parameters of a function, behind the parenthesis, and its body. -/
def params? (s : List Char) : Option (List String × List Char) :=
  match skip? [')', ' ', '=', '>', ' '] s with
  | some body => some ([], body)
  | none => moreParams? [] s

/-- A reader of expressions.  It reads the numerals that are printed as their numbers. -/
structure Reader where
  literal : List Char → Float
  literal_text (x : Float) : Number.isUnsigned x = true → literal (Number.text x).toList = x

namespace Reader

mutual

/-- The expression at the start of a text, and what follows it. -/
def expr? (reader : Reader) (s : List Char) : Option (Expr × List Char) :=
  if startsFunction s then do
    let (params, rest) ← params? s.tail
    let (body, rest) ← reader |>.expr? rest
    some (.function Span.none params body, rest)
  else do
    let (left, rest) ← reader |>.operand? s
    match connective? rest with
    | none => some (left, rest)
    | some (some op, rest) => do
      let (right, rest) ← reader |>.operand? rest
      some (op.apply left right, rest)
    | some (none, rest) => do
      let (yes, rest) ← reader |>.operand? rest
      let rest ← skip? [' ', ':', ' '] rest
      let (no, rest) ← reader |>.operand? rest
      some (.conditional Span.none left yes no, rest)
partial_fixpoint

/-- The operand at the start of a text. -/
def operand? (reader : Reader) (s : List Char) : Option (Expr × List Char) :=
  match s.head?.bind sign? with
  | some op => do
    let (arg, rest) ← reader |>.operand? s.tail
    some (.unary Span.none op arg, rest)
  | none => do
    let (target, rest) ← reader |>.atom? s
    reader |>.suffixes? target rest
partial_fixpoint

/-- An expression that starts with no other one. -/
def atom? (reader : Reader) (s : List Char) : Option (Expr × List Char) :=
  match s with
  | [] => none
  | c :: rest =>
    if c = '"' then do
      let (value, rest) ← quoted? rest
      some (.str Span.none (String.ofList value), rest)
    else if c = '\x60' then do
      let (texts, holes, rest) ← reader |>.template? rest
      some (.template Span.none texts holes, rest)
    else if c = '\x7b' then
      match skip? ['\x7d'] rest with
      | some rest => some (.object Span.none [], rest)
      | none => do
        let rest ← skip? [' '] rest
        let (members, rest) ← reader |>.members? rest
        some (.object Span.none members, rest)
    else if c = '[' then do
      let (items, rest) ← reader |>.items? ']' rest
      some (.array Span.none items, rest)
    else if c = '(' then do
      let (e, rest) ← reader |>.expr? rest
      let rest ← skip? [')'] rest
      some (e, rest)
    else if c.isDigit then
      some (.num Span.none (reader.literal (numeral s).1), (numeral s).2)
    else if isNameChar c then
      if (word s).1 = "true" then some (.bool Span.none true, (word s).2)
      else if (word s).1 = "false" then some (.bool Span.none false, (word s).2)
      else if (word s).1 = "null" then some (.null Span.none, (word s).2)
      else some (.ident Span.none (word s).1, (word s).2)
    else none
partial_fixpoint

/-- An expression with the members and calls that follow it. -/
def suffixes? (reader : Reader) (target : Expr) (s : List Char) : Option (Expr × List Char) :=
  match s with
  | [] => some (target, s)
  | c :: rest =>
    if c = '.' then reader |>.suffixes? (.field Span.none target (word rest).1) (word rest).2
    else if c = '[' then do
      let (key, rest) ← reader |>.expr? rest
      let rest ← skip? [']'] rest
      reader |>.suffixes? (.index Span.none target key) rest
    else if c = '(' then do
      let (args, rest) ← reader |>.items? ')' rest
      reader |>.suffixes? (.call Span.none target args) rest
    else some (target, s)
partial_fixpoint

/-- Expressions up to a closing bracket. -/
def items? (reader : Reader) (close : Char) (s : List Char) : Option (List Expr × List Char) :=
  match skip? [close] s with
  | some rest => some ([], rest)
  | none => reader |>.moreItems? close s
partial_fixpoint

def moreItems? (reader : Reader) (close : Char) (s : List Char) :
    Option (List Expr × List Char) := do
  let (e, rest) ← reader |>.expr? s
  match skip? [close] rest with
  | some rest => some ([e], rest)
  | none => do
    let rest ← skip? [',', ' '] rest
    let (items, rest) ← reader |>.moreItems? close rest
    some (e :: items, rest)
partial_fixpoint

/-- The members of an object up to its closing brace. -/
def members? (reader : Reader) (s : List Char) : Option (List Member × List Char) := do
  let (member, rest) ← reader |>.member? s
  match skip? [' ', '\x7d'] rest with
  | some rest => some ([member], rest)
  | none => do
    let rest ← skip? [',', ' '] rest
    let (members, rest) ← reader |>.members? rest
    some (member :: members, rest)
partial_fixpoint

def member? (reader : Reader) (s : List Char) : Option (Member × List Char) :=
  match s with
  | [] => none
  | c :: rest =>
    if c = '[' then do
      let (key, rest) ← reader |>.expr? rest
      let rest ← skip? [']', ':', ' '] rest
      let (value, rest) ← reader |>.expr? rest
      some (.computed key value, rest)
    else if c = '.' then do
      let rest ← skip? ['.', '.'] rest
      let (source, rest) ← reader |>.expr? rest
      some (.spread source, rest)
    else if c = '"' then do
      let (key, rest) ← quoted? rest
      let rest ← skip? [':', ' '] rest
      let (value, rest) ← reader |>.expr? rest
      some (.named (String.ofList key) value, rest)
    else
      match skip? [':', ' '] (word s).2 with
      | some rest => do
        let (value, rest) ← reader |>.expr? rest
        some (.named (word s).1 value, rest)
      | none => some (.shorthand (word s).1, (word s).2)
partial_fixpoint

/-- The texts and expressions of a template up to its closing quote. -/
def template? (reader : Reader) (s : List Char) :
    Option (List String × List Expr × List Char) := do
  let (text, more, rest) ← fixedText? s
  if more then do
    let (hole, rest) ← reader |>.expr? rest
    let rest ← skip? ['\x7d'] rest
    let (texts, holes, rest) ← reader |>.template? rest
    some (String.ofList text :: texts, hole :: holes, rest)
  else some ([String.ofList text], [], rest)
partial_fixpoint

end

end Reader

/-! ## Tokens -/

theorem dropWhile_of_head {p : Char → Bool} {rest : List Char} (h : ∀ c ∈ rest.head?, p c = false) :
    rest.takeWhile p = [] ∧ rest.dropWhile p = rest := by
  cases rest with
  | nil => exact ⟨rfl, rfl⟩
  | cons c rest => simp [h c rfl]

theorem word_append {name : List Char} (hname : name.all isNameChar = true) {rest : List Char}
    (hrest : ∀ c ∈ rest.head?, isNameChar c = false) :
    word (name ++ rest) = (String.ofList name, rest) := by
  obtain ⟨htake, hdrop⟩ := dropWhile_of_head hrest
  have hall := List.all_eq_true.mp hname
  rw [word, List.takeWhile_append_of_pos hall, List.dropWhile_append_of_pos hall, htake, hdrop,
    List.append_nil]

theorem isName_iff {name : String} :
    isName name = true ↔
      name.toList.all isNameChar = true ∧
        ∃ c rest, name.toList = c :: rest ∧ c.isDigit = false := by
  unfold isName
  split
  · next htext => simp [htext]
  · next c rest htext =>
    simp only [htext, Bool.and_eq_true, Bool.not_eq_true', List.all_cons]
    constructor
    · rintro ⟨⟨hdigit, hc⟩, hrest⟩
      exact ⟨⟨hc, hrest⟩, c, rest, rfl, hdigit⟩
    · rintro ⟨⟨hc, hrest⟩, c', rest', heq, hdigit⟩
      cases heq
      exact ⟨⟨hdigit, hc⟩, hrest⟩

/-- The first character of a name is no mark and no digit. -/
theorem exists_cons_of_isName {name : String} (hname : isName name = true) (rest : List Char) :
    ∃ c after, name.toList ++ rest = c :: after ∧ isNameChar c = true ∧ c.isDigit = false := by
  obtain ⟨hall, c, after, htext, hdigit⟩ := isName_iff.mp hname
  rw [htext] at hall ⊢
  exact ⟨c, after ++ rest, rfl, List.all_eq_true.mp hall c List.mem_cons_self, hdigit⟩

theorem ne_of_isNameChar {c mark : Char} (hc : isNameChar c = true)
    (hmark : isNameChar mark = false) : c ≠ mark := by
  rintro rfl
  exact Bool.false_ne_true (hmark.symm.trans hc)

/-- A name is read as it is written. -/
theorem word_of_isName {name : String} (hname : isName name = true) {rest : List Char}
    (hrest : ∀ c ∈ rest.head?, isNameChar c = false) :
    word (name.toList ++ rest) = (name, rest) := by
  rw [word_append (isName_iff.mp hname).1 hrest, String.ofList_toList]

theorem hexValue_hexDigit : ∀ n < 16, hexValue (Text.hexDigit n) = n := by
  decide

theorem not_isDigit_of_isAlpha {c : Char} (h : c.isAlpha = true) : c.isDigit = false := by
  have halpha : (decide (65 ≤ c.val ∧ c.val ≤ 90) || decide (97 ≤ c.val) && decide (c.val ≤ 122)) =
    true := h
  refine Bool.eq_false_iff.mpr fun hdigit => ?_
  have hdigit' : (decide (48 ≤ c.val) && decide (c.val ≤ 57)) = true := hdigit
  simp only [Bool.or_eq_true, Bool.and_eq_true, decide_eq_true_eq, UInt32.le_iff_toNat_le]
    at halpha hdigit'
  obtain ⟨hlow, -⟩ | ⟨hlow, -⟩ := halpha
  · exact absurd (Nat.le_trans hlow hdigit'.2) (by decide)
  · exact absurd (Nat.le_trans hlow hdigit'.2) (by decide)

theorem isName_of_isIdentifier {name : String} (h : isIdentifier name = true) :
    isName name = true := by
  unfold isIdentifier at h
  split at h
  · cases h
  · next c rest htext =>
    obtain ⟨hfirst, hrest⟩ := Bool.and_eq_true_iff.mp h
    have hdigit : c.isDigit = false := by
      simp only [Bool.or_eq_true, beq_iff_eq] at hfirst
      obtain (halpha | rfl) | rfl := hfirst
      · exact not_isDigit_of_isAlpha halpha
      · rfl
      · rfl
    have hkey : ∀ {d : Char}, (d.isAlphanum || d == '_' || d == '$') = true → isNameChar d = true :=
      fun h => Bool.or_eq_true_iff.mpr (.inl h)
    have halphanum : c.isAlpha = true → c.isAlphanum = true :=
      fun h => Bool.or_eq_true_iff.mpr (.inl h)
    have hall : ∀ d ∈ c :: rest, isNameChar d = true := by
      refine List.forall_mem_cons.mpr ⟨hkey ?_, fun d hd => hkey (List.all_eq_true.mp hrest d hd)⟩
      simp only [Bool.or_eq_true] at hfirst ⊢
      exact hfirst.imp_left (Or.imp_left halphanum)
    exact isName_iff.mpr ⟨htext ▸ List.all_eq_true.mpr hall, c, rest, htext, hdigit⟩

section Quoted

variable {rest value after : List Char}

theorem quoted?_cons {c : Char} (hquote : c ≠ '"') (hslash : c ≠ '\\')
    (h : quoted? rest = some (value, after)) :
    quoted? (c :: rest) = some (c :: value, after) := by
  rw [quoted?]
  dsimp only
  rw [if_neg hquote, if_neg hslash, h]
  rfl

theorem quoted?_escape {c : Char} (hu : c ≠ 'u') (h : quoted? rest = some (value, after)) :
    quoted? ('\\' :: c :: rest) = some (unescaped c :: value, after) := by
  rw [quoted?]
  simp [hu, h]

theorem quoted?_unicode (a b high low : Char) (h : quoted? rest = some (value, after)) :
    quoted? ('\\' :: 'u' :: a :: b :: high :: low :: rest) =
      some (Char.ofNat (16 * hexValue high + hexValue low) :: value, after) := by
  rw [quoted?]
  simp [h]

/-- An escaped character is read as it is. -/
theorem quoted?_escaped (c : Char) (h : quoted? rest = some (value, after)) :
    quoted? (Text.escaped c ++ rest) = some (c :: value, after) := by
  have hnamed : ∀ {d : Char}, d ≠ 'u' → unescaped d = c →
      quoted? ('\\' :: d :: rest) = some (c :: value, after) := by
    intro d hu hd
    rw [quoted?_escape hu h, hd]
  unfold Text.escaped
  simp only [beq_iff_eq]
  split
  · next heq => exact hnamed (by decide) heq.symm
  · next hquote =>
    split
    · next heq => exact hnamed (by decide) heq.symm
    · next hslash =>
      split
      · next heq => exact hnamed (by decide) heq.symm
      split
      · next heq => exact hnamed (by decide) heq.symm
      split
      · next heq => exact hnamed (by decide) heq.symm
      split
      · next heq => exact hnamed (by decide) heq.symm
      split
      · next heq => exact hnamed (by decide) heq.symm
      split
      · next hcontrol =>
        have hhigh : c.toNat / 16 < 16 := by omega
        have hvalue : Char.ofNat (16 * hexValue (Text.hexDigit (c.toNat / 16)) +
            hexValue (Text.hexDigit (c.toNat % 16))) = c := by
          rw [hexValue_hexDigit _ hhigh, hexValue_hexDigit _ (Nat.mod_lt _ (by decide)),
            Nat.div_add_mod, Char.ofNat_toNat]
        exact (quoted?_unicode _ _ _ _ h).trans (by rw [hvalue])
      · exact quoted?_cons hquote hslash h

/-- A quoted text is read as it is. -/
theorem quoted?_quoted (s rest : List Char) :
    quoted? (s.flatMap Text.escaped ++ '"' :: rest) = some (s, rest) := by
  induction s with
  | nil =>
    rw [List.flatMap_nil, List.nil_append, quoted?]
    rfl
  | cons c s ih =>
    rw [List.flatMap_cons, List.append_assoc]
    exact quoted?_escaped c ih

end Quoted

/-- Whether a text has no place where an expression starts in a template. -/
def hasNoHole : List Char → Bool
  | [] => true
  | c :: rest => !(c == '$' && rest.head? == some '\x7b') && hasNoHole rest

theorem fixedText?_close (rest : List Char) :
    fixedText? ('\x60' :: rest) = some ([], false, rest) := by
  rw [fixedText?]
  rfl

theorem fixedText?_open (rest : List Char) :
    fixedText? ('$' :: '\x7b' :: rest) = some ([], true, rest) := by
  rw [fixedText?]
  rfl

theorem fixedText?_cons {c : Char} {rest value after : List Char} {more : Bool}
    (hquote : c ≠ '\x60') (hdollar : ¬ (c = '$' ∧ rest.head? = some '\x7b'))
    (hslash : ¬ (c = '\\' ∧ rest.head? = some '\x60'))
    (h : fixedText? rest = some (value, more, after)) :
    fixedText? (c :: rest) = some (c :: value, more, after) := by
  rw [fixedText?]
  dsimp only
  rw [if_neg hquote, if_neg hdollar, if_neg hslash, h]
  rfl

theorem fixedText?_escape {rest value after : List Char} {more : Bool}
    (h : fixedText? rest = some (value, more, after)) :
    fixedText? ('\\' :: '\x60' :: rest) = some ('\x60' :: value, more, after) := by
  rw [fixedText?]
  simp [h]

/-- The printed characters of a fixed text. -/
def fixedChars (s : List Char) : List Char :=
  s.flatMap fun c => if c == '\x60' then ['\\', '\x60'] else [c]

theorem head?_fixedChars_append (s rest : List Char) :
    (fixedChars s ++ rest).head? =
      s.head?.elim rest.head? fun c => some (if c = '\x60' then '\\' else c) := by
  cases s with
  | nil => rfl
  | cons c s =>
    rw [fixedChars, List.flatMap_cons]
    simp only [beq_iff_eq]
    split <;> simp [*]

/-- A fixed text is read up to where it ends. -/
theorem fixedText?_fixedChars {s : List Char} (hhole : hasNoHole s = true) {rest after : List Char}
    {more : Bool} (hrest : fixedText? rest = some ([], more, after))
    (hbrace : rest.head? ≠ some '\x7b')
    (hend : s.getLast? = some '\\' → rest.head? ≠ some '\x60') :
    fixedText? (fixedChars s ++ rest) = some (s, more, after) := by
  induction s with
  | nil => exact hrest
  | cons c s ih =>
    simp only [hasNoHole, Bool.and_eq_true] at hhole
    have ih := ih hhole.2 fun hlast => hend (by rw [List.getLast?_cons, hlast]; rfl)
    by_cases hquote : c = '\x60'
    · subst hquote
      exact fixedText?_escape ih
    · have hchars : fixedChars (c :: s) = c :: fixedChars s := by
        simp [fixedChars, hquote]
      rw [hchars, List.cons_append]
      refine fixedText?_cons hquote ?_ ?_ ih <;> rw [head?_fixedChars_append] <;>
        rintro ⟨rfl, hnext⟩
      · cases s with
        | nil => exact hbrace hnext
        | cons d s =>
          by_cases hd : d = '\x60' <;> simp_all
      · cases s with
        | nil => exact hend rfl hnext
        | cons d s =>
          by_cases hd : d = '\x60' <;> simp_all

/-- What may follow a name or a numeral. -/
def endsToken (s : List Char) : Bool :=
  !s.head?.any isNameChar && !(s.head? == some '.' && s.tail.head?.any Char.isDigit)

theorem not_isNameChar_of_endsToken {rest : List Char} (h : endsToken rest = true) :
    ∀ c ∈ rest.head?, isNameChar c = false := by
  intro c hc
  simp_all [endsToken]

theorem isNameChar_of_isDigit {c : Char} (h : c.isDigit = true) : isNameChar c = true := by
  have halphanum : c.isAlphanum = true := Bool.or_eq_true_iff.mpr (.inr h)
  simp [isNameChar, halphanum]

/-- A numeral starts with a digit. -/
theorem exists_cons_of_written {s : List Char} {d : Number.Decimal} (h : Number.Written s d)
    (rest : List Char) : ∃ c after, s ++ rest = c :: after ∧ c.isDigit = true := by
  have hstart : ∀ {ds : List Char} (more : List Char), ds ≠ [] → (∀ d ∈ ds, d.isDigit = true) →
      ∃ c after, ds ++ more = c :: after ∧ c.isDigit = true := by
    intro ds more hne hdigits
    cases ds with
    | nil => exact absurd rfl hne
    | cons d ds => exact ⟨d, ds ++ more, rfl, hdigits d List.mem_cons_self⟩
  cases h with
  | whole hne hdigits => exact hstart rest hne hdigits
  | parted hne hdigits hpart hdigits' =>
    rw [List.append_assoc]
    exact hstart _ hne hdigits

/-- A numeral is read as it is written. -/
theorem numeral_of_written {s : List Char} {d : Number.Decimal} (h : Number.Written s d)
    {rest : List Char} (hrest : endsToken rest = true) : numeral (s ++ rest) = (s, rest) := by
  have hdigit : ∀ c ∈ rest.head?, c.isDigit = false := fun c hc =>
    Bool.eq_false_iff.mpr fun hdigit =>
      Bool.false_ne_true ((not_isNameChar_of_endsToken hrest c hc).symm.trans
        (isNameChar_of_isDigit hdigit))
  cases h with
  | whole hne hdigits =>
    have hsplit := Number.digits_append hdigits hdigit
    unfold numeral
    rw [hsplit]
    dsimp only
    split
    · next after =>
      -- A point behind the digits belongs to them only if a digit follows it.
      have hafter : ∀ c ∈ after.head?, c.isDigit = false := by
        intro c hc
        simp_all [endsToken]
      rw [Number.digits, (dropWhile_of_head hafter).1]
      rfl
    · rfl
  | @parted ds part hne hdigits hpart hdigits' =>
    have hsplit : Number.digits (ds ++ '.' :: (part ++ rest)) = (ds, '.' :: (part ++ rest)) :=
      Number.digits_append hdigits (by simp)
    have hsplit' := Number.digits_append hdigits' hdigit
    rw [List.append_assoc, List.cons_append]
    simp [numeral, hsplit, hsplit', hpart]

theorem endsToken_field {name : String} (hname : isName name = true) (rest : List Char) :
    endsToken ('.' :: (name.toList ++ rest)) = true := by
  obtain ⟨c, after, hstart, -, hdigit⟩ := exists_cons_of_isName hname rest
  have hpoint : isNameChar '.' = false := by decide
  rw [hstart]
  simp [endsToken, hpoint, hdigit]

/-! ## Steps of the reader -/

/-- What may follow an operand. -/
def endsOperand (s : List Char) : Bool :=
  s.head?.all fun c => c == ' ' || c == ')' || c == ',' || c == ']' || c == '\x7d'

/-- What may follow an expression. -/
def endsExpr (s : List Char) : Bool :=
  endsOperand s && (s.head? != some ' ' || s.tail.head? == some '\x7d')

theorem endsOperand_cons_iff {c : Char} {rest : List Char} :
    endsOperand (c :: rest) = true ↔ c = ' ' ∨ c = ')' ∨ c = ',' ∨ c = ']' ∨ c = '\x7d' := by
  simp [endsOperand, or_assoc]

theorem endsToken_of_endsOperand {rest : List Char} (h : endsOperand rest = true) :
    endsToken rest = true := by
  cases rest with
  | nil => rfl
  | cons c rest => obtain rfl | rfl | rfl | rfl | rfl := endsOperand_cons_iff.mp h <;> rfl

theorem endsOperand_of_endsExpr {rest : List Char} (h : endsExpr rest = true) :
    endsOperand rest = true :=
  (Bool.and_eq_true_iff.mp h).1

theorem connective?_of_endsExpr {rest : List Char} (h : endsExpr rest = true) :
    connective? rest = none := by
  obtain ⟨hoperand, hbrace⟩ := Bool.and_eq_true_iff.mp h
  cases rest with
  | nil => rfl
  | cons c rest =>
    obtain rfl | rfl | rfl | rfl | rfl := endsOperand_cons_iff.mp hoperand
    · have hhead : rest.head? = some '\x7d' := by simpa using hbrace
      simp [connective?, hhead]
    all_goals rfl

theorem connective?_symbol (op : Connective) (rest : List Char) :
    connective? (' ' :: (op.symbol.toList ++ ' ' :: rest)) = some (some op, rest) := by
  cases op with
  | binary op => cases op <;> rfl
  | logical op => cases op <;> rfl

section Steps

variable {reader : Reader} {s rest : List Char} {e target : Expr}

theorem suffixes?_of_endsOperand (target : Expr) (h : endsOperand rest = true) :
    reader.suffixes? target rest = some (target, rest) := by
  cases rest with
  | nil => rw [Reader.suffixes?]
  | cons c rest =>
    rw [Reader.suffixes?]
    obtain rfl | rfl | rfl | rfl | rfl := endsOperand_cons_iff.mp h <;> rfl

theorem suffixes?_field {name : String} (hname : isName name = true)
    (hrest : endsToken rest = true) :
    reader.suffixes? target ('.' :: (name.toList ++ rest)) =
      reader.suffixes? (.field Span.none target name) rest := by
  rw [Reader.suffixes?, if_pos rfl, word_of_isName hname (not_isNameChar_of_endsToken hrest)]

theorem suffixes?_index {key : Expr} (h : reader.expr? s = some (key, ']' :: rest)) :
    reader.suffixes? target ('[' :: s) = reader.suffixes? (.index Span.none target key) rest := by
  rw [Reader.suffixes?, if_neg (by decide), if_pos rfl, h]
  rfl

theorem suffixes?_call {args : List Expr} (h : reader.items? ')' s = some (args, rest)) :
    reader.suffixes? target ('(' :: s) = reader.suffixes? (.call Span.none target args) rest := by
  rw [Reader.suffixes?, if_neg (by decide), if_neg (by decide), if_pos rfl, h]
  rfl

theorem sign?_of_isNameChar {c : Char} (hc : isNameChar c = true) : sign? c = none := by
  rw [sign?, if_neg (ne_of_isNameChar hc rfl), if_neg (ne_of_isNameChar hc rfl),
    if_neg (ne_of_isNameChar hc rfl)]

theorem operand?_of_atom? (hsign : s.head?.bind sign? = none)
    (h : reader.atom? s = some (target, rest)) :
    reader.operand? s = reader.suffixes? target rest := by
  rw [Reader.operand?, hsign]
  dsimp only
  rw [h]
  rfl

theorem operand?_unary (op : UnaryOp) (h : reader.operand? s = some (e, rest)) :
    reader.operand? (op.symbol.toList ++ s) = some (.unary Span.none op e, rest) := by
  have hsign : (op.symbol.toList ++ s).head?.bind sign? = some op := by cases op <;> rfl
  have htail : (op.symbol.toList ++ s).tail = s := by cases op <;> rfl
  rw [Reader.operand?, hsign]
  dsimp only
  rw [htail, h]
  rfl

theorem atom?_str (value : String) :
    reader.atom? ('"' :: (value.toList.flatMap Text.escaped ++ '"' :: rest)) =
      some (.str Span.none value, rest) := by
  rw [Reader.atom?, if_pos rfl, quoted?_quoted]
  simp

theorem atom?_template {texts : List String} {holes : List Expr}
    (h : reader.template? s = some (texts, holes, rest)) :
    reader.atom? ('\x60' :: s) = some (.template Span.none texts holes, rest) := by
  rw [Reader.atom?, if_neg (by decide), if_pos rfl, h]
  rfl

theorem atom?_object_nil :
    reader.atom? ('\x7b' :: '\x7d' :: rest) = some (.object Span.none [], rest) := by
  rw [Reader.atom?, if_neg (by decide), if_neg (by decide), if_pos rfl]
  rfl

theorem atom?_object {members : List Member} (h : reader.members? s = some (members, rest)) :
    reader.atom? ('\x7b' :: ' ' :: s) = some (.object Span.none members, rest) := by
  have hspace : skip? ['\x7d'] (' ' :: s) = none := rfl
  have hskip : skip? [' '] (' ' :: s) = some s := rfl
  rw [Reader.atom?, if_neg (by decide), if_neg (by decide), if_pos rfl, hspace]
  dsimp only
  simp only [hskip, h, Option.bind_eq_bind, Option.bind_some]

theorem atom?_array {items : List Expr} (h : reader.items? ']' s = some (items, rest)) :
    reader.atom? ('[' :: s) = some (.array Span.none items, rest) := by
  rw [Reader.atom?, if_neg (by decide), if_neg (by decide), if_neg (by decide), if_pos rfl, h]
  rfl

theorem atom?_parens (h : reader.expr? s = some (e, ')' :: rest)) :
    reader.atom? ('(' :: s) = some (e, rest) := by
  rw [Reader.atom?, if_neg (by decide), if_neg (by decide), if_neg (by decide), if_neg (by decide),
    if_pos rfl, h]
  rfl

theorem atom?_num {d : Number.Decimal} (hwritten : Number.Written s d)
    (hrest : endsToken rest = true) :
    reader.atom? (s ++ rest) = some (.num Span.none (reader.literal s), rest) := by
  have hnumeral := numeral_of_written hwritten hrest
  obtain ⟨c, after, htext, hdigit⟩ := exists_cons_of_written hwritten rest
  have hc := isNameChar_of_isDigit hdigit
  rw [htext] at hnumeral ⊢
  rw [Reader.atom?, if_neg (ne_of_isNameChar hc rfl), if_neg (ne_of_isNameChar hc rfl),
    if_neg (ne_of_isNameChar hc rfl), if_neg (ne_of_isNameChar hc rfl),
    if_neg (ne_of_isNameChar hc rfl), if_pos hdigit, hnumeral]

/-- The constant or name that a word stands for. -/
def ofWord (name : String) : Expr :=
  if name = "true" then .bool Span.none true
  else if name = "false" then .bool Span.none false
  else if name = "null" then .null Span.none
  else .ident Span.none name

theorem atom?_word {name : String} (hname : isName name = true) (hrest : endsToken rest = true) :
    reader.atom? (name.toList ++ rest) = some (ofWord name, rest) := by
  have hword := word_of_isName hname (not_isNameChar_of_endsToken hrest)
  obtain ⟨c, after, htext, hc, hdigit⟩ := exists_cons_of_isName hname rest
  rw [htext] at hword ⊢
  rw [Reader.atom?, if_neg (ne_of_isNameChar hc rfl), if_neg (ne_of_isNameChar hc rfl),
    if_neg (ne_of_isNameChar hc rfl), if_neg (ne_of_isNameChar hc rfl),
    if_neg (ne_of_isNameChar hc rfl), if_neg (by simp [hdigit]), if_pos hc, hword]
  unfold ofWord
  split
  · rfl
  · split
    · rfl
    · split <;> rfl

theorem expr?_of_operand? (hfunction : startsFunction s = false)
    (h : reader.operand? s = some (e, rest)) (hrest : endsExpr rest = true) :
    reader.expr? s = some (e, rest) := by
  rw [Reader.expr?, if_neg (by simp [hfunction])]
  simp only [h, connective?_of_endsExpr hrest, Option.bind_eq_bind, Option.bind_some]

section Operators

variable {left right yes no : Expr} {middle : List Char} (hfunction : startsFunction s = false)

include hfunction

theorem expr?_connective (op : Connective)
    (hleft : reader.operand? s = some (left, ' ' :: (op.symbol.toList ++ ' ' :: middle)))
    (hright : reader.operand? middle = some (right, rest)) :
    reader.expr? s = some (op.apply left right, rest) := by
  rw [Reader.expr?, if_neg (by simp [hfunction])]
  simp only [hleft, connective?_symbol, hright, Option.bind_eq_bind, Option.bind_some]

theorem expr?_conditional {last : List Char}
    (htest : reader.operand? s = some (left, ' ' :: '?' :: ' ' :: middle))
    (hyes : reader.operand? middle = some (yes, ' ' :: ':' :: ' ' :: last))
    (hno : reader.operand? last = some (no, rest)) :
    reader.expr? s = some (.conditional Span.none left yes no, rest) := by
  have hcases : connective? (' ' :: '?' :: ' ' :: middle) = some (none, middle) := rfl
  have hskip : skip? [' ', ':', ' '] (' ' :: ':' :: ' ' :: last) = some last := rfl
  rw [Reader.expr?, if_neg (by simp [hfunction])]
  simp only [htest, hcases, hyes, hskip, hno, Option.bind_eq_bind, Option.bind_some]

end Operators

theorem expr?_function {params : List String} {middle : List Char} {body : Expr}
    (hfunction : startsFunction ('(' :: s) = true) (hparams : params? s = some (params, middle))
    (hbody : reader.expr? middle = some (body, rest)) :
    reader.expr? ('(' :: s) = some (.function Span.none params body, rest) := by
  rw [Reader.expr?, if_pos hfunction, List.tail_cons]
  simp only [hparams, hbody, Option.bind_eq_bind, Option.bind_some]

theorem moreItems?_last {close : Char} (h : reader.expr? s = some (e, close :: rest)) :
    reader.moreItems? close s = some ([e], rest) := by
  have hskip : skip? [close] (close :: rest) = some rest := if_pos rfl
  rw [Reader.moreItems?]
  simp only [h, hskip, Option.bind_eq_bind, Option.bind_some]

theorem moreItems?_cons {close : Char} (hclose : close ≠ ',') {middle : List Char}
    {items : List Expr} (h : reader.expr? s = some (e, ',' :: ' ' :: middle))
    (hmore : reader.moreItems? close middle = some (items, rest)) :
    reader.moreItems? close s = some (e :: items, rest) := by
  have hskip : skip? [close] (',' :: ' ' :: middle) = none := if_neg hclose
  have hcomma : skip? [',', ' '] (',' :: ' ' :: middle) = some middle := rfl
  rw [Reader.moreItems?]
  simp only [h, hskip, hcomma, hmore, Option.bind_eq_bind, Option.bind_some]

theorem members?_last {member : Member}
    (h : reader.member? s = some (member, ' ' :: '\x7d' :: rest)) :
    reader.members? s = some ([member], rest) := by
  have hskip : skip? [' ', '\x7d'] (' ' :: '\x7d' :: rest) = some rest := rfl
  rw [Reader.members?]
  simp only [h, hskip, Option.bind_eq_bind, Option.bind_some]

theorem members?_cons {member : Member} {middle : List Char} {members : List Member}
    (h : reader.member? s = some (member, ',' :: ' ' :: middle))
    (hmore : reader.members? middle = some (members, rest)) :
    reader.members? s = some (member :: members, rest) := by
  have hskip : skip? [' ', '\x7d'] (',' :: ' ' :: middle) = none := rfl
  have hcomma : skip? [',', ' '] (',' :: ' ' :: middle) = some middle := rfl
  rw [Reader.members?]
  simp only [h, hskip, hcomma, hmore, Option.bind_eq_bind, Option.bind_some]

section Members

variable {key value : Expr} {middle : List Char}

theorem member?_computed (hkey : reader.expr? s = some (key, ']' :: ':' :: ' ' :: middle))
    (hvalue : reader.expr? middle = some (value, rest)) :
    reader.member? ('[' :: s) = some (.computed key value, rest) := by
  have hskip : skip? [']', ':', ' '] (']' :: ':' :: ' ' :: middle) = some middle := rfl
  rw [Reader.member?, if_pos rfl]
  simp only [hkey, hskip, hvalue, Option.bind_eq_bind, Option.bind_some]

theorem member?_spread (h : reader.expr? s = some (e, rest)) :
    reader.member? ('.' :: '.' :: '.' :: s) = some (.spread e, rest) := by
  have hskip : skip? ['.', '.'] ('.' :: '.' :: s) = some s := rfl
  rw [Reader.member?, if_neg (by decide), if_pos rfl]
  simp only [hskip, h, Option.bind_eq_bind, Option.bind_some]

theorem member?_quoted (name : String) (hvalue : reader.expr? middle = some (value, rest)) :
    reader.member? ('"' :: (name.toList.flatMap Text.escaped ++ '"' :: ':' :: ' ' :: middle)) =
      some (.named name value, rest) := by
  have hskip : skip? [':', ' '] (':' :: ' ' :: middle) = some middle := rfl
  rw [Reader.member?, if_neg (by decide), if_neg (by decide), if_pos rfl]
  simp only [quoted?_quoted, hskip, hvalue, String.ofList_toList, Option.bind_eq_bind,
    Option.bind_some]

theorem member?_named {name : String} (hname : isName name = true)
    (hvalue : reader.expr? middle = some (value, rest)) :
    reader.member? (name.toList ++ ':' :: ' ' :: middle) = some (.named name value, rest) := by
  have hmark : endsToken (':' :: ' ' :: middle) = true := rfl
  have hword := word_of_isName hname (not_isNameChar_of_endsToken hmark)
  have hskip : skip? [':', ' '] (':' :: ' ' :: middle) = some middle := rfl
  obtain ⟨c, after, htext, hc, -⟩ := exists_cons_of_isName hname (':' :: ' ' :: middle)
  rw [htext] at hword ⊢
  rw [Reader.member?, if_neg (ne_of_isNameChar hc rfl), if_neg (ne_of_isNameChar hc rfl),
    if_neg (ne_of_isNameChar hc rfl), hword]
  simp only [hskip, hvalue, Option.bind_eq_bind, Option.bind_some]

theorem member?_shorthand {name : String} (hname : isName name = true)
    (hrest : endsOperand rest = true) :
    reader.member? (name.toList ++ rest) = some (.shorthand name, rest) := by
  have hword := word_of_isName hname (not_isNameChar_of_endsToken (endsToken_of_endsOperand hrest))
  have hskip : skip? [':', ' '] rest = none := by
    cases rest with
    | nil => rfl
    | cons c rest => obtain rfl | rfl | rfl | rfl | rfl := endsOperand_cons_iff.mp hrest <;> rfl
  obtain ⟨c, after, htext, hc, -⟩ := exists_cons_of_isName hname rest
  rw [htext] at hword ⊢
  rw [Reader.member?, if_neg (ne_of_isNameChar hc rfl), if_neg (ne_of_isNameChar hc rfl),
    if_neg (ne_of_isNameChar hc rfl), hword]
  simp only [hskip]

end Members

theorem template?_last {text : List Char} (h : fixedText? s = some (text, false, rest)) :
    reader.template? s = some ([String.ofList text], [], rest) := by
  rw [Reader.template?, h]
  rfl

theorem template?_cons {text middle last : List Char} {texts : List String} {holes : List Expr}
    (htext : fixedText? s = some (text, true, middle))
    (hhole : reader.expr? middle = some (e, '\x7d' :: last))
    (hmore : reader.template? last = some (texts, holes, rest)) :
    reader.template? s = some (String.ofList text :: texts, e :: holes, rest) := by
  have hskip : skip? ['\x7d'] ('\x7d' :: last) = some last := rfl
  rw [Reader.template?]
  simp only [htext, hhole, hskip, hmore, Option.bind_eq_bind, Option.bind_some, ↓reduceIte]

end Steps

end AtomicStyle.Source

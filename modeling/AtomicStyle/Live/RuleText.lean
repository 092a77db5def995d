import AtomicStyle.Css.Lexeme
import AtomicStyle.Live.Fault
import AtomicStyle.Text.Blank
import AtomicStyle.Text.Search

/-!
# Rule texts

The text of a style element is cut into its rules, and every rule gets the key by which it is
recognised: the class name it selects.  Rules inside an at-rule are recognised one by one.
-/

namespace AtomicStyle.RuleText

open AtomicStyle.Css AtomicStyle.Text

/-! ## Splitting -/

/-- What has been read: the open braces, the text of the rule that has begun, and the rules before
it. -/
structure Splitting where
  depth : Nat := 0
  current : List Char := []
  rules : List (List Char) := []

namespace Splitting

/-- Adds text to the rule that has begun, or begins one. -/
def extend (s : Splitting) (text : List Char) : Splitting :=
  { s with current := s.current ++ text }

/-- Adds text to the rule that has begun; between rules it is left out. -/
def extendBegun (s : Splitting) (text : List Char) : Splitting :=
  if s.current.isEmpty then s else s.extend text

/-- Closes a brace; the outermost one ends the rule. -/
def close (s : Splitting) : Except RuleFault Splitting :=
  match s.depth with
  | 0 => .error .unexpectedBrace
  | 1 => .ok { rules := s.rules ++ [trim (s.current ++ ['\x7d'])] }
  | depth + 1 => .ok { s.extend ['\x7d'] with depth }

/-- Reads one lexeme. -/
def step (s : Splitting) (lexeme : Lexeme) : Except RuleFault Splitting :=
  match lexeme with
  | .openComment _ => .error .unterminatedComment
  | .openQuote _ _ => .error .unterminatedString
  | .comment _ => .ok (s.extendBegun lexeme.text)
  | .plain c =>
    if c == '\x7b' then .ok { s.extend [c] with depth := s.depth + 1 }
    else if c == '\x7d' then s.close
    else if isCssBlank c then .ok (s.extendBegun [c])
    else .ok (s.extend [c])
  | lexeme => .ok (s.extend lexeme.text)

/-- The rules when the text ends. -/
def finish (s : Splitting) : Except RuleFault (List (List Char)) :=
  if s.depth != 0 then .error .unbalancedBraces
  else if !(trim s.current).isEmpty then .error .trailingText
  else .ok s.rules

/-- The number of characters that have been kept. -/
def size (s : Splitting) : Nat :=
  s.rules.flatten.length + s.current.length

end Splitting

/-- The rules of a text.  Braces inside comments and quoted texts do not count. -/
def splitChars (css : List Char) : Except RuleFault (List (List Char)) := do
  let s ← (lex false css).foldlM Splitting.step {}
  s.finish

theorem length_trim_le (s : List Char) : (trim s).length ≤ s.length := by
  have h₁ : (trimEnd (trimStart s)).length ≤ (trimStart s).length := by
    simpa [trimEnd] using (List.dropWhile_sublist isBlank (l := (trimStart s).reverse)).length_le
  exact Nat.le_trans h₁ (List.dropWhile_sublist _).length_le

namespace Splitting

theorem size_extend (s : Splitting) (text : List Char) :
    (s.extend text).size = s.size + text.length := by
  simp only [extend, size, List.length_append]
  omega

theorem size_extendBegun_le (s : Splitting) (text : List Char) :
    (s.extendBegun text).size ≤ s.size + text.length := by
  unfold extendBegun
  split
  · omega
  · exact Nat.le_of_eq (size_extend s text)

theorem size_close_le {s next : Splitting} (h : s.close = .ok next) : next.size ≤ s.size + 1 := by
  unfold close at h
  split at h
  · contradiction
  · obtain rfl := Except.ok.inj h
    have := length_trim_le (s.current ++ ['\x7d'])
    simp only [List.length_append, List.length_singleton] at this
    simp only [size, List.flatten_append, List.flatten_cons, List.flatten_nil, List.append_nil,
      List.length_append, List.length_nil]
    omega
  · obtain rfl := Except.ok.inj h
    exact Nat.le_of_eq (size_extend s ['\x7d'])

/-- A lexeme adds at most its own text. -/
theorem size_step_le {s next : Splitting} {lexeme : Lexeme} (h : s.step lexeme = .ok next) :
    next.size ≤ s.size + lexeme.text.length := by
  unfold step at h
  split at h
  · contradiction
  · contradiction
  · obtain rfl := Except.ok.inj h
    exact size_extendBegun_le s _
  · simp only [Lexeme.text, List.length_singleton]
    split at h
    · obtain rfl := Except.ok.inj h
      exact Nat.le_of_eq (size_extend s _)
    · split at h
      · exact size_close_le h
      · split at h
        · obtain rfl := Except.ok.inj h
          exact size_extendBegun_le s _
        · obtain rfl := Except.ok.inj h
          exact Nat.le_of_eq (size_extend s _)
  · obtain rfl := Except.ok.inj h
    exact Nat.le_of_eq (size_extend s _)

theorem size_foldlM_le {lexemes : List Lexeme} {s last : Splitting}
    (h : lexemes.foldlM step s = .ok last) :
    last.size ≤ s.size + (lexemes.flatMap Lexeme.text).length := by
  induction lexemes generalizing s with
  | nil =>
    obtain rfl := Except.ok.inj h
    simp
  | cons lexeme rest ih =>
    simp only [List.foldlM_cons, bind, Except.bind] at h
    split at h
    · contradiction
    · next next hs =>
      have h₁ := size_step_le hs
      have h₂ := ih h
      simp only [List.flatMap_cons, List.length_append]
      omega

end Splitting

/-- The rules of a text are together no longer than the text. -/
theorem length_flatten_le_of_splitChars {css : List Char} {rules : List (List Char)}
    (h : splitChars css = .ok rules) : rules.flatten.length ≤ css.length := by
  simp only [splitChars, bind, Except.bind] at h
  split at h
  · contradiction
  · next last hl =>
    have hsize := Splitting.size_foldlM_le hl
    rw [flatMap_text_lex] at hsize
    unfold Splitting.finish at h
    split at h
    · contradiction
    · split at h
      · contradiction
      · obtain rfl := Except.ok.inj h
        simp only [Splitting.size, List.flatten_nil, List.length_nil] at hsize
        omega

/-- The rules of a text; a fault is reported with the whole text. -/
def split (css : String) : Except SheetFault (List String) :=
  match splitChars css.toList with
  | .ok rules => .ok (rules.map String.ofList)
  | .error fault => .error (.malformedRule css fault)

/-- Checks that a text is one whole rule. -/
def check (css : String) : Except SheetFault Unit := do
  let trimmed := trimmed css
  if trimmed.isEmpty then .error (.malformedRule css .emptyRule)
  else
    let rules ← split trimmed
    if rules = [trimmed] then .ok () else .error (.malformedRule css .notOneRule)

/-! ## Keys -/

/-- Whether a character can stand in a class name. -/
def isNameChar (c : Char) : Bool :=
  c.isAlphanum || c == '_' || c == '-'

/-- The first class name of a selector. -/
def firstClass? (selector : List Char) : Option (List Char) :=
  match selector.dropWhile (· != '.') with
  | [] => none
  | _ :: rest =>
    let name := rest.takeWhile isNameChar
    if name.isEmpty then none else some name

/-- The text of a block: what stands after the first brace, without the last character. -/
def blockText (rule : List Char) : List Char :=
  ((rule.dropWhile (· != '\x7b')).drop 1).dropLast

theorem length_blockText_lt {rule : List Char} (h : '\x7b' ∈ rule) :
    (blockText rule).length < rule.length := by
  have hpos : 0 < rule.length := List.length_pos_of_mem h
  have hle : (rule.dropWhile (· != '\x7b')).length ≤ rule.length :=
    (List.dropWhile_sublist _).length_le
  simp only [blockText, List.length_dropLast, List.length_drop]
  omega

/-- The keys of rules in order.  The rules inside an at-rule are taken one by one; a rule that
selects no class is its own key. -/
def keysOf (rules : List (List Char)) : Except SheetFault (List String) :=
  match rules with
  | [] => .ok []
  | rule :: rest => do
    if hb : '\x7b' ∈ rule then
      if rule.head? = some '@' then
        match h : splitChars (blockText rule) with
        | .error fault => .error (.malformedRule (String.ofList (blockText rule)) fault)
        | .ok children =>
          have := length_flatten_le_of_splitChars h
          have := length_blockText_lt hb
          let inner ← keysOf children
          let others ← keysOf rest
          .ok (inner ++ others)
      else
        let key := (firstClass? (rule.takeWhile (· != '\x7b'))).getD rule
        let others ← keysOf rest
        .ok (String.ofList key :: others)
    else .error (.malformedRule (String.ofList rule) .missingBlock)
termination_by (rules.flatten.length, rules.length)
decreasing_by
  · simp only [List.flatten_cons, List.length_append]
    exact Prod.Lex.left _ _ (by omega)
  · simp only [List.flatten_cons, List.length_append, List.length_cons]
    by_cases hr : rule.length = 0
    · rw [hr, Nat.zero_add]
      exact Prod.Lex.right _ (by omega)
    · exact Prod.Lex.left _ _ (by omega)
  · simp only [List.flatten_cons, List.length_append, List.length_cons]
    by_cases hr : rule.length = 0
    · rw [hr, Nat.zero_add]
      exact Prod.Lex.right _ (by omega)
    · exact Prod.Lex.left _ _ (by omega)

/-- The keys of all rules of a text. -/
def keys (css : String) : Except SheetFault (List String) := do
  let rules ← split css
  keysOf (rules.map String.toList)

/-- The key of one rule: its first key, or its whole text. -/
def key (css : String) : String :=
  let trimmed := trimmed css
  match keys trimmed with
  | .ok (first :: _) => first
  | _ => trimmed

end AtomicStyle.RuleText

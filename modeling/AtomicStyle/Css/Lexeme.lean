import AtomicStyle.Text.Nesting

/-!
# Lexemes of CSS text

A stylesheet text as comments, quoted texts, escapes and plain characters.  Braces and semicolons
count only where they are plain characters.  The lexemes of a text, written out again, are the text
(`flatMap_text_lex`).
-/

namespace AtomicStyle.Css

open AtomicStyle.Text

/-- A smallest piece of CSS text. -/
inductive Lexeme where
  | plain (c : Char)
  /-- A backslash and the character after it. -/
  | escape (c : Char)
  /-- A backslash at the very end of the text. -/
  | loneEscape
  | comment (body : List Char)
  | quoted (quote : Char) (body : List Char)
  /-- A comment that never ends; it takes the rest of the text. -/
  | openComment (body : List Char)
  /-- A quoted text that never ends; it takes the rest of the text. -/
  | openQuote (quote : Char) (body : List Char)
deriving DecidableEq, Repr

namespace Lexeme

/-- The text of a lexeme. -/
def text : Lexeme → List Char
  | plain c => [c]
  | escape c => ['\\', c]
  | loneEscape => ['\\']
  | comment body => '/' :: '*' :: (body ++ ['*', '/'])
  | quoted quote body => quote :: (body ++ [quote])
  | openComment body => '/' :: '*' :: body
  | openQuote quote body => quote :: body

end Lexeme

/-- Where the reader of lexemes stands: between lexemes, or inside a comment or quoted text whose
characters so far are given last one first. -/
inductive LexMode where
  | between
  | inComment (soFar : List Char)
  | inQuote (quote : Char) (soFar : List Char)

/-- The lexemes of a text, read from the given place.  With `oneLine` a quoted text ends only on
its own line. -/
def lexFrom (oneLine : Bool) : LexMode → List Char → List Lexeme
  | .between, [] => []
  | .between, ['\\'] => [.loneEscape]
  | .between, '\\' :: c :: rest => .escape c :: lexFrom oneLine .between rest
  | .between, '/' :: '*' :: rest => lexFrom oneLine (.inComment []) rest
  | .between, c :: rest =>
    if isQuote c then lexFrom oneLine (.inQuote c []) rest
    else .plain c :: lexFrom oneLine .between rest
  | .inComment soFar, [] => [.openComment soFar.reverse]
  | .inComment soFar, '*' :: '/' :: rest =>
    .comment soFar.reverse :: lexFrom oneLine .between rest
  | .inComment soFar, c :: rest => lexFrom oneLine (.inComment (c :: soFar)) rest
  | .inQuote q soFar, [] => [.openQuote q soFar.reverse]
  | .inQuote q soFar, '\\' :: c :: rest => lexFrom oneLine (.inQuote q (c :: '\\' :: soFar)) rest
  | .inQuote q soFar, c :: rest =>
    if c == q then .quoted q soFar.reverse :: lexFrom oneLine .between rest
    else if oneLine && c == '\n' then [.openQuote q (soFar.reverse ++ c :: rest)]
    else lexFrom oneLine (.inQuote q (c :: soFar)) rest

/-- The lexemes of a text. -/
def lex (oneLine : Bool) (s : List Char) : List Lexeme :=
  lexFrom oneLine .between s

/-- The text that a place in the reader stands for. -/
def LexMode.pending : LexMode → List Char
  | between => []
  | inComment soFar => '/' :: '*' :: soFar.reverse
  | inQuote quote soFar => quote :: soFar.reverse

theorem flatMap_text_lexFrom (oneLine : Bool) (mode : LexMode) (s : List Char) :
    (lexFrom oneLine mode s).flatMap Lexeme.text = mode.pending ++ s := by
  fun_induction lexFrom oneLine mode s <;>
    simp_all [Lexeme.text, LexMode.pending]

/-- Reading loses nothing: the lexemes of a text spell the text. -/
theorem flatMap_text_lex (oneLine : Bool) (s : List Char) :
    (lex oneLine s).flatMap Lexeme.text = s :=
  flatMap_text_lexFrom oneLine .between s

end AtomicStyle.Css

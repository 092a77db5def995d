/-!
# Nesting

Which characters of a selector or declaration stand at the top level: outside quotes and outside
parentheses and square brackets.  A closing bracket without an opening one leaves the top level
too, until an opening bracket makes up for it.
-/

namespace AtomicStyle.Text

def isQuote (c : Char) : Bool :=
  c == '"' || c == '\''

def isOpening (c : Char) : Bool :=
  c == '(' || c == '['

def isClosing (c : Char) : Bool :=
  c == ')' || c == ']'

/-- Pairs every character with whether it stands at the top level, given the bracket depth and the
open quote before it.  Quotes and brackets themselves do not. -/
def markFrom (depth : Int) (quote : Option Char) : List Char → List (Char × Bool)
  | [] => []
  | c :: rest =>
    match quote with
    | some q => (c, false) :: markFrom depth (if c == q then none else some q) rest
    | none =>
      if isQuote c then (c, false) :: markFrom depth (some c) rest
      else if isOpening c then (c, false) :: markFrom (depth + 1) none rest
      else if isClosing c then (c, false) :: markFrom (depth - 1) none rest
      else (c, depth == 0) :: markFrom depth none rest

/-- Pairs every character of a text with whether it stands at the top level. -/
def mark (s : List Char) : List (Char × Bool) :=
  markFrom 0 none s

/-- The characters without their marks. -/
def unmark (marked : List (Char × Bool)) : List Char :=
  marked.map Prod.fst

theorem unmark_markFrom (depth : Int) (quote : Option Char) (s : List Char) :
    unmark (markFrom depth quote s) = s := by
  induction s generalizing depth quote with
  | nil => rfl
  | cons c rest ih =>
    simp only [unmark] at ih
    simp only [markFrom]
    split
    · simp [unmark, ih]
    · repeat' split
      all_goals simp [unmark, ih]

@[simp] theorem unmark_mark (s : List Char) : unmark (mark s) = s :=
  unmark_markFrom 0 none s

/-- The pieces between top-level occurrences of a separator. -/
def splitTop (separator : Char) (s : List Char) : List (List Char) :=
  ((mark s).splitOnP (· == (separator, true))).map unmark

/-- The texts before and after the first top-level occurrence of a character. -/
def cutTop? (c : Char) (s : List Char) : Option (List Char × List Char) :=
  let marked := mark s
  let before := marked.takeWhile (· != (c, true))
  match marked.dropWhile (· != (c, true)) with
  | [] => none
  | _ :: after => some (unmark before, unmark after)

end AtomicStyle.Text

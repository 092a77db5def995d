import AtomicStyle.Text.Blank

/-!
# Buckets

The cascade order of atomic rules.  Rules of one property in different pseudo-classes come from
unrelated places, so their order is fixed by the pseudo-class they end with: links before visited
links, focus before hover, hover before active.
-/

namespace AtomicStyle

open AtomicStyle.Text

/-- The priority class of a rule, in ascending order. -/
inductive Bucket where
  | catchall
  | link
  | visited
  | focusWithin
  | focus
  | focusVisible
  | hover
  | active
deriving DecidableEq, Repr

namespace Bucket

/-- The pseudo-classes in ascending priority. -/
def pseudoClasses : List (String × Bucket) :=
  [(":link", link), (":visited", visited), (":focus-within", focusWithin), (":focus", focus),
    (":focus-visible", focusVisible), (":hover", hover), (":active", active)]

/-- The place of a bucket in the cascade. -/
def rank : Bucket → Nat
  | catchall => 0
  | link => 1
  | visited => 2
  | focusWithin => 3
  | focus => 4
  | focusVisible => 5
  | hover => 6
  | active => 7

/-- The bucket of a pseudo-class, written with or without its colon. -/
def ofPseudo (pseudo : String) : Bucket :=
  let bare := match trim pseudo.toList with
    | ':' :: rest => rest
    | chars => chars
  let found := pseudoClasses.find? fun entry => entry.1.toList == ':' :: bare
  (found.map Prod.snd).getD catchall

/-- The bucket of a selector, decided by the pseudo-class it ends with. -/
def ofSelector (selector : String) : Bucket :=
  let chars := trim selector.toList
  let found := pseudoClasses.find? fun entry => entry.1.toList.isSuffixOf chars
  (found.map Prod.snd).getD catchall

/-- The letter of a bucket in the name of a style element. -/
def letter : Bucket → String
  | catchall => "c"
  | link => "l"
  | visited => "v"
  | focusWithin => "w"
  | focus => "f"
  | focusVisible => "i"
  | hover => "h"
  | active => "a"

/-- The word for a bucket in messages. -/
def word : Bucket → String
  | catchall => "Catchall"
  | link => "Link"
  | visited => "Visited"
  | focusWithin => "FocusWithin"
  | focus => "Focus"
  | focusVisible => "FocusVisible"
  | hover => "Hover"
  | active => "Active"

theorem rank_inj {a b : Bucket} : a.rank = b.rank ↔ a = b := by
  cases a <;> cases b <;> decide

end Bucket

/-- The style element of a live document into which a rule goes: plain rules first, then the rules
inside at-rules, both in bucket order. -/
structure InsertionPoint where
  inAtRule : Bool
  bucket : Bucket
deriving DecidableEq, Repr

namespace InsertionPoint

/-- The place of a point among all points. -/
def rank (point : InsertionPoint) : Nat :=
  (if point.inAtRule then 8 else 0) + point.bucket.rank

/-- What follows the first opening brace. -/
def afterBrace? (css : List Char) : Option (List Char) :=
  match css.dropWhile (· != '\x7b') with
  | [] => none
  | _ :: rest => some rest

/-- The text of a rule without the at-rules around it.  At most `fuel` of them are taken off; each
one takes a character with it, so the length of the text is enough. -/
def innermost : Nat → List Char → List Char
  | 0, css => css
  | fuel + 1, css =>
    if css.head? == some '@' then
      match afterBrace? css with
      | none => css
      | some rest => innermost fuel (trimStart rest)
    else css

/-- The point of a rule text. -/
def ofRule (css : String) : InsertionPoint :=
  let chars := trimStart css.toList
  let selector := (innermost chars.length chars).takeWhile (· != '\x7b')
  ⟨chars.head? == some '@', Bucket.ofSelector (String.ofList selector)⟩

/-- The name of a point, which marks its style element. -/
def name (point : InsertionPoint) : String :=
  if point.inAtRule then "m" ++ point.bucket.letter else point.bucket.letter

/-- All points in cascade order. -/
def all : List InsertionPoint :=
  let buckets := Bucket.catchall :: Bucket.pseudoClasses.map Prod.snd
  buckets.map (⟨false, ·⟩) ++ buckets.map (⟨true, ·⟩)

/-- The point with the given name. -/
def ofName? (name : String) : Option InsertionPoint :=
  all.find? fun point => point.name == name

end InsertionPoint

end AtomicStyle

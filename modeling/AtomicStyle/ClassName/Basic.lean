import AtomicStyle.Text.Measure

/-!
# Class names

An atomic class name is an underscore, four characters for the property in its context and four for
the value.  The first five characters are its slot: of two class names with one slot only one may
apply.  A compressed class name keeps the slot and has a short token in the place of the value.
-/

namespace AtomicStyle.ClassName

open AtomicStyle.Text

/-- The number of bytes of a slot. -/
def slotLength : Nat := 5

/-- Whether a character can stand in the digests of a class name. -/
def isTokenChar (c : Char) : Bool :=
  c.isDigit || c.isLower

/-- Whether a name is an atomic class name in full. -/
def isAtomic (name : String) : Bool :=
  match name.toList with
  | '_' :: rest => rest.length == 8 && rest.all isTokenChar
  | _ => false

/-- The slot and the token of a compressed class name. -/
def splitCompressed? (name : String) : Option (String × String) :=
  match name.toList with
  | '_' :: _ =>
    match splitAtByte? slotLength name.toList with
    | some (slot, '_' :: c :: token) => some (String.ofList slot, String.ofList (c :: token))
    | _ => none
  | _ => none

/-- The slot of a class name.  A name that is not atomic is a slot of its own. -/
def slot (name : String) : String :=
  match name.toList with
  | '_' :: _ =>
    match splitAtByte? slotLength name.toList with
    | some (slot, _) => String.ofList slot
    | none => name
  | _ => name

/-- Whether a text can stand for a name in CSS: letters, digits, dashes and underscores, without a
digit in front. -/
def isIdentifier (text : String) : Bool :=
  let isLead (c : Char) : Bool := c.isAlpha || c == '-' || c == '_'
  match text.toList with
  | [] => false
  | c :: rest => isLead c && rest.all fun d => isLead d || d.isDigit

end AtomicStyle.ClassName

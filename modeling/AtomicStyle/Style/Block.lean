import AtomicStyle.Css.Value
import AtomicStyle.Module.Reference

/-!
# Style blocks

The declarations, nested rules and at-rules of a style, in source order.  A block is a sequence
whose rules hold blocks again, so one type serves for both.
-/

namespace AtomicStyle

/-- A piece of a value: fixed text, or an expression that is known only at run time. -/
inductive ValuePart where
  | text (s : String)
  | dynamic (ref : DynamicRef)
deriving DecidableEq, Repr

structure Declaration where
  property : String
  value : List ValuePart
  important : Bool
deriving DecidableEq, Repr

namespace Declaration

def isEmptyText : ValuePart → Bool
  | .text s => s.isEmpty
  | .dynamic _ => false

/-- Splits `!important` off the last part of a value, if that part is text. -/
def splitLast : List ValuePart → List ValuePart × Bool
  | [] => ([], false)
  | [.text s] =>
    let (rest, important) := Css.splitImportant s
    ([.text rest], important)
  | [part] => ([part], false)
  | part :: next :: rest =>
    let (parts, important) := splitLast (next :: rest)
    (part :: parts, important)

/-- The declaration of a value that may end in `!important`.  Empty texts are dropped. -/
def ofParts (property : String) (value : List ValuePart) : Declaration :=
  let (parts, important) := splitLast value
  ⟨property, parts.filter (!isEmptyText ·), important⟩

end Declaration

/-- Declarations, nested rules and at-rules in source order. -/
inductive Block where
  | nil
  | declaration (d : Declaration) (rest : Block)
  /-- A nested rule with the selectors of its list. -/
  | rule (selectors : List String) (body rest : Block)
  | atRule (name params : String) (body rest : Block)
deriving DecidableEq, Repr

namespace Block

instance : Inhabited Block := ⟨.nil⟩

def isEmpty : Block → Bool
  | nil => true
  | _ => false

/-- The items of one block after those of another. -/
def append : Block → Block → Block
  | nil, other => other
  | declaration d rest, other => declaration d (rest.append other)
  | rule selectors body rest, other => rule selectors body (rest.append other)
  | atRule name params body rest, other => atRule name params body (rest.append other)

instance : Append Block := ⟨append⟩

@[simp] theorem nil_append (b : Block) : nil ++ b = b := rfl

@[simp] theorem declaration_append (d : Declaration) (rest b : Block) :
    declaration d rest ++ b = declaration d (rest ++ b) := rfl

@[simp] theorem rule_append (selectors : List String) (body rest b : Block) :
    rule selectors body rest ++ b = rule selectors body (rest ++ b) := rfl

@[simp] theorem atRule_append (name params : String) (body rest b : Block) :
    atRule name params body rest ++ b = atRule name params body (rest ++ b) := rfl

@[simp] theorem append_nil (b : Block) : b ++ nil = b := by
  induction b with
  | nil => rfl
  | declaration d rest ih => simp [ih]
  | rule selectors body rest _ ih => simp [ih]
  | atRule name params body rest _ ih => simp [ih]

theorem append_assoc (a b c : Block) : a ++ b ++ c = a ++ (b ++ c) := by
  induction a with
  | nil => rfl
  | declaration d rest ih => simp [ih]
  | rule selectors body rest _ ih => simp [ih]
  | atRule name params body rest _ ih => simp [ih]

end Block

end AtomicStyle

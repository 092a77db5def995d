import AtomicStyle.ClassName.Basic
import AtomicStyle.Distinct
import AtomicStyle.Text.Blank

/-!
# Composition at run time

Class lists are joined so that the later class name of a slot wins, and values of run-time
expressions are put into the form in which a CSS variable takes them.
-/

namespace AtomicStyle.ClassName

open AtomicStyle.Text

/-- The name that goes on the element: the token of a compressed name, any other name itself. -/
def shown (name : String) : String :=
  match splitCompressed? name with
  | some (_, token) => token
  | none => name

/-- Joins class lists from the lowest to the highest priority.  Of the names of one slot the last
one stays, in its place.  A single name is taken as it is. -/
def compose (lists : List String) : String :=
  let joined := String.intercalate " " ((latest slot (lists.flatMap wordsOf)).map shown)
  match lists with
  | [only] =>
    let name := trim only.toList
    if !name.any isBlank && (splitCompressed? (String.ofList name)).isNone then String.ofList name
    else joined
  | _ => joined

/-- The value of a CSS variable: the text of an expression with what stood around it.  An absent
text leaves the variable unset. -/
def variableText (before after : String) (text : Option String) : Option String :=
  text.map fun text => before ++ text ++ after

end AtomicStyle.ClassName

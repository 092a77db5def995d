import AtomicStyle.Live.Fault
import AtomicStyle.Live.Markup

/-!
# Documents

A document holds one style element for each insertion point that is in use.
-/

namespace AtomicStyle

/-- A style element and its rules. -/
structure StyleElement where
  point : InsertionPoint
  nonce : Option String
  rules : List String := []
deriving DecidableEq, Repr

/-- The style element with one more rule. -/
def StyleElement.append (element : StyleElement) (css : String) : StyleElement :=
  { element with rules := element.rules ++ [css] }

/-- The opening tag, the rules and the closing tag. -/
def StyleElement.toHtml (element : StyleElement) : String :=
  let nonce := match element.nonce with
    | some nonce => " nonce=\"" ++ Markup.escapeAttribute nonce ++ "\""
    | none => ""
  "<style " ++ Markup.marking ++ "=\"" ++ element.point.name ++ "\"" ++ nonce ++ ">" ++
    String.join element.rules ++ "</style>"

/-- The style elements of a document in order. -/
structure Document where
  elements : List StyleElement := []
deriving DecidableEq, Repr

namespace Document

def empty : Document := {}

/-- Every rule in document order. -/
def rules (document : Document) : List String :=
  document.elements.flatMap (·.rules)

def cssText (document : Document) : String :=
  String.join document.rules

/-- The style elements as markup for a server response. -/
def toHtml (document : Document) : String :=
  String.join (document.elements.map StyleElement.toHtml)

/-- Creates a style element at a position, at the end if there are not so many elements. -/
def create (document : Document) (point : InsertionPoint) (position : Nat)
    (nonce : Option String) : Document :=
  ⟨document.elements.take position ++ ⟨point, nonce, []⟩ :: document.elements.drop position⟩

/-- Appends a rule to the first of the given elements that is for a point. -/
def appendTo? (point : InsertionPoint) (css : String) :
    List StyleElement → Option (List StyleElement)
  | [] => none
  | element :: rest =>
    if element.point = point then some (element.append css :: rest)
    else (appendTo? point css rest).map (element :: ·)

/-- Appends a rule to the style element of a point. -/
def insert (document : Document) (point : InsertionPoint) (css : String) :
    Except SheetFault Document :=
  match appendTo? point css document.elements with
  | some elements => .ok ⟨elements⟩
  | none => .error (.missingPoint point)

end Document

end AtomicStyle

import AtomicStyle.Text.Search

/-!
# Style elements in markup

The style elements that a server has written into a page carry the attribute `data-cmpld`.
-/

namespace AtomicStyle.Markup

open AtomicStyle.Text

/-- The attribute that marks a style element. -/
def marking : String := "data-cmpld"

/-- The contents of the marked style elements of a page, in order. -/
def contentsOf (page : List Char) : List (List Char) :=
  match h₁ : cut? "<style".toList page with
  | none => []
  | some (_, afterOpen) =>
    match h₂ : cut? ['>'] afterOpen with
    | none => []
    | some (attributes, body) =>
      match h₃ : cut? "</style>".toList body with
      | none => []
      | some (content, rest) =>
        have := length_lt_of_cut? (by decide) h₁
        have := length_lt_of_cut? (by decide) h₂
        have := length_lt_of_cut? (by decide) h₃
        if (cut? marking.toList attributes).isSome then content :: contentsOf rest
        else contentsOf rest
termination_by page.length

/-- The contents of the marked style elements of a page. -/
def styleContents (page : String) : List String :=
  (contentsOf page.toList).map String.ofList

/-- An attribute's value with its special characters written as entities. -/
def escapeAttribute (value : String) : String :=
  String.ofList (value.toList.flatMap fun c =>
    if c == '&' then "&amp;".toList
    else if c == '"' then "&quot;".toList
    else if c == '<' then "&lt;".toList
    else [c])

end AtomicStyle.Markup

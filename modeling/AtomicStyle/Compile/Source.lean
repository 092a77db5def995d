import AtomicStyle.Compile.Site

/-!
# Emitted source

The source text of a unit with its sites replaced, after a header that imports the functions of the
run time and binds the rules.
-/

namespace AtomicStyle

open AtomicStyle.Text

/-- The module of the functions that compose class names at run time. -/
def runtimeModule : String := "@compiled/react/runtime"

/-- The lines before the source of a unit with sites. -/
def header (options : Options) (ruleTexts : List String) : String :=
  let importLine :=
    if options.importRuntime then
      ["import \x7b ax, ix \x7d from " ++ quoted runtimeModule ++ ";\n"]
    else []
  let constants :=
    if options.extract then []
    else ruleTexts.zipIdx.map fun (text, n) =>
      "const " ++ constantName n ++ " = " ++ quoted text ++ ";\n"
  String.join (importLine ++ constants)

/-- Replaces sites in what is left of a source text after its first `offset` bytes.  A site without
a place in it is left out: one that starts before the offset, lies beyond the end, or has an end
inside a character. -/
def replaceFrom (offset : Nat) (rest : List Char) : List SiteOutput → List Char
  | [] => rest
  | site :: sites =>
    let span := site.span
    if span.isNone || span.lo < offset || span.hi < span.lo then replaceFrom offset rest sites
    else
      match Span.parts? ⟨span.lo - offset, span.hi - offset⟩ rest with
      | none => replaceFrom offset rest sites
      | some (before, _, after) =>
        before ++ site.replacement.toList ++ replaceFrom span.hi after sites

/-- The source text with its sites replaced, in the order in which they start. -/
def replaceSites (source : String) (sites : List SiteOutput) : String :=
  let ordered := sites.mergeSort fun a b => a.span.lo ≤ b.span.lo
  String.ofList (replaceFrom 0 source.toList ordered)

/-- The text that is emitted for a unit. -/
def emitSource (options : Options) (source : String) (sites : List SiteOutput)
    (ruleTexts : List String) : String :=
  (if sites.isEmpty then "" else header options ruleTexts) ++ replaceSites source sites

end AtomicStyle

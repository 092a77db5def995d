import AtomicStyle.Compile.Expression
import AtomicStyle.Compile.Options

/-!
# Compiled sites

What a site becomes: the expression that replaces it, with the class names, variables and rules it
needs.  The rules of a unit are bound to constants, and a site names the constants of its rules.
-/

namespace AtomicStyle

open AtomicStyle.Text

/-- A site after compilation. -/
structure SiteOutput where
  span : Span
  /-- The expression that replaces the site. -/
  replacement : String
  /-- The class names that apply whatever the tests say. -/
  classNames : List String
  vars : List CssVariable
  /-- The texts of the rules that the site needs. -/
  rules : List String
deriving DecidableEq, Repr

/-- The numbers of rule texts, in the order in which the texts first occur; of several equal texts
the last number counts. -/
def ruleNumbers (ruleTexts : List String) : Ordered Nat :=
  Ordered.putAll [] ruleTexts.zipIdx

/-- The name of the constant with a number. -/
def constantName (n : Nat) : String :=
  "_" ++ toString n

namespace ClassItems

/-- The variables of all groups; of several with one name the last expression counts. -/
def vars (items : ClassItems) : List CssVariable :=
  let named := items.groups.flatMap fun g => g.vars.map fun v => (v.name, v)
  (Ordered.putAll [] named).map Prod.snd

/-- The numbers of the rules of all groups, ascending, each once. -/
def numbers (rendering : Rendering) (numbered : Ordered Nat) (items : ClassItems) : List Nat :=
  let found := items.groups.flatMap fun g =>
    g.rules.filterMap fun rule => numbered.get? (rule.toCss rendering)
  (found.mergeSort (· ≤ ·)).eraseDups

end ClassItems

/-- The fields of the expression that replaces a site. -/
def siteFields (options : Options) (items : ClassItems) (numbers : List Nat) : List String :=
  let vars := items.vars
  let classField := "className: " ++ composeCall (items.texts options.rendering)
  let styleField := "style: \x7b " ++
    String.intercalate ", " (vars.map fun v => quoted v.name ++ ": " ++ v.call) ++ " \x7d"
  let sheetsField :=
    "sheets: [" ++ String.intercalate ", " (numbers.map constantName) ++ "]"
  let nonceField := options.nonce.toList.map fun nonce => "nonce: " ++ quoted nonce
  [classField] ++ (if vars.isEmpty then [] else [styleField]) ++
    (if options.extract || numbers.isEmpty then [] else sheetsField :: nonceField)

/-- Compiles the items of a site, given the numbers of the unit's rules. -/
def siteOutput (options : Options) (numbered : Ordered Nat) (span : Span) (items : ClassItems) :
    SiteOutput :=
  let numbers := items.numbers options.rendering numbered
  { span
    replacement :=
      "\x7b " ++ String.intercalate ", " (siteFields options items numbers) ++ " \x7d"
    classNames := items.staticGroups.flatMap fun g =>
      g.rules.map (·.elementClass options.compression)
    vars := items.vars
    rules := numbers.filterMap fun n => numbered[n]?.map Prod.fst }

end AtomicStyle

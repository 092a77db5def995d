import AtomicStyle.Expr.Basic
import AtomicStyle.Ordered

/-!
# Source units

What the compiler knows of one source file: its constant bindings, the names it imports and
exports, and the places where it applies styles.
-/

namespace AtomicStyle

/-- Which export of a module an import takes. -/
inductive ImportKind where
  | named (name : String)
  | default
  /-- The module itself, its exports being members. -/
  | whole
deriving DecidableEq, Repr

structure Import where
  localName : String
  kind : ImportKind
  source : String
deriving DecidableEq, Repr

inductive Export where
  /-- A binding of the unit under another name. -/
  | binding (exported localName : String)
  /-- An export of another module under another name. -/
  | forwarded (exported imported source : String)
  /-- Every export of another module. -/
  | all (source : String)
deriving DecidableEq, Repr

/-- A place where styles are applied. -/
structure Site where
  span : Span
  input : Expr

/-- One source file. -/
structure SourceUnit where
  path : String
  source : String := ""
  imports : List Import := []
  bindings : Ordered Expr := []
  exports : List Export := []
  sites : List Site := []

namespace SourceUnit

/-- The import that binds a local name; of several the first. -/
def import? (unit : SourceUnit) (localName : String) : Option Import :=
  unit.imports.find? fun i => i.localName == localName

def addImport (unit : SourceUnit) (i : Import) : SourceUnit :=
  { unit with imports := unit.imports ++ [i] }

/-- Binds a constant. -/
def bind (unit : SourceUnit) (name : String) (init : Expr) : SourceUnit :=
  { unit with bindings := unit.bindings.put name init }

def addExport (unit : SourceUnit) (e : Export) : SourceUnit :=
  { unit with exports := unit.exports ++ [e] }

/-- Binds a constant and exports it under its own name. -/
def bindExported (unit : SourceUnit) (name : String) (init : Expr) : SourceUnit :=
  (unit.addExport (.binding name name)).bind name init

def addSite (unit : SourceUnit) (site : Site) : SourceUnit :=
  { unit with sites := unit.sites ++ [site] }

/-- Adds a site at the first occurrence of `needle`, which becomes the place of its expression. -/
def addSiteAt (unit : SourceUnit) (needle : String) (input : Expr) : SourceUnit :=
  let span := (Span.find? unit.source needle).getD Span.none
  unit.addSite ⟨span, input.withSpan span⟩

end SourceUnit

end AtomicStyle

import AtomicStyle.Module.Path
import AtomicStyle.Module.Unit

/-!
# Module graphs

The source units that imports can reach, stored by normalized path.
-/

namespace AtomicStyle

/-- Finds the unit that a specifier names, seen from another unit. -/
abbrev Resolver := SourceUnit → String → Option SourceUnit

namespace Resolver

/-- Finds nothing, so every import is left for run time. -/
protected def none : Resolver := fun _ _ => Option.none

end Resolver

/-- Source units by normalized path. -/
structure ModuleGraph where
  units : List (ModulePath × SourceUnit)

namespace ModuleGraph

def empty : ModuleGraph := ⟨[]⟩

/-- Adds a unit under its path; a unit that is stored there gives way. -/
def insert (graph : ModuleGraph) (unit : SourceUnit) : ModuleGraph :=
  let key := (ModulePath.ofString unit.path).normalize
  ⟨graph.units.filter (·.1 != key) ++ [(key, unit)]⟩

def ofList (units : List SourceUnit) : ModuleGraph :=
  units.foldl insert empty

/-- The unit stored at a path. -/
def get? (graph : ModuleGraph) (path : ModulePath) : Option SourceUnit :=
  graph.units.lookup path.normalize

def size (graph : ModuleGraph) : Nat :=
  graph.units.length

def isEmpty (graph : ModuleGraph) : Bool :=
  graph.units.isEmpty

/-- The file extensions that an import may leave out, in order of preference. -/
def extensions : List String := ["ts", "tsx", "js", "jsx"]

/-- The unit at a path: the path itself, the path with an extension, or the index file of the
directory. -/
def lookup? (graph : ModuleGraph) (base : ModulePath) : Option SourceUnit :=
  match graph.get? base with
  | some unit => some unit
  | none => do
    let name ← base.fileName?
    let files := extensions.map fun ext => base.withFileName (name ++ "." ++ ext)
    let indexes := extensions.map fun ext => base.child ("index." ++ ext)
    (files ++ indexes).findSome? graph.get?

/-- Whether a specifier is taken from the directory of the importing unit. -/
def isRelative (specifier : String) : Bool :=
  ['.', '/'].isPrefixOf specifier.toList || ['.', '.', '/'].isPrefixOf specifier.toList

/-- The path that a specifier names, seen from the unit at `origin`. -/
def target (origin : String) (specifier : String) : ModulePath :=
  if isRelative specifier then
    (ModulePath.ofString origin).directory.join (ModulePath.ofString specifier)
  else ModulePath.ofString specifier

/-- Follows relative specifiers from the importing unit and takes all others as they are. -/
def resolver (graph : ModuleGraph) : Resolver :=
  fun unit specifier => graph.lookup? (target unit.path specifier)

end ModuleGraph

end AtomicStyle

import AtomicStyle.ClassName.Compression
import AtomicStyle.Json.Reader
import AtomicStyle.Rule.Atomic
import AtomicStyle.Sheet.Arrange

/-!
# Options

The settings of a compilation and their JSON form: an object in which settings may be missing and
unknown ones are ignored, or an array of the settings in order.
-/

namespace AtomicStyle

/-- The settings of a compilation. -/
structure Options where
  /-- Rules are left out of the emitted code, to be gathered in one stylesheet. -/
  extract : Bool := false
  /-- Units with sites import the functions that compose class names at run time. -/
  importRuntime : Bool := true
  /-- A security nonce that goes with the rules. -/
  nonce : Option String := none
  compression : Option CompressionMap := none
  sortAtRules : Bool := false
  sortShorthand : Bool := true
  increaseSpecificity : Bool := false
  /-- What is hashed into every class name. -/
  classSalt : Option String := none
  /-- The part of a shared cache that is used. -/
  cacheSpace : Option String := none
  /-- The groups of equal blocks are reused. -/
  cache : Bool := true
deriving DecidableEq, Repr

namespace Options

def sorting (options : Options) : SortOptions :=
  ⟨options.sortAtRules, options.sortShorthand⟩

def rendering (options : Options) : Rendering :=
  ⟨options.increaseSpecificity, options.compression⟩

/-- A setting that is on or off. -/
def flag? : Json → Option Bool
  | .bool value => some value
  | _ => none

/-- A setting that may be absent. -/
def optional? {α : Type} (read : Json → Option α) : Json → Option (Option α)
  | .null => some none
  | json => (read json).map some

def text? : Json → Option String
  | .string text => text
  | _ => none

/-- A compression map whose tokens are all strings. -/
def compression? : Json → Option CompressionMap
  | .object members => do
    let entries ← members.mapM fun member => do
      return (← member.1, ← text? member.2)
    return CompressionMap.ofEntries (Sorted.ofList entries)
  | _ => none

/-- The settings by name and the way to read each, in order. -/
def settings : List (String × (Options → Json → Option Options)) :=
  [("extract", fun o j => (flag? j).map fun b => { o with extract := b }),
    ("importFrameworkRuntime", fun o j => (flag? j).map fun b => { o with importRuntime := b }),
    ("nonce", fun o j => (optional? text? j).map fun t => { o with nonce := t }),
    ("classNameCompressionMap",
      fun o j => (optional? compression? j).map fun m => { o with compression := m }),
    ("sortAtRules", fun o j => (flag? j).map fun b => { o with sortAtRules := b }),
    ("sortShorthand", fun o j => (flag? j).map fun b => { o with sortShorthand := b }),
    ("increaseSpecificity", fun o j => (flag? j).map fun b => { o with increaseSpecificity := b }),
    ("classHashPrefix", fun o j => (optional? text? j).map fun t => { o with classSalt := t }),
    ("cacheNamespace", fun o j => (optional? text? j).map fun t => { o with cacheSpace := t }),
    ("cache", fun o j => (flag? j).map fun b => { o with cache := b })]

/-- Reads one member of an options object; what is unknown is ignored. -/
def member? (options : Options) (key : String) (json : Json) : Option Options :=
  match settings.lookup key with
  | some read => read options json
  | none => some options

/-- The options of a document.  No setting may be given twice. -/
def ofDocument? : Json → Option Options
  | .object members => do
    let entries ← members.mapM fun member => member.1.map fun key => (key, member.2)
    let known := (entries.map Prod.fst).filter fun key => (settings.lookup key).isSome
    if known.eraseDups.length != known.length then failure
    entries.foldlM (fun options entry => options.member? entry.1 entry.2) {}
  | .array items =>
    if settings.length < items.length then none
    else (settings.zip items).foldlM (fun options entry => entry.1.2 options entry.2) {}
  | _ => none

/-- The options of a JSON text. -/
def ofJson? (text : String) : Option Options :=
  (Json.parse? text).bind ofDocument?

end Options

end AtomicStyle

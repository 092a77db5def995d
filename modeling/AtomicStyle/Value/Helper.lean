import AtomicStyle.Value.Basic

/-!
# Helpers

Pure functions that may be called at build time.  A helper of another module is known by the
module's specifier and the name of the export, joined by a colon; a global one by its plain name.
-/

namespace AtomicStyle

/-- A pure function of constants; it may decline its arguments. -/
abbrev Helper := List Value → Option Value

/-- The helpers by key. -/
abbrev Helpers := String → Option Helper

namespace Helpers

protected def none : Helpers := fun _ => Option.none

/-- Adds a helper; one under the same key gives way. -/
def register (helpers : Helpers) (key : String) (helper : Helper) : Helpers :=
  fun other => if other = key then some helper else helpers other

/-- Folds numbers; any other argument is declined. -/
def foldNumbers (f : Float → Float → Float) : Float → Helper
  | acc, [] => some (.num acc)
  | acc, .num x :: rest => foldNumbers f (f acc x) rest
  | _, _ :: _ => Option.none

/-- A function of the first argument, which has to be a number. -/
def onNumber (f : Float → Float) : Helper
  | .num x :: _ => some (.num (f x))
  | _ => Option.none

/-- The larger of two numbers; the first one if they are equal or the second is NaN. -/
def larger (x y : Float) : Float :=
  if x < y then y else x

/-- The smaller of two numbers; the first one if they are equal or the second is NaN. -/
def smaller (x y : Float) : Float :=
  if y < x then y else x

/-- The text of the first argument. -/
def textOf : Helper
  | [] => some (.str "")
  | value :: _ => value.text?.map .str

/-- The arithmetic and text helpers that the script language itself provides. -/
def standard : Helpers :=
  fun key =>
    match key with
    | "Math.max" => some (foldNumbers larger (-1.0 / 0.0))
    | "Math.min" => some (foldNumbers smaller (1.0 / 0.0))
    | "Math.round" => some (onNumber fun x => (x + 0.5).floor)
    | "Math.floor" => some (onNumber Float.floor)
    | "Math.ceil" => some (onNumber Float.ceil)
    | "Math.abs" => some (onNumber Float.abs)
    | "String" => some textOf
    | _ => Option.none

/-- A helper given by a table from one text to a value. -/
def ofTable (rows : List (String × Value)) : Helper
  | [.str argument] => rows.lookup argument
  | _ => Option.none

end Helpers

end AtomicStyle

import AtomicStyle.ClassName.Compression
import AtomicStyle.Json.Reader

/-!
# Compression maps from JSON

A compression map is given as a flat JSON object.
-/

namespace AtomicStyle.CompressionMap

/-- Why a text gives no compression map. -/
inductive Unreadable where
  | malformed
  | notAnObject (kind : String)
deriving DecidableEq, Repr

/-- What is said of a text that is not an object. -/
def Unreadable.message : Unreadable → String
  | malformed => "compression map is not valid JSON"
  | notAnObject kind => "compression map must be a flat JSON object, found " ++ kind

/-- Adds a member; a value that is not a string is kept aside with its text. -/
def insertMember (map : CompressionMap) (key : String) : Json → CompressionMap
  | .string text => map.insert key (text.getD "")
  | other => map.reject key other.compact .notText

/-- The map of a JSON text.  The members are taken by ascending key, and of several with one key
the last. -/
def ofJson (text : String) : Except Unreadable CompressionMap :=
  match Json.parse? text with
  | none => .error .malformed
  | some json =>
    if !json.isData then .error .malformed
    else
      match json with
      | .object members =>
        let entries := Sorted.ofList (members.map fun member => (member.1.getD "", member.2))
        .ok (entries.foldl (fun map entry => map.insertMember entry.1 entry.2) empty)
      | other => .error (.notAnObject other.kind)

end AtomicStyle.CompressionMap

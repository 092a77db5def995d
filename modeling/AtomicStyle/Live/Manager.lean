import AtomicStyle.Live.Document
import AtomicStyle.Live.State

/-!
# The stylesheet manager

Puts rules into a document, each once, in the style element of its bucket.  A rule whose key was
recorded is passed over; a rule that cannot be inserted ends the call, and what was inserted before
it stays.
-/

namespace AtomicStyle

/-- A document with the state of its insertions and the nonce of new style elements. -/
structure Manager where
  document : Document := .empty
  state : InsertionState := .empty
  nonce : Option String := none
deriving DecidableEq, Repr

namespace Manager

/-- Creates the style element of a point if there is none. -/
def ensurePoint (manager : Manager) (point : InsertionPoint) : Manager :=
  if manager.state.hasPoint point then manager
  else
    { manager with
      document := manager.document.create point (manager.state.position point) manager.nonce
      state := manager.state.addPoint point }

/-- Inserts a rule that is not there yet; the flag says whether it was inserted. -/
def insertRule (manager : Manager) (rule : String) : Except SheetFault (Manager × Bool) := do
  let css := Text.trimmed rule
  let key := RuleText.key css
  if manager.state.contains key then return (manager, false)
  RuleText.check css
  let point := InsertionPoint.ofRule css
  let ready := manager.ensurePoint point
  let document ← ready.document.insert point css
  return ({ ready with document, state := ready.state.record key }, true)

/-- Inserts the rules that are not there yet.  The result is the number of rules inserted, or the
fault of the first rule that could not be; the manager holds what was inserted before. -/
def ensureInserted (manager : Manager) : List String → Except SheetFault Nat × Manager
  | [] => (.ok 0, manager)
  | rule :: rest =>
    match manager.insertRule rule with
    | .error fault => (.error fault, manager)
    | .ok (next, inserted) =>
      let (result, last) := next.ensureInserted rest
      (result.map (· + if inserted then 1 else 0), last)

end Manager

end AtomicStyle

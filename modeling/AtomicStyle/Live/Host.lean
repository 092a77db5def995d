import AtomicStyle.Live.Manager
import AtomicStyle.Ordered

/-!
# Ownership of documents

A document has at most one owner: a manager that writes into it, or a claim that keeps managers
away.  Managers and claims go by name; giving a name anew ends what it stood for.
-/

namespace AtomicStyle

/-- A manager and the name of the document it owns.  A shared manager can no longer be asked for its
state. -/
structure Owner where
  document : String
  manager : Manager
  shared : Bool := false

/-- The managers and the claims by name. -/
structure Host where
  managers : Ordered Owner := []
  claims : Ordered String := []

namespace Host

def isOwned (host : Host) (document : String) : Bool :=
  (host.managers.any fun entry => entry.2.document == document) ||
    host.claims.any fun entry => entry.2 == document

/-- Starts a manager for a document without an owner.  A manager of the same name is let go. -/
def start (host : Host) (name document : String) (manager : Manager) : Except SheetFault Host :=
  if host.isOwned document then .error .duplicateOwner
  else .ok { host with managers := host.managers.put name { document, manager } }

/-- Claims a document without an owner.  A claim of the same name is let go. -/
def claim (host : Host) (name document : String) : Except SheetFault Host :=
  if host.isOwned document then .error .duplicateOwner
  else .ok { host with claims := host.claims.put name document }

/-- Ends a claim. -/
def release (host : Host) (name : String) : Host :=
  { host with claims := host.claims.filter fun entry => entry.1 != name }

/-- Lets a manager go, and with it its document. -/
def drop (host : Host) (name : String) : Host :=
  { host with managers := host.managers.filter fun entry => entry.1 != name }

def owner? (host : Host) (name : String) : Option Owner :=
  host.managers.get? name

/-- Shares a manager between several callers. -/
def share (host : Host) (name : String) : Host :=
  match host.owner? name with
  | some owner => { host with managers := host.managers.put name { owner with shared := true } }
  | none => host

/-- Inserts rules through a manager. -/
def insert? (host : Host) (name : String) (rules : List String) :
    Option (Except SheetFault Nat × Host) :=
  (host.owner? name).map fun owner =>
    let (result, manager) := owner.manager.ensureInserted rules
    (result, { host with managers := host.managers.put name { owner with manager } })

end Host

end AtomicStyle

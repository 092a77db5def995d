import AtomicStyle.Live.Markup
import AtomicStyle.Live.RuleText

/-!
# Insertion state

The keys of the rules that are in a document, and the insertion points that were created.  A client
that takes over a page starts from the rules that the server has written into it.
-/

namespace AtomicStyle

/-- The keys that were recorded, each once, and the points that were created, in order. -/
structure InsertionState where
  keys : List String := []
  points : List InsertionPoint := []
deriving DecidableEq, Repr

namespace InsertionState

def empty : InsertionState := {}

def contains (state : InsertionState) (key : String) : Bool :=
  state.keys.contains key

/-- Records a key. -/
def record (state : InsertionState) (key : String) : InsertionState :=
  if state.contains key then state else { state with keys := state.keys ++ [key] }

def recordAll (state : InsertionState) (keys : List String) : InsertionState :=
  keys.foldl record state

def size (state : InsertionState) : Nat :=
  state.keys.length

def isEmpty (state : InsertionState) : Bool :=
  state.keys.isEmpty

/-- The state of a document with the given class names. -/
def ofClassNames (names : List String) : InsertionState :=
  empty.recordAll names

/-- The state of a document with the given stylesheet text. -/
def ofCss (css : String) : Except SheetFault InsertionState :=
  (RuleText.keys css).map ofClassNames

/-- The state of a page that a server has written. -/
def ofHtml (page : String) : Except SheetFault InsertionState :=
  (Markup.styleContents page).foldlM
    (fun state css => (RuleText.keys css).map state.recordAll) empty

def hasPoint (state : InsertionState) (point : InsertionPoint) : Bool :=
  state.points.contains point

/-- The position that a new point takes: the number of points before it. -/
def position (state : InsertionState) (point : InsertionPoint) : Nat :=
  state.points.countP fun other => other.rank < point.rank

/-- Adds a point in its place. -/
def addPoint (state : InsertionState) (point : InsertionPoint) : InsertionState :=
  if state.hasPoint point then state
  else
    let position := state.position point
    { state with
      points := state.points.take position ++ point :: state.points.drop position }

/-- A recorded key is there, and nothing else has come or gone. -/
theorem contains_record (state : InsertionState) (key other : String) :
    (state.record key).contains other = (other == key || state.contains other) := by
  unfold record
  split
  · next h =>
    by_cases ho : other = key
    · subst ho
      simp [h]
    · simp [ho]
  · simp only [contains, List.contains_append, List.contains_cons, List.contains_nil, Bool.or_false]
    exact Bool.or_comm _ _

theorem hasPoint_addPoint (state : InsertionState) (point other : InsertionPoint) :
    (state.addPoint point).hasPoint other = (other == point || state.hasPoint other) := by
  unfold addPoint
  split
  · next h =>
    by_cases ho : other = point
    · subst ho
      simp [h]
    · simp [ho]
  · have hsplit := List.take_append_drop (state.position point) state.points
    simp only [hasPoint, List.contains_append, List.contains_cons]
    conv => rhs; rw [← hsplit, List.contains_append]
    exact Bool.or_left_comm _ _ _

end InsertionState

end AtomicStyle

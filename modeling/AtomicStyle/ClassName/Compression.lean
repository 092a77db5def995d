import AtomicStyle.ClassName.Basic
import AtomicStyle.Sorted
import AtomicStyle.Text.Blank

/-!
# Compression of class names

A table of short tokens for atomic class names.  A key is a class name without its underscore.
Entries that cannot be used are kept aside with the reason.
-/

namespace AtomicStyle

open AtomicStyle.Text

/-- Why an entry of a compression map is not used. -/
inductive RejectReason where
  | badKey
  | badToken
  | notText
deriving DecidableEq, Repr

def RejectReason.message : RejectReason → String
  | badKey => "key is not an atomic class name"
  | badToken => "value is not a valid CSS identifier"
  | notText => "value is not a string"

/-- An entry of a compression map that is not used. -/
structure RejectedEntry where
  key : String
  value : String
  reason : RejectReason
deriving DecidableEq, Repr

def RejectedEntry.message (entry : RejectedEntry) : String :=
  "ignored compression map entry `" ++ entry.key ++ "`: " ++ entry.reason.message

/-- Tokens by key and the entries that are not used. -/
structure CompressionMap where
  entries : Sorted String := []
  rejected : List RejectedEntry := []
deriving DecidableEq, Repr

namespace CompressionMap

def empty : CompressionMap := {}

/-- Keeps an entry aside. -/
def reject (map : CompressionMap) (key value : String) (reason : RejectReason) : CompressionMap :=
  { map with rejected := map.rejected ++ [⟨key, value, reason⟩] }

/-- Adds an entry, or keeps it aside. -/
def insert (map : CompressionMap) (key token : String) : CompressionMap :=
  if !ClassName.isAtomic ("_" ++ key) then map.reject key token .badKey
  else if !ClassName.isIdentifier token then map.reject key token .badToken
  else { map with entries := map.entries.put key token }

/-- The map of entries in the given order. -/
def ofEntries (entries : List (String × String)) : CompressionMap :=
  entries.foldl (fun map entry => map.insert entry.1 entry.2) empty

def size (map : CompressionMap) : Nat :=
  map.entries.length

def isEmpty (map : CompressionMap) : Bool :=
  map.entries.isEmpty

def keys (map : CompressionMap) : List String :=
  map.entries.map Prod.fst

/-- A class name without the underscore in front. -/
def bareName (name : String) : String :=
  match name.toList with
  | '_' :: rest => String.ofList rest
  | _ => name

/-- The token of a class name, written with or without its underscore. -/
def get? (map : CompressionMap) (name : String) : Option String :=
  map.entries.lookup (bareName name)

/-- The compressed form of an atomic class name: its slot and its token. -/
def compress? (map : CompressionMap) (name : String) : Option String :=
  if ClassName.isAtomic name then
    (map.get? name).map fun token => ClassName.slot name ++ "_" ++ token
  else none

/-- A class name in its compressed form where it has one. -/
def compress (map : CompressionMap) (name : String) : String :=
  (map.compress? name).getD name

/-- The names of a class list in their compressed forms. -/
def compressList (map : CompressionMap) (classList : String) : String :=
  String.intercalate " " ((wordsOf classList).map map.compress)

/-- The keys that stand for none of the given class names. -/
def unused (map : CompressionMap) (names : List String) : List String :=
  let used := names.map bareName
  map.keys.filter fun key => !used.contains key

end CompressionMap

end AtomicStyle

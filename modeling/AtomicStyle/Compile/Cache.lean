import AtomicStyle.Rule.Atomize

/-!
# The group cache

The groups of blocks that were atomized before.  A block gives different groups under different
salts, and compilers may keep their entries apart by naming a space of their own.  A key does not hold
the block but a digest of it, of any type; unless said otherwise, a block is its own digest.
-/

namespace AtomicStyle

/-- What a cached group depends on, and the space in which it is kept. -/
structure CacheKey (δ : Type) where
  space : String
  salt : String
  digest : δ
deriving DecidableEq, Repr

/-- The key of the block with a digest; an absent space or salt is the empty one. -/
def CacheKey.of {δ : Type} (space salt : Option String) (digest : δ) : CacheKey δ :=
  ⟨space.getD "", salt.getD "", digest⟩

/-- Groups by key. -/
structure GroupCache (δ : Type := Block) where
  entries : List (CacheKey δ × RuleGroup) := []

namespace GroupCache

variable {δ : Type}

def empty : GroupCache δ := {}

def size (cache : GroupCache δ) : Nat :=
  cache.entries.length

def isEmpty (cache : GroupCache δ) : Bool :=
  cache.entries.isEmpty

variable [DecidableEq δ]

def get? (cache : GroupCache δ) (key : CacheKey δ) : Option RuleGroup :=
  cache.entries.lookup key

/-- Writes an entry; one with the same key gives way. -/
def insert (cache : GroupCache δ) (key : CacheKey δ) (group : RuleGroup) : GroupCache δ :=
  ⟨(key, group) :: cache.entries.filter fun entry => entry.1 != key⟩

/-- The group under a key, which is computed and kept if there is none. -/
def getOrInsert (key : CacheKey δ) (compute : Unit → RuleGroup) :
    StateM (GroupCache δ) RuleGroup := do
  match (← get).get? key with
  | some group => return group
  | none =>
    let group := compute ()
    modify fun cache => cache.insert key group
    return group

@[simp] theorem get?_empty (key : CacheKey δ) : empty.get? key = none := rfl

theorem lookup_filter_ne {entries : List (CacheKey δ × RuleGroup)} {key other : CacheKey δ}
    (h : other ≠ key) :
    (entries.filter fun entry => entry.1 != key).lookup other = entries.lookup other := by
  induction entries with
  | nil => rfl
  | cons entry rest ih =>
    obtain ⟨k, g⟩ := entry
    by_cases hk : k = key
    · subst hk
      simp [lookup_cons_eq_ite, ih, h]
    · simp [lookup_cons_eq_ite, hk, ih]

/-- What was written is there, and every other entry is as it was. -/
theorem get?_insert (cache : GroupCache δ) (key other : CacheKey δ) (group : RuleGroup) :
    (cache.insert key group).get? other = if other = key then some group else cache.get? other := by
  by_cases h : other = key
  · simp [insert, get?, lookup_cons_eq_ite, h]
  · simp [insert, get?, lookup_cons_eq_ite, h, lookup_filter_ne h]

end GroupCache

end AtomicStyle

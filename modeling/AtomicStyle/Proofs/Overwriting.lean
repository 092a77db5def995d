import AtomicStyle.Proofs.Atomizing
import AtomicStyle.Style.Entry

/-!
# Objects that are written in turn

The value of an object literal is written member by member, and of several members with one key the
value of the last remains, in the place of the first.  A reading that leaves an entry for every
member (`Reads`) keeps them all.

Results:
1. `Ordered.putAll_putAll`: writing an object that was itself written is writing its members.
2. `Reads.sameStyles`: entries with distinct keys give the styles of the object that they make up.
3. `toBlock_overwritten`, `toBlock_evaluated_overwritten`: where a key is written twice, an entry may
   declare what the object has lost.
-/

namespace AtomicStyle

open AtomicStyle.Text

/-! ## Writing in turn -/

namespace Ordered

variable {α : Type} {entries more : Ordered α} {key : String}

theorem put_of_not_mem (h : key ∉ entries.map Prod.fst) (value : α) :
    entries.put key value = entries ++ [(key, value)] := by
  induction entries with
  | nil => rfl
  | cons entry rest ih =>
    rw [List.map_cons, List.mem_cons, not_or] at h
    have hne : (entry.1 == key) = false := beq_eq_false_iff_ne.mpr (Ne.symm h.1)
    rw [put, hne, ih h.2]
    rfl

theorem nodup_put (h : (entries.map Prod.fst).Nodup) (key : String) (value : α) :
    ((entries.put key value).map Prod.fst).Nodup := by
  rw [map_fst_put]
  split
  · exact h
  · next hfresh =>
    exact List.nodup_append.mpr ⟨h, List.nodup_singleton key, by grind⟩

theorem nodup_putAll (entries : Ordered α) (h : (entries.map Prod.fst).Nodup)
    (writes : List (String × α)) : ((entries.putAll writes).map Prod.fst).Nodup := by
  unfold putAll
  induction writes generalizing entries with
  | nil => exact h
  | cons entry rest ih => exact ih _ (nodup_put h entry.1 entry.2)

theorem mem_put_self (entries : Ordered α) (key : String) (value : α) :
    key ∈ (entries.put key value).map Prod.fst := by
  rw [map_fst_put]
  split
  · assumption
  · exact List.mem_append_right _ (List.mem_singleton_self key)

theorem put_put (entries : Ordered α) (key : String) (old new : α) :
    (entries.put key old).put key new = entries.put key new := by
  induction entries with
  | nil => simp [put]
  | cons entry rest ih =>
    by_cases h : entry.1 = key
    · simp [put, h]
    · simp [put, h, ih]

/-- A key that is present keeps its place, whatever is written around it. -/
theorem put_comm_of_mem (h : key ∈ entries.map Prod.fst) {other : String} (hne : other ≠ key)
    (value value' : α) :
    (entries.put other value').put key value = (entries.put key value).put other value' := by
  induction entries with
  | nil => exact absurd h List.not_mem_nil
  | cons entry rest ih =>
    by_cases hkey : entry.1 = key
    · have hother : entry.1 ≠ other := fun heq => hne (heq.symm.trans hkey)
      simp [put, hkey, hkey ▸ hother]
    · have hrest : key ∈ rest.map Prod.fst := by
        rcases List.mem_cons.mp h with heq | hrest
        · exact absurd heq.symm hkey
        · exact hrest
      by_cases hother : entry.1 = other
      · simp [put, hother, hne]
      · simp [put, hkey, hother, ih hrest]

theorem putAll_comm_of_mem (h : key ∈ entries.map Prod.fst) (hfresh : key ∉ more.map Prod.fst)
    (value : α) : (entries.putAll more).put key value = (entries.put key value).putAll more := by
  unfold putAll
  induction more generalizing entries with
  | nil => rfl
  | cons entry rest ih =>
    rw [List.map_cons, List.mem_cons, not_or] at hfresh
    have hstill : key ∈ (entries.put entry.1 entry.2).map Prod.fst := by
      rw [map_fst_put]
      split
      · exact h
      · exact List.mem_append_left _ h
    rw [List.foldl_cons, List.foldl_cons, ih hstill hfresh.2,
      put_comm_of_mem h (Ne.symm hfresh.1)]

/-- Writing an object after a write to it is writing the object, and then that write. -/
theorem putAll_put (hnodup : (more.map Prod.fst).Nodup) (entries : Ordered α) (key : String)
    (value : α) : entries.putAll (more.put key value) = (entries.putAll more).put key value := by
  induction more generalizing entries with
  | nil => rfl
  | cons entry rest ih =>
    obtain ⟨hfresh, hrest⟩ := List.nodup_cons.mp hnodup
    by_cases h : entry.1 = key
    · have hput : Ordered.put (entry :: rest) key value = (key, value) :: rest := by
        simp [put, h]
      -- the old value is written first and then replaced in its place
      calc entries.putAll (Ordered.put (entry :: rest) key value)
          = (entries.put key value).putAll rest := by rw [hput]; rfl
        _ = ((entries.put key entry.2).put key value).putAll rest := by rw [put_put]
        _ = ((entries.put key entry.2).putAll rest).put key value :=
          (putAll_comm_of_mem (mem_put_self ..) (h ▸ hfresh) value).symm
        _ = (entries.putAll (entry :: rest)).put key value := by rw [← h]; rfl
    · have hput : Ordered.put (entry :: rest) key value = entry :: Ordered.put rest key value := by
        simp [put, h]
      rw [hput]
      exact ih hrest (entries.put entry.1 entry.2)

/-- Writing an object that was itself written is writing its members. -/
theorem putAll_putAll (entries : Ordered α) (writes : List (String × α)) :
    entries.putAll (putAll [] writes) = entries.putAll writes := by
  induction writes using List.reverseRecOn with
  | nil => rfl
  | append_singleton writes entry ih =>
    have hlast (start : Ordered α) :
        start.putAll (writes ++ [entry]) = (start.putAll writes).put entry.1 entry.2 :=
      List.foldl_append
    rw [hlast, hlast, putAll_put (nodup_putAll [] List.nodup_nil writes), ih]

theorem putAll_of_nodup {writes : List (String × α)}
    (h : ((entries ++ writes).map Prod.fst).Nodup) : entries.putAll writes = entries ++ writes := by
  unfold putAll
  induction writes generalizing entries with
  | nil => exact (List.append_nil entries).symm
  | cons entry rest ih =>
    have hfresh : entry.1 ∉ entries.map Prod.fst := by
      rw [List.map_append, List.nodup_append] at h
      intro hmem
      exact h.2.2 _ hmem _ (List.mem_map_of_mem List.mem_cons_self) rfl
    rw [List.append_cons] at h
    rw [List.foldl_cons, put_of_not_mem hfresh, ih h, List.append_assoc, List.singleton_append]

theorem get?_of_mem {value : α} (hnodup : (entries.map Prod.fst).Nodup)
    (h : (key, value) ∈ entries) : entries.get? key = some value := by
  induction entries with
  | nil => exact absurd h List.not_mem_nil
  | cons entry rest ih =>
    obtain ⟨hfresh, hrest⟩ := List.nodup_cons.mp hnodup
    rw [get?_cons]
    rcases List.mem_cons.mp h with rfl | h
    · exact if_pos rfl
    · have hne : key ≠ entry.1 := by
        intro heq
        exact hfresh (List.mem_map.mpr ⟨_, h, heq⟩)
      rw [if_neg hne, ih hrest h]

theorem mem_keys_of_mem_putAll {writes : List (String × α)}
    (h : key ∈ (entries.putAll writes).map Prod.fst) :
    key ∈ entries.map Prod.fst ∨ key ∈ writes.map Prod.fst := by
  unfold putAll at h
  induction writes generalizing entries with
  | nil => exact .inl h
  | cons entry rest ih =>
    rcases ih h with h | h
    · rw [map_fst_put] at h
      split at h
      · exact .inl h
      · rcases List.mem_append.mp h with h | h
        · exact .inl h
        · exact .inr (List.mem_cons.mpr (.inl (List.mem_singleton.mp h)))
    · exact .inr (List.mem_cons_of_mem _ h)

theorem get?_putAll_map (entries : Ordered α) (keys : List String) (value : α) (key : String) :
    (entries.putAll (keys.map (·, value))).get? key =
      if key ∈ keys then some value else entries.get? key := by
  unfold putAll
  induction keys generalizing entries with
  | nil => rfl
  | cons first rest ih =>
    rw [List.map_cons, List.foldl_cons, ih, get?_put]
    grind

end Ordered

/-! ## Entries and the writes of an object -/

/-- Whether no member is a function, nor any member of an object inside. -/
def functionFree : List (String × Value) → Bool
  | [] => true
  | (_, .object members) :: rest => functionFree members && functionFree rest
  | (_, value) :: rest => !value.isFunction && functionFree rest

namespace Entries

/-- The keys of an object, without those of the objects inside. -/
def keys : Entries → List String
  | nil => []
  | scalar key _ _ rest | parts key _ _ rest | block key _ _ rest => key :: rest.keys

/-- No key is written twice in one object. -/
def Distinct : Entries → Prop
  | nil => True
  | scalar key _ _ rest | parts key _ _ rest => key ∉ rest.keys ∧ rest.Distinct
  | block key _ body rest => key ∉ rest.keys ∧ body.Distinct ∧ rest.Distinct

instance decidableDistinct : (entries : Entries) → Decidable entries.Distinct
  | nil => isTrue trivial
  | scalar key _ _ rest | parts key _ _ rest =>
    have := decidableDistinct rest
    inferInstanceAs (Decidable (key ∉ rest.keys ∧ rest.Distinct))
  | block key _ body rest =>
    have := decidableDistinct body
    have := decidableDistinct rest
    inferInstanceAs (Decidable (key ∉ rest.keys ∧ body.Distinct ∧ rest.Distinct))

/-- The entries without their places. -/
def unplaced : Entries → Entries
  | nil => nil
  | scalar key _ value rest => scalar key Span.none value rest.unplaced
  | parts key _ value rest => parts key Span.none value rest.unplaced
  | block key _ body rest => block key Span.none body.unplaced rest.unplaced

theorem nodup_keys {entries : Entries} (h : entries.Distinct) : entries.keys.Nodup := by
  induction entries with
  | nil => exact List.nodup_nil
  | scalar key span value rest ih => exact List.nodup_cons.mpr ⟨h.1, ih h.2⟩
  | parts key span value rest ih => exact List.nodup_cons.mpr ⟨h.1, ih h.2⟩
  | block key span body rest _ ih => exact List.nodup_cons.mpr ⟨h.1, ih h.2.2⟩

theorem unplaced_ofMembers (members : List (String × Value)) :
    (ofMembers members).unplaced = ofMembers members := by
  fun_induction ofMembers members with
  | case1 => rfl
  | case2 key members rest ihMembers ihRest => rw [unplaced, ihMembers, ihRest]
  | case3 key value rest _ ih => rw [unplaced, ih]

theorem ofMembers_of_not_object {value : Value} (h : ∀ members, value ≠ .object members)
    (key : String) (rest : List (String × Value)) :
    ofMembers ((key, value) :: rest) = scalar key Span.none value (ofMembers rest) := by
  rw [ofMembers]
  exact h

theorem mapError_toOption {ε ε' α : Type} (f : ε → ε') (x : Except ε α) :
    (x.mapError f).toOption = x.toOption := by
  cases x <;> rfl

theorem bind_toOption {ε α β : Type} (x : Except ε α) (f : α → Except ε β) :
    (x >>= f).toOption = x.toOption.bind fun a => (f a).toOption := by
  cases x <;> rfl

/-- Places are in the errors of a block only. -/
theorem toOption_toBlock_unplaced (entries : Entries) :
    entries.unplaced.toBlock.toOption = entries.toBlock.toOption := by
  induction entries with
  | nil => rfl
  | scalar key span value rest ih =>
    simp only [unplaced, toBlock, bind_toOption, mapError_toOption, ih]
  | parts key span value rest ih =>
    rw [unplaced, toBlock, toBlock]
    split
    · rfl
    · rw [bind_toOption, bind_toOption, ih]
  | block key span body rest ihBody ihRest =>
    simp only [unplaced, toBlock, bind_toOption, ihBody, ihRest]

end Entries

/-- The entries of an object are the writes that make up its value, in order.  An object inside may
have been taken apart too, or evaluated as a whole; a function is left for run time. -/
inductive Reads : Entries → List (String × Value) → Prop where
  | nil : Reads .nil []
  | scalar {key : String} {span : Span} {value : Value} {rest : Entries}
      {writes : List (String × Value)} (hvalue : ∀ members, value ≠ .object members)
      (hrest : Reads rest writes) : Reads (.scalar key span value rest) ((key, value) :: writes)
  | function {key : String} {span : Span} {ref : DynamicRef} {value : Value} {rest : Entries}
      {writes : List (String × Value)} (hvalue : value.isFunction = true)
      (hrest : Reads rest writes) :
      Reads (.parts key span [.dynamic ref] rest) ((key, value) :: writes)
  | apart {key : String} {span : Span} {body rest : Entries} {inner writes : List (String × Value)}
      (hbody : Reads body inner) (hrest : Reads rest writes) :
      Reads (.block key span body rest) ((key, .object (Ordered.putAll [] inner)) :: writes)
  | whole {key : String} {span : Span} {members writes : List (String × Value)} {rest : Entries}
      (hrest : Reads rest writes) :
      Reads (.block key span (.ofMembers members) rest) ((key, .object members) :: writes)

namespace Reads

theorem ofMembers (members : List (String × Value)) : Reads (.ofMembers members) members := by
  induction members with
  | nil =>
    rw [Entries.ofMembers]
    exact .nil
  | cons entry rest ih =>
    obtain ⟨key, value⟩ := entry
    by_cases h : ∃ members, value = .object members
    · obtain ⟨members, rfl⟩ := h
      rw [Entries.ofMembers]
      exact .whole ih
    · have hvalue (members) (heq : value = .object members) : False := h ⟨members, heq⟩
      rw [Entries.ofMembers_of_not_object hvalue]
      exact .scalar hvalue ih

theorem append {first second : Entries} {writes more : List (String × Value)}
    (hfirst : Reads first writes) (hsecond : Reads second more) :
    Reads (first ++ second) (writes ++ more) := by
  induction hfirst with
  | nil => exact hsecond
  | scalar hvalue _ ih => exact .scalar hvalue ih
  | function hvalue _ ih => exact .function hvalue ih
  | apart hbody _ _ ih => exact .apart hbody ih
  | whole _ ih => exact .whole ih

theorem keys_eq {entries : Entries} {writes : List (String × Value)} (h : Reads entries writes) :
    entries.keys = writes.map Prod.fst := by
  induction h with
  | nil => rfl
  | scalar _ _ ih => exact congrArg (List.cons _) ih
  | function _ _ ih => exact congrArg (List.cons _) ih
  | apart _ _ _ ih => exact congrArg (List.cons _) ih
  | whole _ ih => exact congrArg (List.cons _) ih

theorem putAll_eq {entries : Entries} {writes : List (String × Value)} (h : Reads entries writes)
    (hdistinct : entries.Distinct) : Ordered.putAll [] writes = writes := by
  refine Ordered.putAll_of_nodup ?_
  rw [List.nil_append, ← h.keys_eq]
  exact Entries.nodup_keys hdistinct

/-- Entries with distinct keys are those of the object that they make up, up to their places. -/
theorem unplaced_eq {entries : Entries} {writes : List (String × Value)} (h : Reads entries writes)
    (hdistinct : entries.Distinct) (hfree : functionFree writes = true) :
    entries.unplaced = .ofMembers writes := by
  induction h with
  | nil => rw [Entries.unplaced, Entries.ofMembers]
  | @scalar key span value rest writes hvalue _ ih =>
    rw [functionFree, Bool.and_eq_true] at hfree
    · rw [Entries.unplaced, ih hdistinct.2 hfree.2, Entries.ofMembers_of_not_object hvalue]
    · exact hvalue
  | @function key span ref value rest writes hvalue _ ih =>
    have hobject (members) (heq : value = .object members) : False := by
      rw [heq] at hvalue
      cases hvalue
    rw [functionFree, hvalue] at hfree
    · cases hfree
    · exact hobject
  | @apart key span body rest inner writes hbody _ ihBody ihRest =>
    rw [functionFree, Bool.and_eq_true, hbody.putAll_eq hdistinct.2.1] at hfree
    rw [hbody.putAll_eq hdistinct.2.1, Entries.ofMembers, Entries.unplaced,
      ihBody hdistinct.2.1 hfree.1, ihRest hdistinct.2.2 hfree.2]
  | @whole key span members writes rest _ ih =>
    rw [functionFree, Bool.and_eq_true] at hfree
    rw [Entries.ofMembers, Entries.unplaced, Entries.unplaced_ofMembers, ih hdistinct.2.2 hfree.2]

end Reads

/-! ## Styles -/

/-- The value that a group gives a property in a context, and whether it is important. -/
def RuleGroup.declared? (g : RuleGroup) (target : Context × String) : Option (String × Bool) :=
  (g.rules.find? fun rule => rule.target = target).map fun rule => (rule.value, rule.important)

/-- Two attempts to read styles either both fail, or give every property in every context the same
value and importance. -/
def SameStyles : Except CompileError Block → Except CompileError Block → Prop
  | .error _, .error _ => True
  | .ok first, .ok second =>
    ∀ salt target, (first.atomize salt).declared? target = (second.atomize salt).declared? target
  | _, _ => False

theorem sameStyles_of_toOption_eq {first second : Except CompileError Block}
    (h : first.toOption = second.toOption) : SameStyles first second := by
  cases first with
  | error _ =>
    cases second with
    | error _ => trivial
    | ok _ => cases h
  | ok block =>
    cases second with
    | error _ => cases h
    | ok block' =>
      obtain rfl : block = block' := Option.some.inj h
      exact fun _ _ => rfl

/-- Entries with distinct keys give the styles of the object that they make up. -/
theorem Reads.sameStyles {entries : Entries} {writes : List (String × Value)}
    (h : Reads entries writes) (hdistinct : entries.Distinct)
    (hfree : functionFree (Ordered.putAll [] writes) = true) :
    SameStyles entries.toBlock (Entries.ofMembers (Ordered.putAll [] writes)).toBlock := by
  rw [h.putAll_eq hdistinct] at hfree ⊢
  apply sameStyles_of_toOption_eq
  rw [← h.unplaced_eq hdistinct hfree, Entries.toOption_toBlock_unplaced]

/-! ## Objects of texts -/

/-- A text, or an absent value. -/
def Value.ofText? : Option String → Value
  | some text => .str text
  | none => .null

/-- What an object with a text or an absent value under every key writes. -/
def Value.ofTexts (texts : List (String × Option String)) : List (String × Value) :=
  texts.map fun entry => (entry.1, .ofText? entry.2)

theorem Value.ofText?_ne_object (text? : Option String) (members : List (String × Value)) :
    ofText? text? ≠ .object members := by
  cases text? <;> exact nofun

namespace Entries

theorem toBlock_null {key : String} (h : needsBlock (trimmed key) = false)
    (rest : List (String × Value)) :
    (ofMembers ((key, .null) :: rest)).toBlock = (ofMembers rest).toBlock := by
  have hnull : scalarText (trimmed key) .null = .ok (Css.propertyName (trimmed key), none) := by
    rw [scalarText, h]
    rfl
  have hobject : ∀ members, Value.null ≠ .object members := nofun
  rw [ofMembers_of_not_object hobject, toBlock, hnull]
  change ((ofMembers rest).toBlock >>= fun items => .ok items) = _
  cases (ofMembers rest).toBlock <;> rfl

theorem toBlock_text {key : String} (h : needsBlock (trimmed key) = false) {text : String}
    (htext : (trim text.toList).isEmpty = false) {rest : List (String × Value)} {items : Block}
    (hrest : (ofMembers rest).toBlock = .ok items) :
    (ofMembers ((key, .str text) :: rest)).toBlock =
      .ok (.declaration (.ofParts (Css.propertyName (trimmed key)) [.text text]) items) := by
  have hscalar : scalarText (trimmed key) (.str text) =
      .ok (Css.propertyName (trimmed key), some text) := by
    rw [scalarText, h]
    simp [Css.scalarText, htext]
  have hobject : ∀ members, Value.str text ≠ .object members := nofun
  rw [ofMembers_of_not_object hobject, toBlock, hscalar, hrest]
  rfl

theorem toBlock_nulls (keys : List String) (h : ∀ key ∈ keys, needsBlock (trimmed key) = false)
    (rest : List (String × Value)) :
    (ofMembers (keys.map (·, .null) ++ rest)).toBlock = (ofMembers rest).toBlock := by
  induction keys with
  | nil => rfl
  | cons key keys ih =>
    rw [List.map_cons, List.cons_append, toBlock_null (h key List.mem_cons_self),
      ih fun other hother => h other (List.mem_cons_of_mem _ hother)]

end Entries

theorem longhands_inherit (property : String) :
    longhands property "inherit" = [(property, "inherit")] := by
  have hcanonical : Css.canonical "inherit" = "inherit" := by decide +kernel
  have hwords : Css.words "inherit" = ["inherit"] := by decide +kernel
  have hreorder : Css.reorderLine? property "inherit" = none := by
    simp [Css.reorderLine?, hwords]
  have hexpand : Css.expand? property "inherit" = none := by
    have hglobal : ["inherit"].any Css.globalValues.contains = true := by decide
    simp [Css.expand?, hwords, hglobal]
  simp [longhands, hcanonical, hreorder, hexpand]

/-- Only the first write to a key is a text, and another one follows. -/
def overwritten (before : List String) (key : String) (after : List String) :
    List (String × Option String) :=
  before.map (·, none) ++ (key, some "inherit") :: after.map (·, none)

section

variable {before after : List String} {key : String}

theorem ofTexts_overwritten :
    Value.ofTexts (overwritten before key after) =
      before.map (·, .null) ++ (key, .str "inherit") :: after.map (·, .null) := by
  simp [Value.ofTexts, overwritten, Value.ofText?, Function.comp_def]

theorem map_fst_overwritten :
    (overwritten before key after).map Prod.fst = before ++ key :: after := by
  simp [overwritten, Function.comp_def]

theorem eq_null_of_mem_overwritten (h : key ∈ after) {entry : String × Value}
    (hentry : entry ∈ Ordered.putAll [] (Value.ofTexts (overwritten before key after))) :
    entry.2 = .null := by
  have hget := Ordered.get?_of_mem (Ordered.nodup_putAll [] List.nodup_nil _) hentry
  have hsplit : Ordered.putAll [] (Value.ofTexts (overwritten before key after)) =
      Ordered.putAll (Ordered.put (Ordered.putAll [] (before.map (·, .null))) key (.str "inherit"))
        (after.map (·, .null)) := by
    rw [ofTexts_overwritten]
    exact List.foldl_append
  rw [hsplit, Ordered.get?_putAll_map, Ordered.get?_put, Ordered.get?_putAll_map] at hget
  by_cases hafter : entry.1 ∈ after
  · rw [if_pos hafter] at hget
    exact (Option.some.inj hget).symm
  · have hkey : entry.1 ≠ key := fun heq => hafter (heq ▸ h)
    rw [if_neg hafter, if_neg hkey] at hget
    split at hget
    · exact (Option.some.inj hget).symm
    · cases hget

/-- Evaluated, such an object holds absent values only. -/
theorem toBlock_evaluated_overwritten
    (hkeys : ∀ name ∈ before ++ key :: after, Entries.needsBlock (trimmed name) = false)
    (h : key ∈ after) :
    (Entries.ofMembers
      (Ordered.putAll [] (Value.ofTexts (overwritten before key after)))).toBlock = .ok .nil := by
  generalize hvalues : Ordered.putAll [] (Value.ofTexts (overwritten before key after)) = values
  have hnull : values = (values.map Prod.fst).map (·, .null) ++ [] := by
    rw [List.append_nil, List.map_map]
    refine (List.map_id values).symm.trans (List.map_congr_left fun entry hentry => ?_)
    rw [← hvalues] at hentry
    exact Prod.ext rfl (eq_null_of_mem_overwritten h hentry)
  rw [hnull, Entries.toBlock_nulls, Entries.ofMembers, Entries.toBlock]
  intro name hname
  rw [← hvalues] at hname
  rcases Ordered.mem_keys_of_mem_putAll hname with hname | hname
  · exact absurd hname List.not_mem_nil
  · refine hkeys name ?_
    rw [← map_fst_overwritten]
    rw [Value.ofTexts, List.map_map] at hname
    exact hname

/-- Taken apart, it declares the text. -/
theorem toBlock_overwritten
    (hkeys : ∀ name ∈ before ++ key :: after, Entries.needsBlock (trimmed name) = false) :
    (Entries.ofMembers (Value.ofTexts (overwritten before key after))).toBlock =
      .ok (.declaration (.ofParts (Css.propertyName (trimmed key)) [.text "inherit"]) .nil) := by
  rw [ofTexts_overwritten,
    Entries.toBlock_nulls before fun name hname => hkeys name (by simp [hname])]
  refine Entries.toBlock_text (hkeys key (by simp)) (by decide) ?_
  rw [← List.append_nil (after.map _),
    Entries.toBlock_nulls after fun name hname => hkeys name (by simp [hname]),
    Entries.ofMembers, Entries.toBlock]

end

theorem declared?_inherit (salt property : String) :
    ((Block.declaration (.ofParts property [.text "inherit"]) .nil).atomize salt).declared?
      (Context.of [] "&", property) = some ("inherit", false) := by
  have hlast : Declaration.splitLast [.text "inherit"] = ([.text "inherit"], false) := by
    decide +kernel
  have hparts : Declaration.ofParts property [.text "inherit"] =
      ⟨property, [.text "inherit"], false⟩ := by
    rw [Declaration.ofParts, hlast]
    rfl
  have htext : (valueText (Context.of [] "&") ⟨property, [.text "inherit"], false⟩).1 =
      "inherit" := by
    simp [valueText, valueTextFrom]
  have hrules : (Block.declaration ⟨property, [.text "inherit"], false⟩ .nil).declared salt =
      [longhandRule salt (Context.of [] "&") false (property, "inherit")] := by
    rw [Block.declared, declareAll, Declared.rules_append, rules_declare, htext, longhands_inherit]
    rfl
  rw [hparts, RuleGroup.declared?, Block.rules_atomize, hrules, latest_of_nodup (by simp)]
  simp [longhandRule, AtomicRule.target]

end AtomicStyle

import AtomicStyle.Proofs.Overwriting
import AtomicStyle.Style.Resolution

/-!
# Two readings of a style object

An object literal at a site is taken apart member by member, and every member leaves an entry.  The
same literal in another module is evaluated first.  The entries of the first reading are the writes
that make up the object of the second, so the two come to the same where no key is written twice.

Results:
1. `Scope.takesApart_of_follows`: where an object has a value, it can be taken apart, and its entries
   read the writes of that value.
2. `Scope.follows_locals`: local names may be followed to any depth.
3. `Scope.readings_agree`: where the two readings agree, and that distinct keys are needed.
-/

namespace AtomicStyle

open AtomicStyle.Text

/-! ## Taking an object apart -/

/-- A step of resolution comes to a result with a property, whatever was gathered before. -/
def Gives {α : Type} (step : Resolution α) (p : α → Prop) : Prop :=
  ∀ progress, ∃ result last, (step.run.run progress).run = (.ok result, last) ∧ p result

namespace Gives

variable {α β : Type} {p : α → Prop} {q : β → Prop}

theorem pure {a : α} (h : p a) : Gives (pure a) p :=
  fun progress => ⟨a, progress, rfl, h⟩

theorem bind {step : Resolution α} {next : α → Resolution β} (hstep : Gives step p)
    (hnext : ∀ a, p a → Gives (next a) q) : Gives (step >>= next) q := by
  intro progress
  obtain ⟨a, middle, hrun, ha⟩ := hstep progress
  obtain ⟨b, last, hrun', hb⟩ := hnext a ha middle
  refine ⟨b, last, ?_, hb⟩
  rw [ExceptT.run_bind, StateT.run_bind, Id.run_bind, hrun]
  exact hrun'

theorem mono {p' : α → Prop} {step : Resolution α} (h : Gives step p) (himp : ∀ a, p a → p' a) :
    Gives step p' := by
  intro progress
  obtain ⟨a, last, hrun, ha⟩ := h progress
  exact ⟨a, last, hrun, himp a ha⟩

theorem reference (scope : Scope) (e : Expr) : Gives (scope.reference e) fun _ => True :=
  fun _ => ⟨_, _, rfl, trivial⟩

end Gives

/-- What an entry holds stands for a value: an object that was taken apart, or an object, a
function or another value as a whole. -/
inductive Scope.Held.Stands : Scope.Held → Value → Prop where
  | scalar {value : Value} (h : ∀ members, value ≠ .object members) : Stands (.scalar value) value
  | function {ref : DynamicRef} {value : Value} (h : value.isFunction = true) :
      Stands (.parts [.dynamic ref]) value
  | apart {body : Entries} {inner : List (String × Value)} (h : Reads body inner) :
      Stands (.block body) (.object (Ordered.putAll [] inner))
  | whole {members : List (String × Value)} : Stands (.block (.ofMembers members)) (.object members)

theorem Scope.Held.Stands.reads {held : Scope.Held} {value : Value} (h : held.Stands value)
    (key : String) (span : Span) {rest : Entries} {writes : List (String × Value)}
    (hrest : Reads rest writes) : Reads (held.entry key span rest) ((key, value) :: writes) := by
  cases h with
  | scalar h => exact .scalar h hrest
  | function h => exact .function h hrest
  | apart h => exact .apart h hrest
  | whole => exact .whole hrest

/-- The entries read the writes of an object: to spread them is to spread its members. -/
def Writes (entries : Entries) (members : List (String × Value)) : Prop :=
  ∃ writes, Reads entries writes ∧
    ∀ written, Ordered.putAll written members = Ordered.putAll written writes

theorem writes_ofMembers (members : List (String × Value)) :
    Writes (.ofMembers members) members :=
  ⟨members, .ofMembers members, fun _ => rfl⟩

/-- The members that a value adds to an object that it is spread into. -/
def Value.spread? : Value → Option (List (String × Value))
  | .object members => some members
  | .undefined | .null => some []
  | _ => none

theorem bind_eq_ok {ε α β : Type} {x : Except ε α} {f : α → Except ε β} {b : β}
    (h : x >>= f = .ok b) : ∃ a, x = .ok a ∧ f a = .ok b := by
  cases x with
  | error e => cases h
  | ok a => exact ⟨a, rfl, h⟩

namespace Scope

variable {scope : Scope}

/-- The level below that of the site, on which its names are followed. -/
def below (scope : Scope) : Level :=
  Evaluation.level scope.env Evaluation.maxDepth

/-- The members of an object of the site, written after others. -/
def writeMembers (scope : Scope) (written : Ordered Value) (members : List Member) :
    Except Obstacle (Ordered Value) :=
  Evaluation.evalMembers scope.env scope.below (Frame.top scope.unit) written members

/-! ### Evaluation of members -/

theorem writeMembers_of_evaluate {span : Span} {members : List Member} {value : Value}
    (h : scope.evaluate (.object span members) = .ok value) :
    ∃ values, scope.writeMembers [] members = .ok values ∧ value = .object values := by
  obtain ⟨values, hvalues, hvalue⟩ := bind_eq_ok h
  exact ⟨values, hvalues, (Except.ok.inj hvalue).symm⟩

section

variable {written values : Ordered Value} {rest : List Member}

theorem writeMembers_named {key : String} {e : Expr}
    (h : scope.writeMembers written (.named key e :: rest) = .ok values) :
    ∃ value, scope.evaluate e = .ok value ∧
      scope.writeMembers (written.put key value) rest = .ok values :=
  bind_eq_ok h

theorem writeMembers_computed {key e : Expr}
    (h : scope.writeMembers written (.computed key e :: rest) = .ok values) :
    ∃ keyValue text value, scope.evaluate key = .ok keyValue ∧ keyValue.key? = some text ∧
      scope.evaluate e = .ok value ∧
      scope.writeMembers (written.put text value) rest = .ok values := by
  obtain ⟨keyValue, hkey, h⟩ := bind_eq_ok h
  cases htext : keyValue.key? with
  | none =>
    rw [htext] at h
    cases h
  | some text =>
    rw [htext] at h
    obtain ⟨value, hvalue, h⟩ := bind_eq_ok h
    exact ⟨keyValue, text, value, hkey, htext, hvalue, h⟩

theorem writeMembers_shorthand {name : String}
    (h : scope.writeMembers written (.shorthand name :: rest) = .ok values) :
    ∃ value, scope.evaluate (.ident Span.none name) = .ok value ∧
      scope.writeMembers (written.put name value) rest = .ok values :=
  bind_eq_ok h

theorem writeMembers_spread {e : Expr}
    (h : scope.writeMembers written (.spread e :: rest) = .ok values) :
    ∃ value added, scope.evaluate e = .ok value ∧ value.spread? = some added ∧
      scope.writeMembers (written.putAll added) rest = .ok values := by
  obtain ⟨value, hvalue, h⟩ := bind_eq_ok h
  cases value with
  | object members => exact ⟨_, members, hvalue, rfl, h⟩
  | undefined => exact ⟨_, [], hvalue, rfl, h⟩
  | null => exact ⟨_, [], hvalue, rfl, h⟩
  | _ => cases h

end

/-! ### Leaves -/

theorem gives_evaluatedValue {e : Expr} {value : Value} (h : scope.evaluate e = .ok value) :
    Gives (scope.evaluatedValue e) (Held.Stands · value) := by
  unfold evaluatedValue
  rw [h]
  cases value with
  | object members => exact .pure .whole
  | function params body unit locals =>
    refine (Gives.reference scope e).bind ?_
    intro ref _
    exact .pure (.function rfl)
  | _ => exact .pure (.scalar nofun)

theorem gives_evaluatedSpread {e : Expr} {value : Value} {added : List (String × Value)}
    (h : scope.evaluate e = .ok value) (hadded : value.spread? = some added) :
    Gives (scope.evaluatedSpread e) (Writes · added) := by
  unfold evaluatedSpread
  rw [h]
  cases value with
  | object members =>
    cases hadded
    exact .pure (writes_ofMembers _)
  | undefined =>
    cases hadded
    exact .pure ⟨[], .nil, fun _ => rfl⟩
  | null =>
    cases hadded
    exact .pure ⟨[], .nil, fun _ => rfl⟩
  | _ => cases hadded

theorem gives_computedKey {key : Expr} {value : Value} {text : String}
    (h : scope.evaluate key = .ok value) (htext : value.key? = some text) (span : Span) :
    Gives (scope.computedKey key span) (· = text) := by
  unfold computedKey
  simp only [h, htext]
  exact .pure rfl

/-- A template whose text is known has no part but this text. -/
theorem templateParts_eq {pieces : List String} {holes : List Expr} {text : String}
    (h : Evaluation.evalTemplate scope.env scope.below (Frame.top scope.unit) pieces holes =
      .ok text) (parts : List ValuePart) (lead : String) :
    scope.templateParts parts lead pieces holes = pure (parts, lead ++ text) := by
  induction pieces generalizing holes text lead with
  | nil =>
    have htext : text = "" := by
      cases holes with
      | nil => exact (Except.ok.inj h).symm
      | cons hole holes => exact (Except.ok.inj h).symm
    rw [templateParts, htext, String.append_empty]
  | cons piece pieces ih =>
    cases holes with
    | nil =>
      have htext : text = piece ++ String.join pieces :=
        (Except.ok.inj h).symm.trans String.join_cons
      rw [templateParts, ih rfl, htext, String.append_assoc]
    | cons hole holes =>
      obtain ⟨value, hvalue, h⟩ := bind_eq_ok h
      cases hinner : value.text? with
      | none =>
        rw [hinner] at h
        cases h
      | some inner =>
        rw [hinner] at h
        obtain ⟨rest, hrest, h⟩ := bind_eq_ok h
        have hhole : scope.evaluate hole = .ok value := hvalue
        simp only [templateParts, hhole, hinner]
        rw [ih hrest, ← Except.ok.inj h, String.append_assoc, String.append_assoc,
          String.append_assoc]

theorem gives_templateValue {span : Span} {pieces : List String} {holes : List Expr} {value : Value}
    (h : scope.evaluate (.template span pieces holes) = .ok value) :
    Gives (scope.templateValue pieces holes) (Held.Stands · value) := by
  obtain ⟨text, htext, hvalue⟩ := bind_eq_ok h
  unfold templateValue
  rw [templateParts_eq htext, ← Except.ok.inj hvalue, String.empty_append]
  exact .pure (.scalar nofun)

/-! ### Objects -/

section

variable (scope : Scope) (locals : LocalStyles)

/-- Members that can be taken apart wherever they have values, into the writes of these. -/
def TakesApart (members : List Member) : Prop :=
  ∀ written values, scope.writeMembers written members = .ok values →
    Gives (scope.entries locals members) fun entries =>
      ∃ writes, Reads entries writes ∧ values = written.putAll writes

/-- An expression whose entries, where it is spread, are the members of its value. -/
def TakesSpread (e : Expr) : Prop :=
  ∀ value added, scope.evaluate e = .ok value → value.spread? = some added →
    Gives (scope.spread locals e) (Writes · added)

/-- An expression that stands for its value in an entry. -/
def TakesValue (e : Expr) : Prop :=
  ∀ value, scope.evaluate e = .ok value → Gives (scope.value locals e) (Held.Stands · value)

/-- The styles of local names are those of their values. -/
def Follows : Prop :=
  ∀ name span step value added, locals.entries name = some step →
    scope.evaluate (.ident span name) = .ok value → value.spread? = some added →
    Gives step (Writes · added)

end

variable {locals : LocalStyles}

theorem takesValue_object {members : List Member} (h : scope.TakesApart locals members)
    (span : Span) : scope.TakesValue locals (.object span members) := by
  intro value hvalue
  obtain ⟨values, hvalues, rfl⟩ := writeMembers_of_evaluate hvalue
  rw [Scope.value]
  refine (h [] values hvalues).bind ?_
  rintro entries ⟨writes, hreads, rfl⟩
  exact .pure (.apart hreads)

theorem takesSpread_object {members : List Member} (h : scope.TakesApart locals members)
    (span : Span) : scope.TakesSpread locals (.object span members) := by
  intro value added hvalue hadded
  obtain ⟨values, hvalues, rfl⟩ := writeMembers_of_evaluate hvalue
  cases hadded
  rw [Scope.spread]
  refine (h [] _ hvalues).mono ?_
  rintro entries ⟨writes, hreads, rfl⟩
  exact ⟨writes, hreads, fun written => Ordered.putAll_putAll written writes⟩

theorem takesSpread_ident (h : scope.Follows locals) (span : Span) (name : String) :
    scope.TakesSpread locals (.ident span name) := by
  intro value added hvalue hadded
  rw [Scope.spread]
  cases hstep : locals.entries name with
  | none => exact gives_evaluatedSpread hvalue hadded
  | some step => exact h name span step value added hstep hvalue hadded

/-- An entry of the result: its write, and then those of the entries after it. -/
theorem gives_entry {held : Held} {value : Value} (hheld : held.Stands value) (key : String)
    (span : Span) {rest : List Member} (hrest : scope.TakesApart locals rest)
    {written values : Ordered Value}
    (hvalues : scope.writeMembers (written.put key value) rest = .ok values) :
    Gives (do return held.entry key span (← scope.entries locals rest)) fun entries =>
      ∃ writes, Reads entries writes ∧ values = written.putAll writes := by
  refine (hrest _ _ hvalues).bind ?_
  rintro entries ⟨writes, hreads, rfl⟩
  exact .pure ⟨(key, value) :: writes, hheld.reads key span hreads, rfl⟩

section

variable {e : Expr} {rest : List Member}

theorem takesApart_named (he : scope.TakesValue locals e) (hrest : scope.TakesApart locals rest)
    (key : String) : scope.TakesApart locals (.named key e :: rest) := by
  intro written values h
  obtain ⟨value, hvalue, h⟩ := writeMembers_named h
  rw [Scope.entries]
  refine (he value hvalue).bind ?_
  intro held hheld
  exact gives_entry hheld key e.span hrest h

theorem takesApart_computed (he : scope.TakesValue locals e)
    (hrest : scope.TakesApart locals rest) (key : Expr) :
    scope.TakesApart locals (.computed key e :: rest) := by
  intro written values h
  obtain ⟨keyValue, text, value, hkey, htext, hvalue, h⟩ := writeMembers_computed h
  rw [Scope.entries]
  refine (gives_computedKey hkey htext e.span).bind ?_
  rintro _ rfl
  refine (he value hvalue).bind ?_
  intro held hheld
  exact gives_entry hheld _ e.span hrest h

theorem takesApart_shorthand (hrest : scope.TakesApart locals rest) (name : String) :
    scope.TakesApart locals (.shorthand name :: rest) := by
  intro written values h
  obtain ⟨value, hvalue, h⟩ := writeMembers_shorthand h
  rw [Scope.entries]
  refine (gives_evaluatedValue hvalue).bind ?_
  intro held hheld
  exact gives_entry hheld name Span.none hrest h

theorem takesApart_spread (he : scope.TakesSpread locals e)
    (hrest : scope.TakesApart locals rest) : scope.TakesApart locals (.spread e :: rest) := by
  intro written values h
  obtain ⟨value, added, hvalue, hadded, h⟩ := writeMembers_spread h
  rw [Scope.entries]
  refine (he value added hvalue hadded).bind ?_
  rintro first ⟨writes, hreads, heq⟩
  rw [heq] at h
  refine (hrest _ _ h).bind ?_
  rintro entries ⟨more, hmore, rfl⟩
  exact .pure ⟨writes ++ more, hreads.append hmore, List.foldl_append.symm⟩

end

theorem takesApart_of_follows (h : scope.Follows locals) (members : List Member) :
    scope.TakesApart locals members := by
  -- along the recursion of `entries`, `spread` and `value`
  refine Scope.entries.induct (scope.TakesApart locals) (scope.TakesSpread locals)
    (scope.TakesValue locals) ?_ ?_ ?_ ?_ ?_ ?_ ?_ ?_ ?_ ?_ ?_ members
  · intro span members ih
    exact takesSpread_object ih span
  · exact takesSpread_ident h
  · intro e hobject hident value added hvalue hadded
    rw [Scope.spread]
    · exact gives_evaluatedSpread hvalue hadded
    · exact hobject
    · exact hident
  · intro span members ih
    exact takesValue_object ih span
  · intro span pieces holes value hvalue
    rw [Scope.value]
    exact gives_templateValue hvalue
  · intro e hobject htemplate value hvalue
    rw [Scope.value]
    · exact gives_evaluatedValue hvalue
    · exact hobject
    · exact htemplate
  · intro written values h
    rw [Scope.entries]
    exact .pure ⟨[], .nil, (Except.ok.inj h).symm⟩
  · intro key e rest he hrest
    exact takesApart_named he hrest key
  · intro key e rest he hrest
    exact takesApart_computed he hrest key
  · intro name rest hrest
    exact takesApart_shorthand hrest name
  · intro e rest he hrest
    exact takesApart_spread he hrest

/-- Objects that local names are bound to have their values also on the level of the site.  To
follow a name takes a level, and what is forwarded from a module may depend on how many are left. -/
def Settled (scope : Scope) : Prop :=
  ∀ name span members value, scope.unit.bindings.get? name = some (.object span members) →
    scope.below.eval (Frame.top scope.unit) (.object span members) = .ok value →
    scope.evaluate (.object span members) = .ok value

/-- A name of the unit is evaluated on the level below. -/
theorem evaluate_ident {name : String} {init : Expr}
    (h : scope.unit.bindings.get? name = some init) (span : Span) :
    scope.evaluate (.ident span name) = scope.below.eval (Frame.top scope.unit) init := by
  change Evaluation.name scope.env scope.below (Frame.top scope.unit) name = _
  simp only [Evaluation.name, Frame.top, Ordered.get?_nil, h]

theorem follows_locals (hsettled : scope.Settled) (n : Nat) : scope.Follows (scope.locals n) := by
  induction n with
  | zero =>
    intro name span step value added hstep
    cases hstep
  | succ n ih =>
    intro name span step value added hstep hvalue hadded
    simp only [locals] at hstep
    split at hstep
    · next objectSpan members hbinding =>
      cases hstep
      rw [evaluate_ident hbinding] at hvalue
      have hsite := hsettled name objectSpan members value hbinding hvalue
      have hspread := takesSpread_object (takesApart_of_follows ih members) objectSpan
        value added hsite hadded
      rw [Scope.spread] at hspread
      exact hspread
    · cases hstep

end Scope

/-! ## Objects of texts -/

/-- The literal of a text or an absent value. -/
def Expr.ofText? : Option String → Expr
  | some text => .str Span.none text
  | none => .null Span.none

/-- An object with a text or an absent value under every key. -/
def Member.ofTexts (texts : List (String × Option String)) : List Member :=
  texts.map fun entry => .named entry.1 (.ofText? entry.2)

namespace Scope

theorem writeMembers_ofTexts (scope : Scope) (texts : List (String × Option String))
    (written : Ordered Value) :
    scope.writeMembers written (Member.ofTexts texts) =
      .ok (written.putAll (Value.ofTexts texts)) := by
  induction texts generalizing written with
  | nil => rfl
  | cons entry rest ih =>
    obtain ⟨key, _ | text⟩ := entry
    · exact ih (written.put key .null)
    · exact ih (written.put key (.str text))

theorem value_ofText? (scope : Scope) (locals : LocalStyles) (text? : Option String) :
    scope.value locals (.ofText? text?) = pure (.scalar (.ofText? text?)) := by
  cases text? with
  | none =>
    rw [Expr.ofText?, Scope.value]
    · rfl
    · exact fun _ _ h => by cases h
    · exact fun _ _ _ h => by cases h
  | some text =>
    rw [Expr.ofText?, Scope.value]
    · rfl
    · exact fun _ _ h => by cases h
    · exact fun _ _ _ h => by cases h

/-- Members that are texts leave the entries of their writes, one for each. -/
theorem entries_ofTexts (scope : Scope) (locals : LocalStyles)
    (texts : List (String × Option String)) :
    scope.entries locals (Member.ofTexts texts) =
      pure (Entries.ofMembers (Value.ofTexts texts)) := by
  induction texts with
  | nil =>
    rw [Value.ofTexts, List.map_nil, Entries.ofMembers]
    rfl
  | cons entry rest ih =>
    have hmembers : Member.ofTexts (entry :: rest) =
        .named entry.1 (.ofText? entry.2) :: Member.ofTexts rest := rfl
    have hvalues : Value.ofTexts (entry :: rest) =
        (entry.1, .ofText? entry.2) :: Value.ofTexts rest := rfl
    have hspan : (Expr.ofText? entry.2).span = Span.none := by
      cases entry.2 <;> rfl
    rw [hmembers, hvalues, Scope.entries, value_ofText?, pure_bind, ih, pure_bind, hspan,
      Entries.ofMembers_of_not_object (Value.ofText?_ne_object entry.2)]
    rfl

/-! ### The two readings -/

variable {scope : Scope}

theorem sameStyles_of_settled (hsettled : scope.Settled) (depth : Nat) {span : Span}
    {members : List Member} {values : List (String × Value)}
    (hvalue : scope.evaluate (.object span members) = .ok (.object values))
    (hfree : functionFree values = true) :
    Gives (scope.entries (scope.locals depth) members) fun entries =>
      entries.Distinct → SameStyles entries.toBlock (Entries.ofMembers values).toBlock := by
  obtain ⟨_, hvalues, heq⟩ := writeMembers_of_evaluate hvalue
  obtain rfl := Value.object.inj heq
  refine (takesApart_of_follows (follows_locals hsettled depth) members [] _ hvalues).mono ?_
  rintro entries ⟨writes, hreads, rfl⟩ hdistinct
  exact hreads.sameStyles hdistinct hfree

/-- An object has a value, and the entries that it is taken apart into give the styles of that
value. -/
def ReadsAlike (scope : Scope) (depth : Nat) (members : List Member) : Prop :=
  ∃ values, (∀ span, scope.evaluate (.object span members) = .ok (.object values)) ∧
    Gives (scope.entries (scope.locals depth) members) fun entries =>
      SameStyles entries.toBlock (Entries.ofMembers values).toBlock

theorem ReadsAlike.sameStyles {depth : Nat} {members : List Member}
    (h : scope.ReadsAlike depth members) {values : List (String × Value)} {entries : Entries}
    (hvalue : scope.evaluate (.object Span.none members) = .ok (.object values))
    (hrun : ((scope.entries (scope.locals depth) members).run.run {}).run.1 = .ok entries) :
    SameStyles entries.toBlock (Entries.ofMembers values).toBlock := by
  obtain ⟨values', hvalues, hgives⟩ := h
  obtain rfl := Value.object.inj (Except.ok.inj ((hvalues Span.none).symm.trans hvalue))
  obtain ⟨entries', _, hrun', hsame⟩ := hgives {}
  rw [hrun'] at hrun
  obtain rfl := Except.ok.inj hrun
  exact hsame

theorem readsAlike_ofTexts_iff (scope : Scope) (depth : Nat)
    (texts : List (String × Option String)) :
    scope.ReadsAlike depth (Member.ofTexts texts) ↔
      SameStyles (Entries.ofMembers (Value.ofTexts texts)).toBlock
        (Entries.ofMembers (Ordered.putAll [] (Value.ofTexts texts))).toBlock := by
  have hevaluate (span : Span) : scope.evaluate (.object span (Member.ofTexts texts)) =
      .ok (.object (Ordered.putAll [] (Value.ofTexts texts))) := by
    have hobject : scope.evaluate (.object span (Member.ofTexts texts)) =
        scope.writeMembers [] (Member.ofTexts texts) >>= fun values => .ok (.object values) := rfl
    rw [hobject, writeMembers_ofTexts]
    rfl
  constructor
  · intro h
    refine h.sameStyles (hevaluate Span.none) ?_
    rw [entries_ofTexts]
    rfl
  · intro hsame
    refine ⟨_, hevaluate, ?_⟩
    rw [entries_ofTexts]
    exact .pure hsame

theorem not_readsAlike_overwritten (scope : Scope) (depth : Nat) {before after : List String}
    {key : String}
    (hkeys : ∀ name ∈ before ++ key :: after, Entries.needsBlock (trimmed name) = false)
    (h : key ∈ after) :
    ¬ scope.ReadsAlike depth (Member.ofTexts (overwritten before key after)) := by
  rw [readsAlike_ofTexts_iff, toBlock_overwritten hkeys, toBlock_evaluated_overwritten hkeys h]
  intro hsame
  have hvalue := hsame "" (Context.of [] "&", Css.propertyName (trimmed key))
  rw [declared?_inherit] at hvalue
  cases hvalue

theorem readsAlike_of_nodup (scope : Scope) (depth : Nat) {texts : List (String × Option String)}
    (h : (texts.map Prod.fst).Nodup) : scope.ReadsAlike depth (Member.ofTexts texts) := by
  have hkeys : (([] ++ Value.ofTexts texts).map Prod.fst).Nodup := by
    rw [List.nil_append, Value.ofTexts, List.map_map]
    exact h
  rw [readsAlike_ofTexts_iff, Ordered.putAll_of_nodup hkeys]
  exact sameStyles_of_toOption_eq rfl

/-- The two readings of an object without functions come to the same where no key is written twice:
taking the object apart succeeds, and it gives the styles of the value.  Objects of texts do so for
all texts only if their keys are distinct. -/
theorem readings_agree (scope : Scope) (depth : Nat) :
    (scope.Settled → ∀ span members values,
      scope.evaluate (.object span members) = .ok (.object values) → functionFree values = true →
      Gives (scope.entries (scope.locals depth) members) fun entries =>
        entries.Distinct → SameStyles entries.toBlock (Entries.ofMembers values).toBlock) ∧
    ∀ keys : List String, (∀ key ∈ keys, Entries.needsBlock (trimmed key) = false) →
      ((∀ texts, texts.map Prod.fst = keys → scope.ReadsAlike depth (Member.ofTexts texts)) ↔
        keys.Nodup) := by
  refine ⟨fun hsettled span members values => sameStyles_of_settled hsettled depth, ?_⟩
  intro keys hkeys
  constructor
  · intro hall
    rw [List.nodup_iff_sublist]
    intro key hsub
    obtain ⟨first, second, rfl, hfirst, hsecond⟩ := List.cons_sublist_iff.mp hsub
    obtain ⟨before, between, rfl⟩ := List.append_of_mem hfirst
    have hkey : key ∈ between ++ second :=
      List.mem_append_right _ (List.singleton_sublist.mp hsecond)
    rw [List.append_assoc, List.cons_append] at hkeys hall
    exact not_readsAlike_overwritten scope depth hkeys hkey (hall _ map_fst_overwritten)
  · rintro hnodup texts rfl
    exact readsAlike_of_nodup scope depth hnodup

/-- A unit that binds a name to an object. -/
def withBase (members : List Member) : Scope where
  env := ⟨Resolver.none, Helpers.none⟩
  unit := { path := "site", bindings := [("base", .object Span.none members)] }

/-- The members of an object with a nested one. -/
def hoverMembers : List Member :=
  [.named "color" (.str Span.none "red"),
    .named ":hover" (.object Span.none [.named "color" (.str Span.none "blue")])]

theorem settled_withBase : (withBase hoverMembers).Settled := by
  intro name span members value hbinding hvalue
  by_cases hname : name = "base"
  · subst hname
    obtain ⟨rfl, rfl⟩ := Expr.object.inj (Option.some.inj hbinding)
    have hbelow : (withBase hoverMembers).below.eval (Frame.top (withBase hoverMembers).unit)
        (.object Span.none hoverMembers) =
        .ok (.object [("color", .str "red"), (":hover", .object [("color", .str "blue")])]) := rfl
    rw [hbelow] at hvalue
    rw [← hvalue]
    rfl
  · rw [withBase, Ordered.get?_cons, if_neg hname] at hbinding
    cases hbinding

/-- The local object is spread before another property. -/
theorem readings_agree_withBase :
    let scope := withBase hoverMembers
    let members : List Member :=
      [.spread (.ident Span.none "base"), .named "margin" (.str Span.none "0")]
    let values : List (String × Value) :=
      [("color", .str "red"), (":hover", .object [("color", .str "blue")]), ("margin", .str "0")]
    (scope.Settled ∧ scope.evaluate (.object Span.none members) = .ok (.object values) ∧
      functionFree values = true ∧
      Gives (scope.entries (scope.locals 16) members) fun entries =>
        entries.Distinct ∧ SameStyles entries.toBlock (Entries.ofMembers values).toBlock) ∧
    (∀ key ∈ ["color", "margin"], Entries.needsBlock (trimmed key) = false) ∧
      ∀ texts, texts.map Prod.fst = ["color", "margin"] →
        scope.ReadsAlike 16 (Member.ofTexts texts) := by
  intro scope members values
  have hvalue : scope.evaluate (.object Span.none members) = .ok (.object values) := rfl
  have hfree : functionFree values = true := by
    simp [values, functionFree, Value.isFunction]
  have hkeys : ∀ key ∈ ["color", "margin"], Entries.needsBlock (trimmed key) = false := by decide
  refine ⟨⟨settled_withBase, hvalue, hfree, ?_⟩, hkeys,
    ((readings_agree scope 16).2 _ hkeys).mpr (by decide)⟩
  intro progress
  obtain ⟨entries, last, hrun, hsame⟩ :=
    (readings_agree scope 16).1 settled_withBase Span.none members values hvalue hfree progress
  have hentries : ((scope.entries (scope.locals 16) members).run.run progress).run =
      (.ok (.scalar "color" Span.none (.str "red") (.block ":hover" Span.none
        (.scalar "color" Span.none (.str "blue") .nil)
        (.scalar "margin" Span.none (.str "0") .nil))), progress) := rfl
  have hdistinct : entries.Distinct := by
    rw [hentries] at hrun
    obtain rfl := Except.ok.inj (Prod.mk.inj hrun).1
    decide
  exact ⟨entries, last, hrun, hdistinct, hsame hdistinct⟩

/-- A unit with a local object whose color is imported from a module that forwards two others.  In
the first of these the name stands for a second name, and so on, `length` times. -/
def ofChain (length : Nat) : Scope :=
  let name (i : Nat) := String.ofList (List.replicate (i + 1) 'x')
  let first : SourceUnit :=
    { path := "first"
      bindings := (List.range length).map (fun i => (name i, .ident Span.none (name (i + 1)))) ++
        [(name length, .str Span.none "red")]
      exports := [.binding "x" "x"] }
  let second : SourceUnit :=
    { path := "second", bindings := [("x", .str Span.none "blue")], exports := [.binding "x" "x"] }
  let both : SourceUnit := { path := "both", exports := [.all "first", .all "second"] }
  let resolve : Resolver := fun _ source =>
    [first, second, both].find? fun unit => unit.path == source
  { env := ⟨resolve, Helpers.none⟩
    unit :=
      { path := "site", imports := [⟨"x", .named "x", "both"⟩]
        bindings := [("base", .object Span.none [.named "color" (.ident Span.none "x")])] } }

/-- The readings differ where a key is written twice, as in `{color: "inherit", color: null}`, and
where a forwarded module is out of reach for evaluation, but not for an object that is taken
apart. -/
theorem readings_differ :
    ¬ (withBase []).ReadsAlike 16
        (Member.ofTexts [("color", some "inherit"), ("color", none)]) ∧
      ¬ (ofChain 12).ReadsAlike 16 [.spread (.ident Span.none "base")] := by
  constructor
  · have hkeys : ∀ name ∈ [] ++ "color" :: ["color"],
        Entries.needsBlock (trimmed name) = false := by decide
    exact not_readsAlike_overwritten _ 16 hkeys List.mem_cons_self
  · intro h
    have hvalue : (ofChain 12).evaluate (.object Span.none [.spread (.ident Span.none "base")]) =
        .ok (.object [("color", .str "blue")]) := rfl
    have hrun : (((ofChain 12).entries ((ofChain 12).locals 16)
        [.spread (.ident Span.none "base")]).run.run {}).run.1 =
        .ok (.scalar "color" Span.none (.str "red") .nil) := rfl
    have hsame := h.sameStyles hvalue hrun
    have hobject : ∀ members, Value.str "blue" ≠ .object members := nofun
    rw [Entries.ofMembers_of_not_object hobject, Entries.ofMembers] at hsame
    have hblocks := hsame "" (Context.of [] "&", "color")
    revert hblocks
    decide +kernel

end Scope

end AtomicStyle

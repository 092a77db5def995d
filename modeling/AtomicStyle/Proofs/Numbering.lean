import AtomicStyle.Proofs.Reading
import AtomicStyle.Proofs.Reassembly

/-!
# The numbers of references

Resolution numbers the run-time expressions of a site as it meets them.  Each step of it takes some
numbers and keeps the references that have them, in the order in which they stand in its result; so
the references of the whole input have the numbers from the first free one on, without a gap.

In CSS text a reference is written as a marker with its place in the list of references of that text.
Which texts an expression gives is said without resolution (`Scope.SiteCss`): a template gives its
pieces, with the texts of the constants in it and a marker for each run-time expression
(`Scope.TemplateCss`).

Results:
1. `numbered_templateValue`, `gainsCss_cssText`: templates as values and as CSS text.
2. `numbered_entries`: objects.
3. `resolves_input`, `resolves_locals`: expressions, under the styles of local names.
4. `resolve_numbered`: the references and the CSS texts of an input.
-/

namespace AtomicStyle

/-! ## References of an input -/

/-- The references in the entries of an object, in source order. -/
def Entries.refs : Entries → List DynamicRef
  | nil => []
  | scalar _ _ _ rest => rest.refs
  | parts _ _ value rest => value.filterMap ValuePart.ref? ++ rest.refs
  | block _ _ body rest => body.refs ++ rest.refs

theorem Entries.refs_append (first second : Entries) :
    (first ++ second).refs = first.refs ++ second.refs := by
  induction first with
  | nil => rfl
  | scalar key span value rest ih => exact ih
  | parts key span value rest ih => exact (congrArg (_ ++ ·) ih).trans (List.append_assoc ..).symm
  | block key span body rest _ ih => exact (congrArg (_ ++ ·) ih).trans (List.append_assoc ..).symm

/-- A constant object has no references. -/
theorem Entries.refs_ofMembers (members : List (String × Value)) : (ofMembers members).refs = [] := by
  fun_induction ofMembers members with
  | case1 => rfl
  | case2 key members rest ihMembers ihRest => rw [refs, ihMembers, ihRest, List.append_nil]
  | case3 key value rest _ ih => rw [refs, ih]

/-- The references of what an entry holds. -/
def Scope.Held.refs : Scope.Held → List DynamicRef
  | scalar _ => []
  | parts value => value.filterMap ValuePart.ref?
  | block body => body.refs

theorem Scope.Held.refs_entry (held : Scope.Held) (key : String) (span : Span) (rest : Entries) :
    (held.entry key span rest).refs = held.refs ++ rest.refs := by
  cases held <;> rfl

namespace StyleInput

mutual

/-- The references of an input in source order. -/
def refs : StyleInput → List DynamicRef
  | object entries => entries.refs
  | css _ refs _ => refs
  | list items => refsOf items
  | guarded _ body => body.refs
  | branch _ yes no => yes.refs ++ no.refs
  | passthrough _ => []

def refsOf : List StyleInput → List DynamicRef
  | [] => []
  | item :: rest => item.refs ++ refsOf rest

end

mutual

/-- The CSS texts of an input, each with its references. -/
def cssTexts : StyleInput → List (String × List DynamicRef)
  | css text refs _ => [(text, refs)]
  | list items => cssTextsOf items
  | guarded _ body => body.cssTexts
  | branch _ yes no => yes.cssTexts ++ no.cssTexts
  | object _ | passthrough _ => []

def cssTextsOf : List StyleInput → List (String × List DynamicRef)
  | [] => []
  | item :: rest => item.cssTexts ++ cssTextsOf rest

end

end StyleInput

/-! ## The CSS texts that an expression gives -/

/-- The text that a constant adds to CSS text, if it can stand there. -/
def Value.spliced? : Value → Option String
  | .object members => (Entries.cssText members).toOption
  | value => if Scope.isAbsent value then some "" else value.text?

/-- The texts that a constant is or holds as an array. -/
inductive Value.HasText : Value → String → Prop
  | str {text : String} : HasText (.str text) text
  | item {items : List Value} {value : Value} {text : String} (hmem : value ∈ items)
      (h : HasText value text) : HasText (.array items) text

namespace Scope

/-- Whether an expression is left for run time: it has no value, or a function. -/
def isRunTime (scope : Scope) (e : Expr) : Bool :=
  match scope.evaluate e with
  | .ok value => value.isFunction
  | .error _ => true

/-- What the rest of a template adds to CSS text in which some markers stand already: the text, and
the references of the markers in it.  The next marker has the number of those before it. -/
inductive TemplateCss (scope : Scope) :
    Nat → List String → List Expr → String → List DynamicRef → Prop
  | done {index : Nat} {holes : List Expr} : TemplateCss scope index [] holes "" []
  | piece {index : Nat} {piece : String} {pieces : List String} {text : String}
      {refs : List DynamicRef} (h : TemplateCss scope index pieces [] text refs) :
      TemplateCss scope index (piece :: pieces) [] (piece ++ text) refs
  | constant {index : Nat} {piece : String} {pieces : List String} {hole : Expr} {holes : List Expr}
      {value : Value} {inner text : String} {refs : List DynamicRef}
      (hvalue : scope.evaluate hole = .ok value) (hinner : value.spliced? = some inner)
      (h : TemplateCss scope index pieces holes text refs) :
      TemplateCss scope index (piece :: pieces) (hole :: holes) (piece ++ (inner ++ text)) refs
  | marker {index : Nat} {piece : String} {pieces : List String} {hole : Expr} {holes : List Expr}
      {slot : Nat} {text : String} {refs : List DynamicRef} (hhole : scope.isRunTime hole = true)
      (h : TemplateCss scope (index + 1) pieces holes text refs) :
      TemplateCss scope index (piece :: pieces) (hole :: holes)
        (piece ++ (CssText.marker index ++ text)) (⟨SourceRef.of scope.unit hole, slot⟩ :: refs)

/-- A CSS text that an expression gives, with its references: a template's own, or one of a constant,
in the places where resolution looks for styles. -/
inductive SiteCss (scope : Scope) : Expr → String → List DynamicRef → Prop
  | template {span : Span} {pieces : List String} {holes : List Expr} {text : String}
      {refs : List DynamicRef} (h : scope.TemplateCss 0 pieces holes text refs) :
      SiteCss scope (.template span pieces holes) text refs
  | constant {e : Expr} {value : Value} {text : String} (hvalue : scope.evaluate e = .ok value)
      (h : value.HasText text) : SiteCss scope e text []
  | item {span : Span} {items : List Expr} {e : Expr} {text : String} {refs : List DynamicRef}
      (hmem : e ∈ items) (h : SiteCss scope e text refs) : SiteCss scope (.array span items) text refs
  | yes {span : Span} {test yes no : Expr} {text : String} {refs : List DynamicRef}
      (h : SiteCss scope yes text refs) : SiteCss scope (.conditional span test yes no) text refs
  | no {span : Span} {test yes no : Expr} {text : String} {refs : List DynamicRef}
      (h : SiteCss scope no text refs) : SiteCss scope (.conditional span test yes no) text refs
  | guarded {span : Span} {left right : Expr} {text : String} {refs : List DynamicRef}
      (h : SiteCss scope right text refs) : SiteCss scope (.logical span .and left right) text refs
  | bound {span : Span} {name : String} {init : Expr} {text : String} {refs : List DynamicRef}
      (hinit : scope.unit.bindings.get? name = some init) (h : SiteCss scope init text refs) :
      SiteCss scope (.ident span name) text refs

end Scope

/-! ## Numbers in a row -/

/-- References with the numbers from `first` on, of which `next` is the first that is left. -/
structure Numbered (first : Nat) (refs : List DynamicRef) (next : Nat) : Prop where
  slots_eq : refs.map DynamicRef.slot = List.range' first refs.length
  next_eq : next = first + refs.length

namespace Numbered

theorem nil (first : Nat) : Numbered first [] first :=
  ⟨rfl, rfl⟩

theorem single (source : SourceRef) (first : Nat) : Numbered first [⟨source, first⟩] (first + 1) :=
  ⟨rfl, rfl⟩

theorem append {first middle next : Nat} {refs more : List DynamicRef}
    (h : Numbered first refs middle) (h' : Numbered middle more next) :
    Numbered first (refs ++ more) next := by
  constructor
  · rw [List.map_append, h.slots_eq, h'.slots_eq, h.next_eq, List.range'_append_1,
      List.length_append]
  · rw [h'.next_eq, h.next_eq, List.length_append, Nat.add_assoc]

end Numbered

/-! ## Steps that succeed -/

/-- A step of resolution succeeds from what was gathered before, with a result and what is gathered
then. -/
def Succeeds {α : Type} (step : Resolution α) (progress : Progress) (result : α)
    (last : Progress) : Prop :=
  (step.run.run progress).run = (.ok result, last)

namespace Succeeds

variable {α β : Type} {progress last : Progress}

theorem of_pure {a result : α} (h : Succeeds (pure a) progress result last) :
    result = a ∧ last = progress := by
  cases h
  exact ⟨rfl, rfl⟩

theorem of_bind {step : Resolution α} {next : α → Resolution β} {result : β}
    (h : Succeeds (step >>= next) progress result last) :
    ∃ a middle, Succeeds step progress a middle ∧ Succeeds (next a) middle result last := by
  unfold Succeeds at h
  rw [ExceptT.run_bind, StateT.run_bind, Id.run_bind] at h
  cases hrun : (step.run.run progress).run with
  | mk outcome middle =>
    rw [hrun] at h
    cases outcome with
    | ok a => exact ⟨a, middle, hrun, h⟩
    | error fault => cases h

theorem of_ofExcept {outcome : Except CompileError α} {result : α}
    (h : Succeeds (MonadExcept.ofExcept outcome) progress result last) :
    outcome = .ok result ∧ last = progress := by
  cases outcome with
  | ok a =>
    cases h
    exact ⟨rfl, rfl⟩
  | error fault => cases h

theorem not_refuse {fault : StyleFault} {span : Span} {result : α} :
    ¬ Succeeds (Scope.refuse fault span) progress result last := by
  intro h
  cases h

theorem of_reference {scope : Scope} {e : Expr} {ref : DynamicRef}
    (h : Succeeds (scope.reference e) progress ref last) :
    ref = ⟨SourceRef.of scope.unit e, progress.nextSlot⟩ ∧
      last.nextSlot = progress.nextSlot + 1 := by
  cases h
  exact ⟨rfl, rfl⟩

/-- A note takes no number. -/
theorem of_note {obstacle : Obstacle} {span : Span} {result : Unit}
    (h : Succeeds (Scope.note obstacle span) progress result last) :
    last.nextSlot = progress.nextSlot := by
  cases obstacle with
  | unresolved specifier localName =>
    cases h
    dsimp only
    split <;> rfl
  | _ =>
    cases h
    rfl

/-- A step after a note. -/
theorem of_note_bind {obstacle : Obstacle} {span : Span} {step : Resolution α} {result : α}
    (h : Succeeds (do Scope.note obstacle span; step) progress result last) :
    ∃ middle, middle.nextSlot = progress.nextSlot ∧ Succeeds step middle result last := by
  obtain ⟨_, middle, hnote, hstep⟩ := of_bind h
  exact ⟨middle, of_note hnote, hstep⟩

end Succeeds

namespace Scope

variable {scope : Scope} {progress last : Progress}

/-! ## Values of entries -/

theorem numbered_reference {e : Expr} {ref : DynamicRef}
    (h : Succeeds (scope.reference e) progress ref last) :
    Numbered progress.nextSlot [ref] last.nextSlot := by
  obtain ⟨rfl, hnext⟩ := h.of_reference
  rw [hnext]
  exact .single _ _

/-- The references of a template value that come after the given parts. -/
theorem numbered_templateParts {parts : List ValuePart} {text : String} {pieces : List String}
    {holes : List Expr} {result : List ValuePart × String}
    (h : Succeeds (scope.templateParts parts text pieces holes) progress result last) :
    ∃ more, result.1.filterMap ValuePart.ref? = parts.filterMap ValuePart.ref? ++ more ∧
      Numbered progress.nextSlot more last.nextSlot := by
  induction pieces generalizing parts text holes progress with
  | nil =>
    rw [templateParts] at h
    obtain ⟨rfl, rfl⟩ := h.of_pure
    exact ⟨[], (List.append_nil _).symm, .nil _⟩
  | cons piece pieces ih =>
    cases holes with
    | nil =>
      rw [templateParts] at h
      exact ih h
    | cons hole holes =>
      simp only [templateParts] at h
      split at h
      · split at h
        · exact ih h
        · exact (Succeeds.not_refuse h).elim
      · obtain ⟨middle, hmiddle, h⟩ := h.of_note_bind
        obtain ⟨ref, middle', href, h⟩ := h.of_bind
        obtain ⟨more, hparts, hmore⟩ := ih h
        have hfirst := numbered_reference href
        rw [hmiddle] at hfirst
        have hlead :
            (if (text ++ piece).isEmpty then [] else [ValuePart.text (text ++ piece)]).filterMap
              ValuePart.ref? = [] := by
          split <;> rfl
        rw [List.filterMap_append, List.filterMap_append, hlead, List.append_nil,
          List.append_assoc] at hparts
        exact ⟨_, hparts, hfirst.append hmore⟩

theorem numbered_templateValue {pieces : List String} {holes : List Expr} {held : Held}
    (h : Succeeds (scope.templateValue pieces holes) progress held last) :
    Numbered progress.nextSlot held.refs last.nextSlot := by
  obtain ⟨⟨parts, text⟩, middle, hparts, h⟩ := h.of_bind
  obtain ⟨refs, hrefs, hnumbered⟩ := numbered_templateParts hparts
  obtain rfl : parts.filterMap ValuePart.ref? = refs := hrefs
  dsimp only at h
  split at h
  · next hempty =>
    obtain ⟨rfl, rfl⟩ := h.of_pure
    rw [List.isEmpty_iff.mp hempty] at hnumbered
    exact hnumbered
  · obtain ⟨rfl, rfl⟩ := h.of_pure
    rw [Held.refs]
    split
    · exact hnumbered
    · rw [List.filterMap_append]
      exact hnumbered.append (.nil _)

theorem numbered_evaluatedValue {e : Expr} {held : Held}
    (h : Succeeds (scope.evaluatedValue e) progress held last) :
    Numbered progress.nextSlot held.refs last.nextSlot := by
  unfold evaluatedValue at h
  split at h
  · obtain ⟨rfl, rfl⟩ := h.of_pure
    rw [Held.refs, Entries.refs_ofMembers]
    exact .nil _
  · split at h
    · obtain ⟨ref, middle, href, h⟩ := h.of_bind
      obtain ⟨rfl, rfl⟩ := h.of_pure
      exact numbered_reference href
    · obtain ⟨rfl, rfl⟩ := h.of_pure
      exact .nil _
  · obtain ⟨middle, hmiddle, h⟩ := h.of_note_bind
    obtain ⟨ref, middle', href, h⟩ := h.of_bind
    obtain ⟨rfl, rfl⟩ := h.of_pure
    rw [← hmiddle]
    exact numbered_reference href

theorem numbered_evaluatedSpread {e : Expr} {entries : Entries}
    (h : Succeeds (scope.evaluatedSpread e) progress entries last) :
    Numbered progress.nextSlot entries.refs last.nextSlot := by
  unfold evaluatedSpread at h
  split at h
  · obtain ⟨rfl, rfl⟩ := h.of_pure
    rw [Entries.refs_ofMembers]
    exact .nil _
  · split at h
    · obtain ⟨rfl, rfl⟩ := h.of_pure
      exact .nil _
    · exact (Succeeds.not_refuse h).elim
  · exact (Succeeds.not_refuse h).elim

theorem eq_of_computedKey {key : Expr} {span : Span} {text : String}
    (h : Succeeds (scope.computedKey key span) progress text last) : last = progress := by
  unfold computedKey at h
  dsimp only at h
  split at h
  · split at h
    · exact h.of_pure.2
    · cases h
  · cases h
  · cases h

/-! ## CSS text -/

/-- A constant in CSS text that is no object. -/
theorem cssText_of_not_object {text piece : String} {refs : List DynamicRef} {pieces : List String}
    {hole : Expr} {holes : List Expr} {value : Value} (hvalue : scope.evaluate hole = .ok value)
    (hobject : ∀ members, value ≠ .object members) :
    scope.cssText text refs (piece :: pieces) (hole :: holes) =
      if isAbsent value then scope.cssText (text ++ piece) refs pieces holes
      else if value.isFunction then do
        let ref ← scope.reference hole
        scope.cssText (text ++ piece ++ CssText.marker refs.length) (refs ++ [ref]) pieces holes
      else (value.text?.map fun inner => scope.cssText (text ++ piece ++ inner) refs pieces holes).getD
        (refuse (.interpolatedCss value.typeName) hole.span) := by
  rw [cssText, hvalue]
  cases value with
  | object members => exact absurd rfl (hobject members)
  | array items =>
    simp only
    cases (Value.array items).text? <;> rfl
  | _ => rfl

/-- What CSS text and its references gain from the rest of a template, with references numbered from
`first` on. -/
def GainsCss (scope : Scope) (text : String) (refs : List DynamicRef) (pieces : List String)
    (holes : List Expr) (first : Nat) (result : String × List DynamicRef) (next : Nat) : Prop :=
  ∃ tail more, result = (text ++ tail, refs ++ more) ∧ Numbered first more next ∧
    scope.TemplateCss refs.length pieces holes tail more

section GainsCss

variable {text piece : String} {refs : List DynamicRef} {pieces : List String} {hole : Expr}
  {holes : List Expr} {first next : Nat} {result : String × List DynamicRef}

theorem GainsCss.rest (h : scope.GainsCss (text ++ piece) refs pieces [] first result next) :
    scope.GainsCss text refs (piece :: pieces) [] first result next := by
  obtain ⟨tail, more, hresult, hnumbered, hcss⟩ := h
  rw [String.append_assoc] at hresult
  exact ⟨_, more, hresult, hnumbered, .piece hcss⟩

theorem GainsCss.constant {value : Value} {inner : String} (hvalue : scope.evaluate hole = .ok value)
    (hinner : value.spliced? = some inner)
    (h : scope.GainsCss (text ++ piece ++ inner) refs pieces holes first result next) :
    scope.GainsCss text refs (piece :: pieces) (hole :: holes) first result next := by
  obtain ⟨tail, more, hresult, hnumbered, hcss⟩ := h
  rw [String.append_assoc, String.append_assoc] at hresult
  exact ⟨_, more, hresult, hnumbered, .constant hvalue hinner hcss⟩

theorem GainsCss.marker (hhole : scope.isRunTime hole = true)
    (h : scope.GainsCss (text ++ piece ++ CssText.marker refs.length)
      (refs ++ [⟨SourceRef.of scope.unit hole, first⟩]) pieces holes (first + 1) result next) :
    scope.GainsCss text refs (piece :: pieces) (hole :: holes) first result next := by
  obtain ⟨tail, more, hresult, hnumbered, hcss⟩ := h
  rw [String.append_assoc, String.append_assoc, List.append_assoc] at hresult
  rw [List.length_append] at hcss
  exact ⟨_, _, hresult, (Numbered.single _ first).append hnumbered, .marker hhole hcss⟩

/-- CSS text that is written from a template. -/
theorem gainsCss_cssText (h : Succeeds (scope.cssText text refs pieces holes) progress result last) :
    scope.GainsCss text refs pieces holes progress.nextSlot result last.nextSlot := by
  induction pieces generalizing text refs holes progress with
  | nil =>
    rw [cssText] at h
    obtain ⟨rfl, rfl⟩ := h.of_pure
    exact ⟨"", [], by simp, .nil _, .done⟩
  | cons piece pieces ih =>
    cases holes with
    | nil =>
      rw [cssText] at h
      exact .rest (ih h)
    | cons hole holes =>
      -- a function and an expression without a value go on in the same way, the latter after a note
      have hmarked : ∀ {start : Progress}, scope.isRunTime hole = true →
          Succeeds (do
            let ref ← scope.reference hole
            scope.cssText (text ++ piece ++ CssText.marker refs.length) (refs ++ [ref]) pieces holes)
            start result last →
          scope.GainsCss text refs (piece :: pieces) (hole :: holes) start.nextSlot result
            last.nextSlot := by
        intro start hhole h
        obtain ⟨ref, middle, href, h⟩ := h.of_bind
        obtain ⟨rfl, hmiddle⟩ := href.of_reference
        refine .marker hhole ?_
        rw [← hmiddle]
        exact ih h
      cases hvalue : scope.evaluate hole with
      | error obstacle =>
        simp only [cssText, hvalue] at h
        obtain ⟨middle, hmiddle, h⟩ := h.of_note_bind
        rw [← hmiddle]
        exact hmarked (by rw [isRunTime, hvalue]) h
      | ok value =>
        by_cases hobject : ∃ members, value = .object members
        · obtain ⟨members, rfl⟩ := hobject
          simp only [cssText, hvalue] at h
          split at h
          · next inner hinner =>
            have hspliced : (Value.object members).spliced? = some inner := by
              rw [Value.spliced?, hinner]
              rfl
            exact .constant hvalue hspliced (ih h)
          · exact (Succeeds.not_refuse h).elim
        · have hobject : ∀ members, value ≠ .object members := fun members heq =>
            hobject ⟨members, heq⟩
          have hspliced : value.spliced? = if isAbsent value then some "" else value.text? := by
            rw [Value.spliced?]
            exact hobject
          rw [cssText_of_not_object hvalue hobject] at h
          split at h
          · next habsent =>
            rw [if_pos habsent] at hspliced
            rw [← @String.append_empty (text ++ piece)] at h
            exact .constant hvalue hspliced (ih h)
          · next habsent =>
            rw [if_neg habsent] at hspliced
            split at h
            · next hfunction => exact hmarked (by rw [isRunTime, hvalue]; exact hfunction) h
            · cases htext : value.text? with
              | none =>
                rw [htext] at h
                exact (Succeeds.not_refuse h).elim
              | some inner =>
                rw [htext] at h hspliced
                exact .constant hvalue hspliced (ih h)

end GainsCss

end Scope

/-! ## Constants -/

namespace StyleInput

/-- What an input has to do with a constant that it was made from: it has no references, and its CSS
texts are those of the constant. -/
structure OfConstant (value : Value) (input : StyleInput) : Prop where
  refs_eq : input.refs = []
  css : ∀ css ∈ input.cssTexts, css.2 = [] ∧ value.HasText css.1

mutual

theorem ofConstant_ofValue {span : Span} {value : Value} {input : StyleInput}
    (h : ofValue span value = .ok input) : OfConstant value input := by
  cases value with
  | object members =>
    cases h
    exact ⟨Entries.refs_ofMembers members, List.forall_mem_nil _⟩
  | str text =>
    cases h
    refine ⟨rfl, fun css hcss => ?_⟩
    rw [List.mem_singleton.mp hcss]
    exact ⟨rfl, .str⟩
  | array items =>
    rw [ofValue] at h
    obtain ⟨inputs, hinputs, h⟩ := bind_eq_ok h
    cases h
    obtain ⟨hrefs, hcss⟩ := ofConstant_ofValues hinputs
    refine ⟨hrefs, fun css hmem => ?_⟩
    obtain ⟨hnil, value, hvalue, htext⟩ := hcss css hmem
    exact ⟨hnil, .item hvalue htext⟩
  | undefined | null =>
    cases h
    exact ⟨rfl, List.forall_mem_nil _⟩
  | bool b =>
    cases b with
    | false =>
      cases h
      exact ⟨rfl, List.forall_mem_nil _⟩
    | true => cases h
  | _ => cases h

theorem ofConstant_ofValues {span : Span} {values : List Value} {inputs : List StyleInput}
    (h : ofValues span values = .ok inputs) :
    refsOf inputs = [] ∧
      ∀ css ∈ cssTextsOf inputs, css.2 = [] ∧ ∃ value ∈ values, value.HasText css.1 := by
  cases values with
  | nil =>
    cases h
    exact ⟨rfl, List.forall_mem_nil _⟩
  | cons value values =>
    rw [ofValues] at h
    obtain ⟨input, hinput, h⟩ := bind_eq_ok h
    obtain ⟨inputs, hinputs, h⟩ := bind_eq_ok h
    cases h
    have hfirst := ofConstant_ofValue hinput
    obtain ⟨hrefs, hothers⟩ := ofConstant_ofValues hinputs
    refine ⟨by rw [refsOf, hfirst.refs_eq, hrefs, List.append_nil], fun css hmem => ?_⟩
    rw [cssTextsOf, List.mem_append] at hmem
    cases hmem with
    | inl hmem =>
      obtain ⟨hnil, htext⟩ := hfirst.css css hmem
      exact ⟨hnil, value, List.mem_cons_self, htext⟩
    | inr hmem =>
      obtain ⟨hnil, other, hother, htext⟩ := hothers css hmem
      exact ⟨hnil, other, List.mem_cons_of_mem _ hother, htext⟩

end

end StyleInput

namespace Scope

/-! ## Expressions -/

/-- What an input has to do with the expression that it was made from: its references have the numbers
from `first` on, and its CSS texts are those of the expression. -/
structure Resolves (scope : Scope) (e : Expr) (first : Nat) (input : StyleInput) (next : Nat) :
    Prop where
  numbered : Numbered first input.refs next
  css : ∀ css ∈ input.cssTexts, scope.SiteCss e css.1 css.2

variable {scope : Scope} {progress last : Progress}

theorem Resolves.mono {e e' : Expr} {first next : Nat} {input : StyleInput}
    (h : scope.Resolves e first input next)
    (himp : ∀ {text refs}, scope.SiteCss e text refs → scope.SiteCss e' text refs) :
    scope.Resolves e' first input next :=
  ⟨h.numbered, fun css hmem => himp (h.css css hmem)⟩

theorem resolves_evaluatedInput {e : Expr} {input : StyleInput}
    (h : Succeeds (scope.evaluatedInput e) progress input last) :
    scope.Resolves e progress.nextSlot input last.nextSlot := by
  unfold evaluatedInput at h
  split at h
  · next value hvalue =>
    obtain ⟨hinput, rfl⟩ := h.of_ofExcept
    have hconstant := StyleInput.ofConstant_ofValue hinput
    constructor
    · rw [hconstant.refs_eq]
      exact .nil _
    · rintro ⟨text, refs⟩ hcss
      obtain ⟨rfl, htext⟩ := hconstant.css _ hcss
      exact .constant hvalue htext
  · obtain ⟨middle, hmiddle, h⟩ := h.of_note_bind
    obtain ⟨rfl, rfl⟩ := h.of_pure
    rw [← hmiddle]
    exact ⟨.nil _, List.forall_mem_nil _⟩

/-- The styles of local names are numbered, and their CSS texts are those of the names. -/
structure LocalsResolve (scope : Scope) (locals : LocalStyles) : Prop where
  input : ∀ {span name step progress input last}, locals.input name = some step →
    Succeeds step progress input last →
    scope.Resolves (.ident span name) progress.nextSlot input last.nextSlot
  entries : ∀ {name step progress entries last}, locals.entries name = some step →
    Succeeds step progress entries last → Numbered progress.nextSlot entries.refs last.nextSlot

section Expressions

variable {locals : LocalStyles}

/-- An entry before others. -/
theorem numbered_entry {key : String} {span : Span} {step : Resolution Held}
    {others : Resolution Entries} {entries : Entries}
    (hstep : ∀ {progress held last}, Succeeds step progress held last →
      Numbered progress.nextSlot held.refs last.nextSlot)
    (hothers : ∀ {progress rest last}, Succeeds others progress rest last →
      Numbered progress.nextSlot rest.refs last.nextSlot)
    (h : Succeeds (do let held ← step; return held.entry key span (← others)) progress entries last) :
    Numbered progress.nextSlot entries.refs last.nextSlot := by
  obtain ⟨held, middle, hheld, h⟩ := h.of_bind
  obtain ⟨rest, last', hrest, h⟩ := h.of_bind
  obtain ⟨rfl, rfl⟩ := h.of_pure
  rw [Held.refs_entry]
  exact (hstep hheld).append (hothers hrest)

mutual

theorem numbered_entries (hlocals : LocalsResolve scope locals) {members : List Member}
    {progress last : Progress} {entries : Entries}
    (h : Succeeds (scope.entries locals members) progress entries last) :
    Numbered progress.nextSlot entries.refs last.nextSlot := by
  cases members with
  | nil =>
    obtain ⟨rfl, rfl⟩ := h.of_pure
    exact .nil _
  | cons member rest =>
    cases member with
    | named key e =>
      simp only [Scope.entries] at h
      exact numbered_entry (numbered_value hlocals) (numbered_entries hlocals) h
    | computed keyExpr e =>
      simp only [Scope.entries] at h
      obtain ⟨key, start, hkey, hentry⟩ := h.of_bind
      rw [← eq_of_computedKey hkey]
      exact numbered_entry (numbered_value hlocals) (numbered_entries hlocals) hentry
    | shorthand name =>
      simp only [Scope.entries] at h
      exact numbered_entry numbered_evaluatedValue (numbered_entries hlocals) h
    | spread e =>
      simp only [Scope.entries] at h
      obtain ⟨first, middle, hfirst, h⟩ := h.of_bind
      obtain ⟨others, last', hothers, h⟩ := h.of_bind
      obtain ⟨rfl, rfl⟩ := h.of_pure
      rw [Entries.refs_append]
      exact (numbered_spread hlocals hfirst).append (numbered_entries hlocals hothers)

theorem numbered_value (hlocals : LocalsResolve scope locals) {e : Expr} {progress last : Progress}
    {held : Held} (h : Succeeds (scope.value locals e) progress held last) :
    Numbered progress.nextSlot held.refs last.nextSlot := by
  cases e with
  | object span members =>
    simp only [value] at h
    obtain ⟨entries, middle, hentries, h⟩ := h.of_bind
    obtain ⟨rfl, rfl⟩ := h.of_pure
    exact numbered_entries hlocals hentries
  | template span pieces holes =>
    simp only [value] at h
    exact numbered_templateValue h
  | _ =>
    simp only [value] at h
    exact numbered_evaluatedValue h

theorem numbered_spread (hlocals : LocalsResolve scope locals) {e : Expr} {progress last : Progress}
    {entries : Entries} (h : Succeeds (scope.spread locals e) progress entries last) :
    Numbered progress.nextSlot entries.refs last.nextSlot := by
  cases e with
  | object span members =>
    simp only [spread] at h
    exact numbered_entries hlocals h
  | ident span name =>
    simp only [spread] at h
    cases hname : locals.entries name with
    | none =>
      rw [hname] at h
      exact numbered_evaluatedSpread h
    | some step =>
      rw [hname] at h
      exact hlocals.entries hname h
  | _ =>
    simp only [spread] at h
    exact numbered_evaluatedSpread h

end

mutual

theorem resolves_input (hlocals : LocalsResolve scope locals) {e : Expr} {progress last : Progress}
    {input : StyleInput} (h : Succeeds (scope.input locals e) progress input last) :
    scope.Resolves e progress.nextSlot input last.nextSlot := by
  cases e with
  | object span members =>
    simp only [Scope.input] at h
    obtain ⟨entries, middle, hentries, h⟩ := h.of_bind
    obtain ⟨rfl, rfl⟩ := h.of_pure
    exact ⟨numbered_entries hlocals hentries, List.forall_mem_nil _⟩
  | template span pieces holes =>
    simp only [Scope.input] at h
    obtain ⟨css, middle, hcss, h⟩ := h.of_bind
    obtain ⟨rfl, rfl⟩ := h.of_pure
    obtain ⟨text, refs, rfl, hnumbered, htemplate⟩ := gainsCss_cssText hcss
    rw [String.empty_append, List.nil_append]
    refine ⟨hnumbered, fun css hmem => ?_⟩
    rw [List.mem_singleton.mp hmem]
    exact .template htemplate
  | array span items =>
    simp only [Scope.input] at h
    obtain ⟨inputs, middle, hinputs, h⟩ := h.of_bind
    obtain ⟨rfl, rfl⟩ := h.of_pure
    obtain ⟨hnumbered, hcss⟩ := resolves_inputs hlocals hinputs
    refine ⟨hnumbered, fun css hmem => ?_⟩
    obtain ⟨e, he, hsite⟩ := hcss css hmem
    exact .item he hsite
  | conditional span test yes no =>
    simp only [Scope.input] at h
    split at h
    · split at h
      · exact (resolves_input hlocals h).mono .yes
      · exact (resolves_input hlocals h).mono .no
    · obtain ⟨start, hstart, h⟩ := h.of_note_bind
      obtain ⟨consequent, middle, hyes, h⟩ := h.of_bind
      obtain ⟨alternate, last', hno, h⟩ := h.of_bind
      obtain ⟨rfl, rfl⟩ := h.of_pure
      have hyes := resolves_input hlocals hyes
      have hno := resolves_input hlocals hno
      rw [hstart] at hyes
      refine ⟨hyes.numbered.append hno.numbered, fun css hmem => ?_⟩
      cases List.mem_append.mp hmem with
      | inl hmem => exact .yes (hyes.css css hmem)
      | inr hmem => exact .no (hno.css css hmem)
  | logical span op left right =>
    cases op with
    | and =>
      simp only [Scope.input] at h
      split at h
      · split at h
        · exact (resolves_input hlocals h).mono .guarded
        · obtain ⟨rfl, rfl⟩ := h.of_pure
          exact ⟨.nil _, List.forall_mem_nil _⟩
      · obtain ⟨start, hstart, h⟩ := h.of_note_bind
        obtain ⟨body, middle, hbody, h⟩ := h.of_bind
        obtain ⟨rfl, rfl⟩ := h.of_pure
        have hbody := resolves_input hlocals hbody
        rw [hstart] at hbody
        exact ⟨hbody.numbered, fun css hmem => .guarded (hbody.css css hmem)⟩
    | _ =>
      simp only [Scope.input] at h
      exact resolves_evaluatedInput h
  | ident span name =>
    simp only [Scope.input] at h
    cases hname : locals.input name with
    | none =>
      rw [hname] at h
      exact resolves_evaluatedInput h
    | some step =>
      rw [hname] at h
      exact hlocals.input hname h
  | _ =>
    simp only [Scope.input] at h
    exact resolves_evaluatedInput h

theorem resolves_inputs (hlocals : LocalsResolve scope locals) {items : List Expr}
    {progress last : Progress} {inputs : List StyleInput}
    (h : Succeeds (scope.inputs locals items) progress inputs last) :
    Numbered progress.nextSlot (StyleInput.refsOf inputs) last.nextSlot ∧
      ∀ css ∈ StyleInput.cssTextsOf inputs, ∃ e ∈ items, scope.SiteCss e css.1 css.2 := by
  cases items with
  | nil =>
    obtain ⟨rfl, rfl⟩ := h.of_pure
    exact ⟨.nil _, List.forall_mem_nil _⟩
  | cons e rest =>
    simp only [Scope.inputs] at h
    obtain ⟨first, middle, hfirst, h⟩ := h.of_bind
    obtain ⟨others, last', hothers, h⟩ := h.of_bind
    obtain ⟨rfl, rfl⟩ := h.of_pure
    have hfirst := resolves_input hlocals hfirst
    obtain ⟨hnumbered, hcss⟩ := resolves_inputs hlocals hothers
    refine ⟨hfirst.numbered.append hnumbered, fun css hmem => ?_⟩
    cases List.mem_append.mp hmem with
    | inl hmem => exact ⟨e, List.mem_cons_self, hfirst.css css hmem⟩
    | inr hmem =>
      obtain ⟨other, hother, hsite⟩ := hcss css hmem
      exact ⟨other, List.mem_cons_of_mem _ hother, hsite⟩

end

end Expressions

/-- Local names may be followed to any depth. -/
theorem resolves_locals (scope : Scope) (n : Nat) : LocalsResolve scope (scope.locals n) := by
  induction n with
  | zero =>
    constructor
    · intro span name step progress input last hstep
      cases hstep
    · intro name step progress entries last hstep
      cases hstep
  | succ n ih =>
    constructor
    · intro span name step progress input last hstep h
      simp only [locals] at hstep
      split at hstep
      · next hinit =>
        cases hstep
        exact (resolves_input ih h).mono (.bound hinit)
      · next hinit =>
        cases hstep
        exact (resolves_input ih h).mono (.bound hinit)
      · cases hstep
    · intro name step progress entries last hstep h
      simp only [locals] at hstep
      split at hstep
      · cases hstep
        exact numbered_entries ih h
      · cases hstep

/-- **Numbering.**  The references of an input have, in source order, the numbers from the first free
one on, each once, and the number after them is free then.  In each of its CSS texts the markers count
from zero, and each of them has the place of its reference among those of the text. -/
theorem resolve_numbered (scope : Scope) (e : Expr) {progress last : Progress} {input : StyleInput}
    (h : ((scope.resolve e).run.run progress).run = (.ok input, last)) :
    input.refs.map DynamicRef.slot = List.range' progress.nextSlot input.refs.length ∧
      last.nextSlot = progress.nextSlot + input.refs.length ∧
      ∀ css ∈ input.cssTexts, scope.SiteCss e css.1 css.2 := by
  have hresolves := resolves_input (resolves_locals scope Evaluation.maxDepth) h
  exact ⟨hresolves.numbered.slots_eq, hresolves.numbered.next_eq, hresolves.css⟩

/-- Local CSS text with two run-time expressions, followed before and after an object with one. -/
theorem resolve_numbered_twice :
    let name : String → Expr := .ident Span.none
    let unit : SourceUnit :=
      { path := "card.ts"
        bindings := [("base", .template Span.none ["margin:", ";color:", ""] [name "gap", name "tone"])] }
    let scope : Scope := ⟨⟨Resolver.none, Helpers.standard⟩, unit⟩
    let e : Expr := .array Span.none
      [name "base", .object Span.none [.named "width" (name "wide")], name "base"]
    ∃ input last, ((scope.resolve e).run.run { nextSlot := 3 }).run = (.ok input, last) ∧
      input.refs.map DynamicRef.slot = [3, 4, 5, 6, 7] ∧ last.nextSlot = 8 ∧
      ∀ css ∈ input.cssTexts, scope.SiteCss e css.1 css.2 := by
  intro name unit scope e
  refine ⟨_, _, rfl, ?_⟩
  exact resolve_numbered scope e rfl

end Scope

end AtomicStyle

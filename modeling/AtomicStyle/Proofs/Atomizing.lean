import AtomicStyle.Proofs.Naming

/-!
# The rules of a block

What a block declares is gathered in source order, so a block after another one declares what it
would declare alone (`declareAll_append`).  A rule competes with the rules that have its target: the
context and the property.

Results:
1. `declareAll_append`: the declarations of two blocks in a row.
2. `forall_mem_rules_declareAll`: every rule of a block comes from one declaration in one context.
3. `emitted_of_mem_atomize`: rules have the class name of their content and a normalized selector.
-/

namespace AtomicStyle

open AtomicStyle.Text

/-- What a rule competes for: its context and its property. -/
def AtomicRule.target (rule : AtomicRule) : Context × String :=
  (rule.context, rule.property)

/-- A rule as atomizing gives it: named after its content, with a normalized selector. -/
structure AtomicRule.Emitted (salt : String) (rule : AtomicRule) : Prop where
  named : rule.className =
    AtomicStyle.className salt rule.context rule.property rule.value rule.important
  normalized : ∃ selector, rule.context.selector = Selector.normalize selector

/-! ## Blocks in a row -/

namespace Declared

@[simp] theorem rules_append (a b : Declared) : (a ++ b).rules = a.rules ++ b.rules := rfl

@[simp] theorem nil_append (a : Declared) : ({} : Declared) ++ a = a := rfl

theorem append_assoc (a b c : Declared) : a ++ b ++ c = a ++ (b ++ c) := by
  exact congrArg₂ Declared.mk (List.append_assoc ..) (List.append_assoc ..)

theorem foldr_append {α : Type} (f : α → Declared) (items : List α) (a b : Declared) :
    items.foldr (fun x declared => f x ++ declared) (a ++ b) =
      items.foldr (fun x declared => f x ++ declared) a ++ b := by
  induction items with
  | nil => rfl
  | cons x rest ih => rw [List.foldr_cons, List.foldr_cons, ih, append_assoc]

end Declared

theorem declareAll_append (salt : String) (atRules : List AtRule) (selector : String)
    (first second : Block) :
    declareAll salt atRules selector (first ++ second) =
      declareAll salt atRules selector first ++ declareAll salt atRules selector second := by
  induction first with
  | nil => rfl
  | declaration d rest ih =>
    rw [Block.declaration_append, declareAll, declareAll, ih, Declared.append_assoc]
  | rule selectors body rest _ ih =>
    rw [Block.rule_append, declareAll, declareAll, ih, Declared.foldr_append]
  | atRule name params body rest _ ih =>
    rw [Block.atRule_append, declareAll, declareAll, ih, Declared.append_assoc]

/-! ## Rules and their declarations -/

/-- What holds of the rules of every declaration in every context holds of every rule of a block. -/
theorem forall_mem_rules_declareAll {salt : String} {p : AtomicRule → Prop}
    (h : ∀ atRules selector d, ∀ rule ∈ (declare salt (Context.of atRules selector) d).rules, p rule)
    (atRules : List AtRule) (selector : String) (block : Block) :
    ∀ rule ∈ (declareAll salt atRules selector block).rules, p rule := by
  induction block generalizing atRules selector with
  | nil =>
    intro rule hrule
    exact absurd hrule List.not_mem_nil
  | declaration d rest ih =>
    intro rule hrule
    rw [declareAll, Declared.rules_append] at hrule
    rcases List.mem_append.mp hrule with hrule | hrule
    · exact h atRules selector d rule hrule
    · exact ih atRules selector rule hrule
  | rule selectors body rest ihBody ihRest =>
    rw [declareAll]
    -- one selector after the other; what follows the rule is at the end
    induction selectors with
    | nil => exact ihRest atRules selector
    | cons child others ih =>
      intro rule hrule
      rw [List.foldr_cons, Declared.rules_append] at hrule
      rcases List.mem_append.mp hrule with hrule | hrule
      · exact ihBody atRules (Selector.nest selector child) rule hrule
      · exact ih rule hrule
  | atRule name params body rest ihBody ihRest =>
    intro rule hrule
    rw [declareAll, Declared.rules_append] at hrule
    rcases List.mem_append.mp hrule with hrule | hrule
    · exact ihBody _ selector rule hrule
    · exact ihRest atRules selector rule hrule

/-- The rule of a longhand in a context. -/
def longhandRule (salt : String) (context : Context) (important : Bool)
    (longhand : String × String) : AtomicRule :=
  { context, property := longhand.1, value := longhand.2, important,
    className := className salt context longhand.1 longhand.2 important }

theorem rules_declare (salt : String) (context : Context) (d : Declaration) :
    (declare salt context d).rules =
      (longhands d.property (valueText context d).1).map
        (longhandRule salt context d.important) := by
  unfold declare
  obtain ⟨text, vars⟩ := valueText context d
  apply List.map_congr_left
  rintro ⟨property, value⟩ -
  rfl

theorem emitted_of_mem_declare {salt : String} {atRules : List AtRule} {selector : String}
    {d : Declaration} {rule : AtomicRule}
    (h : rule ∈ (declare salt (Context.of atRules selector) d).rules) : rule.Emitted salt := by
  rw [rules_declare] at h
  obtain ⟨longhand, -, rfl⟩ := List.mem_map.mp h
  exact ⟨rfl, selector, rfl⟩

/-- The rules that a block declares for the styled element. -/
def Block.declared (salt : String) (block : Block) : List AtomicRule :=
  (declareAll salt [] "&" block).rules

@[simp] theorem Block.declared_nil (salt : String) : Block.nil.declared salt = [] := rfl

@[simp] theorem Block.declared_append (salt : String) (first second : Block) :
    (first ++ second).declared salt = first.declared salt ++ second.declared salt := by
  rw [Block.declared, declareAll_append]
  rfl

theorem Block.rules_atomize (salt : String) (block : Block) :
    (block.atomize salt).rules = latest AtomicRule.target (block.declared salt) := rfl

theorem emitted_of_mem_declared {salt : String} {block : Block} {rule : AtomicRule}
    (h : rule ∈ block.declared salt) : rule.Emitted salt :=
  forall_mem_rules_declareAll (fun _ _ _ _ hrule => emitted_of_mem_declare hrule) [] "&" block rule h

/-- Every rule of a group is named after its content and has a normalized selector. -/
theorem emitted_of_mem_atomize {salt : String} {block : Block} {rule : AtomicRule}
    (h : rule ∈ (block.atomize salt).rules) : rule.Emitted salt := by
  rw [Block.rules_atomize] at h
  exact emitted_of_mem_declared ((latest_sublist _ _).mem h)

/-- Rules of groups of blocks are such rules. -/
theorem emitted_of_atomized {salt : String} {groups : List RuleGroup}
    (hatomized : ∀ g ∈ groups, ∃ block : Block, g = block.atomize salt) {g : RuleGroup}
    (hg : g ∈ groups) {rule : AtomicRule} (hrule : rule ∈ g.rules) : rule.Emitted salt := by
  obtain ⟨block, rfl⟩ := hatomized g hg
  exact emitted_of_mem_atomize hrule

end AtomicStyle

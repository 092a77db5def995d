import AtomicStyle.Proofs.Atomizing

/-!
# Declarations that compete

The declarations of a block that have one target come from nested rules, selector lists and expanded
shorthands, and stand in source order.  The group of the block keeps the last of them.  The cascade
selects the last one too, but only among the important ones if there are any.

Results:
1. `Block.filter_target_atomize`: a group keeps the last declaration of each target.
2. `cascaded?_eq_some_getLast_iff`: when the cascade selects the last declaration.
3. `Block.atomize_keeps_last`: what a group keeps, and when that is what the cascade selects.
-/

namespace AtomicStyle

/-- The rules that a block declares for a context and a property, in source order. -/
def Block.declaredFor (salt : String) (block : Block) (target : Context × String) :
    List AtomicRule :=
  (block.declared salt).filter (·.target = target)

/-- The rule that the cascade selects among rules of one target: the last important one if there is
any, otherwise the last one. -/
def cascaded? (rules : List AtomicRule) : Option AtomicRule :=
  (rules.filter (·.important)).getLast?.or rules.getLast?

theorem Block.filter_target_atomize (salt : String) (block : Block) (target : Context × String) :
    (block.atomize salt).rules.filter (·.target = target) =
      (block.declaredFor salt target).getLast?.toList := by
  rw [Block.rules_atomize]
  exact filter_latest AtomicRule.target (block.declared salt) target

theorem cascaded?_of_none_important {rules : List AtomicRule}
    (h : ∀ rule ∈ rules, rule.important = false) : cascaded? rules = rules.getLast? := by
  have hnone : rules.filter (·.important) = [] :=
    List.filter_eq_nil_iff.mpr fun rule hrule => by simp [h rule hrule]
  rw [cascaded?, hnone]
  rfl

theorem important_of_cascaded? {rules : List AtomicRule} {selected : AtomicRule}
    (h : cascaded? rules = some selected) {rule : AtomicRule} (hrule : rule ∈ rules)
    (himportant : rule.important = true) : selected.important = true := by
  have hmem : rule ∈ rules.filter (·.important) := List.mem_filter.mpr ⟨hrule, himportant⟩
  obtain ⟨last, hlast⟩ := Option.isSome_iff_exists.mp
    (List.getLast?_isSome.mpr (List.ne_nil_of_mem hmem))
  rw [cascaded?, hlast, Option.some_or] at h
  rw [← Option.some.inj h]
  exact (List.mem_filter.mp (List.mem_of_getLast? hlast)).2

/-- The cascade selects the last rule iff this one is important or no rule is. -/
theorem cascaded?_eq_some_getLast_iff {rules : List AtomicRule} {last : AtomicRule}
    (hlast : rules.getLast? = some last) :
    cascaded? rules = some last ↔
      last.important = true ∨ ∀ rule ∈ rules, rule.important = false := by
  constructor
  · intro h
    by_cases hany : ∃ rule ∈ rules, rule.important = true
    · obtain ⟨rule, hrule, himportant⟩ := hany
      exact Or.inl (important_of_cascaded? h hrule himportant)
    · refine Or.inr fun rule hrule => ?_
      exact Bool.eq_false_iff.mpr fun himportant => hany ⟨rule, hrule, himportant⟩
  · rintro (himportant | hnone)
    · obtain ⟨before, rfl⟩ := List.getLast?_eq_some_iff.mp hlast
      rw [cascaded?, List.filter_append, List.filter_cons_of_pos himportant, List.filter_nil,
        List.getLast?_concat]
      rfl
    · rw [cascaded?_of_none_important hnone, hlast]

/-- **Overriding and importance.**  Of the declarations that a block has for a context and a property,
wherever they come from, its group keeps one: the last, important or not.  That is the one which the
cascade selects iff it is important or none of them is. -/
theorem Block.atomize_keeps_last (salt : String) (block : Block) (target : Context × String)
    (hdeclared : block.declaredFor salt target ≠ []) :
    ∃ kept, (block.atomize salt).rules.filter (·.target = target) = [kept] ∧
      (block.declaredFor salt target).getLast? = some kept ∧
      (cascaded? (block.declaredFor salt target) = some kept ↔
        kept.important = true ∨
          ∀ rule ∈ block.declaredFor salt target, rule.important = false) := by
  obtain ⟨kept, hkept⟩ := Option.isSome_iff_exists.mp (List.getLast?_isSome.mpr hdeclared)
  refine ⟨kept, ?_, hkept, cascaded?_eq_some_getLast_iff hkept⟩
  rw [block.filter_target_atomize, hkept]
  rfl

/-- Three margins at the top: of a longhand, of a shorthand that is important, and of a longhand that is
important too, in a rule of its own for the element itself. -/
def competingMargins : Block :=
  .declaration ⟨"margin-top", [.text "1px"], false⟩
    (.declaration ⟨"margin", [.text "2px  auto"], true⟩
      (.rule ["&:hover", "&"] (.declaration ⟨"margin-top", [.text "3px"], true⟩ .nil) .nil))

/-- The last margin is kept, and it is the one that the cascade selects. -/
theorem Block.atomize_keeps_last_margin :
    (competingMargins.declaredFor "" (⟨[], "&"⟩, "margin-top")).map AtomicRule.declaration =
        ["margin-top:1px", "margin-top:2px!important", "margin-top:3px!important"] ∧
      ∃ kept, (competingMargins.atomize "").rules.filter (·.target = (⟨[], "&"⟩, "margin-top")) =
          [kept] ∧
        kept.declaration = "margin-top:3px!important" ∧
        cascaded? (competingMargins.declaredFor "" (⟨[], "&"⟩, "margin-top")) = some kept := by
  refine ⟨by decide +kernel, ?_⟩
  obtain ⟨kept, hkept, hlast, hcascade⟩ := Block.atomize_keeps_last "" competingMargins
    (⟨[], "&"⟩, "margin-top") (by decide +kernel)
  have hvalue : ((competingMargins.declaredFor "" (⟨[], "&"⟩, "margin-top")).getLast?.map
      fun rule => (rule.declaration, rule.important)) =
        some ("margin-top:3px!important", true) := by decide +kernel
  rw [hlast] at hvalue
  obtain ⟨hdeclaration, himportant⟩ := Prod.mk.inj (Option.some.inj hvalue)
  exact ⟨kept, hkept, hdeclaration, hcascade.mpr (Or.inl himportant)⟩

/-- A plain declaration after an important one is kept, and the cascade selects the important one. -/
theorem Block.important_not_kept :
    let block : Block := .declaration ⟨"color", [.text "red"], true⟩
      (.declaration ⟨"color", [.text "blue"], false⟩ .nil)
    let target := ((⟨[], "&"⟩ : Context), "color")
    (block.declaredFor "" target).map AtomicRule.declaration =
        ["color:red!important", "color:blue"] ∧
      (cascaded? (block.declaredFor "" target)).map AtomicRule.declaration =
        some "color:red!important" ∧
      (block.atomize "").rules.filter (·.target = target) ≠
        (cascaded? (block.declaredFor "" target)).toList := by
  decide +kernel

end AtomicStyle

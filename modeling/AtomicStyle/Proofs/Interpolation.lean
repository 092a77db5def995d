import AtomicStyle.Proofs.Closure
import AtomicStyle.Proofs.Slots

/-!
# Interpolated expressions

The variable of a run-time part is named after one text: the label of the at-rules, the selector,
the property and the slot in a row, with nothing between them.  A property that ends in a digit can
borrow it from the slot of another part.  Two parts then share a variable, and the later expression
takes the place of the earlier one.

Results:
1. `Interpolation.name_eq_iff`: which run-time parts share a variable.
2. `Block.exists_expression`: the expression of a variable is that of the last part with its name.
3. `Interpolation.not_confusable_of_property`: properties that end in no digit are safe.
4. `Block.atomize_expressions`: when every run-time part keeps its expression.
-/

namespace AtomicStyle

open AtomicStyle.Text

/-- A run-time part of a value, in the context and under the property of its declaration. -/
structure Interpolation where
  context : Context
  property : String
  ref : DynamicRef
deriving DecidableEq, Repr

namespace Interpolation

/-- The text before the slot in the seed of a name. -/
def lead (i : Interpolation) : String :=
  i.context.label ++ i.context.selector ++ i.property

/-- The slot in decimal. -/
def digits (i : Interpolation) : String :=
  toString i.ref.slot

/-- The text that a name is the hash of. -/
def seed (i : Interpolation) : String :=
  i.lead ++ i.digits

/-- The name of the variable. -/
def name (i : Interpolation) : String :=
  variableName i.context i.property i.ref.slot

/-- Two run-time parts whose leads and slots give one text, cut at different places. -/
def Confusable (i j : Interpolation) : Prop :=
  Shifted i.lead i.digits j.lead j.digits ∨ Shifted j.lead j.digits i.lead i.digits

instance (i j : Interpolation) : Decidable (i.Confusable j) :=
  inferInstanceAs (Decidable (_ ∨ _))

end Interpolation

/-- The run-time parts of a declaration in its place. -/
def Occurrence.interpolations (p : Occurrence) : List Interpolation :=
  p.declaration.refs.map fun ref => ⟨p.context, p.declaration.property, ref⟩

namespace Block

/-- The run-time parts of a block as they are written. -/
def refs : Block → List DynamicRef
  | nil => []
  | declaration d rest => d.refs ++ rest.refs
  | rule _ body rest => body.refs ++ rest.refs
  | atRule _ _ body rest => body.refs ++ rest.refs

/-- The run-time parts of the declarations of a block, each in its place. -/
def interpolations (block : Block) : List Interpolation :=
  block.occurrences.flatMap Occurrence.interpolations

/-- The run-time parts of the declarations of which a rule is left in the group. -/
def surviving (salt : String) (block : Block) : List Interpolation :=
  (block.occurrences.filter fun p => (p.rules salt).any (· ∈ (block.atomize salt).rules)).flatMap
    Occurrence.interpolations

/-- The hash tells apart the different seeds of a block. -/
def NamesCollisionFree (block : Block) : Prop :=
  ∀ i ∈ block.interpolations, ∀ j ∈ block.interpolations,
    Digest.hash i.seed = Digest.hash j.seed → i.seed = j.seed

instance (block : Block) : Decidable block.NamesCollisionFree :=
  inferInstanceAs (Decidable (∀ i ∈ block.interpolations, ∀ j ∈ block.interpolations, _ → _))

/-- Every run-time part that is left has one variable in the group, and it is set to the expression
of this very part. -/
def KeepsExpressions (salt : String) (block : Block) : Prop :=
  ∀ i ∈ block.surviving salt, ∃ v,
    (block.atomize salt).vars.filter (·.name = i.name) = [v] ∧ v.expression = i.ref.source

end Block

/-! ## Where a run-time part is written -/

/-- What an interpolation has from its place in the block: all but the selector. -/
def Interpolation.origin (i : Interpolation) : List AtRule × String × DynamicRef :=
  (i.context.atRules, i.property, i.ref)

/-- The run-time parts of a block with the at-rules and the property that they are written under. -/
def Block.originsIn (atRules : List AtRule) : Block → List (List AtRule × String × DynamicRef)
  | .nil => []
  | .declaration d rest => d.refs.map (atRules, d.property, ·) ++ rest.originsIn atRules
  | .rule _ body rest => body.originsIn atRules ++ rest.originsIn atRules
  | .atRule name params body rest =>
    body.originsIn (atRules ++ [⟨name, String.intercalate " " (wordsOf params)⟩]) ++
      rest.originsIn atRules

theorem Block.map_originsIn (atRules : List AtRule) (block : Block) :
    (block.originsIn atRules).map (·.2.2) = block.refs := by
  induction block generalizing atRules with
  | nil => rfl
  | declaration d rest ih =>
    rw [originsIn, List.map_append, List.map_map, ih, refs]
    exact congrArg (· ++ rest.refs) (List.map_id d.refs)
  | rule selectors body rest ihBody ihRest =>
    rw [originsIn, List.map_append, ihBody, ihRest, refs]
  | atRule name params body rest ihBody ihRest =>
    rw [originsIn, List.map_append, ihBody, ihRest, refs]

theorem Block.origin_mem_originsIn {atRules : List AtRule} {selector : String} {block : Block}
    {i : Interpolation}
    (hi : i ∈ (block.occurrencesIn atRules selector).flatMap Occurrence.interpolations) :
    i.origin ∈ block.originsIn atRules := by
  induction block generalizing atRules selector with
  | nil => exact absurd hi List.not_mem_nil
  | declaration d rest ih =>
    rw [occurrencesIn, List.flatMap_cons, List.mem_append] at hi
    rcases hi with hi | hi
    · obtain ⟨ref, href, rfl⟩ := List.mem_map.mp hi
      exact List.mem_append_left _ (List.mem_map_of_mem href)
    · exact List.mem_append_right _ (ih hi)
  | rule selectors body rest ihBody ihRest =>
    rw [occurrencesIn, List.flatMap_append, List.mem_append] at hi
    rcases hi with hi | hi
    · obtain ⟨p, hp, hip⟩ := List.mem_flatMap.mp hi
      obtain ⟨child, -, hp⟩ := List.mem_flatMap.mp hp
      exact List.mem_append_left _ (ihBody (List.mem_flatMap.mpr ⟨p, hp, hip⟩))
    · exact List.mem_append_right _ (ihRest hi)
  | atRule name params body rest ihBody ihRest =>
    rw [occurrencesIn, List.flatMap_append, List.mem_append] at hi
    rcases hi with hi | hi
    · exact List.mem_append_left _ (ihBody hi)
    · exact List.mem_append_right _ (ihRest hi)

section Names

variable {block : Block} {i j : Interpolation}

/-- Distinct slots tell run-time parts apart; selectors tell apart the places of one. -/
theorem Block.eq_of_lead_eq_of_slot_eq (hslots : (block.refs.map (·.slot)).Nodup)
    (hi : i ∈ block.interpolations) (hj : j ∈ block.interpolations) (hlead : i.lead = j.lead)
    (hslot : i.ref.slot = j.ref.slot) : i = j := by
  have hnodup : ((block.originsIn []).map fun origin => origin.2.2.slot).Nodup := by
    rw [← block.map_originsIn [], List.map_map] at hslots
    exact hslots
  -- the slot gives all but the selector, and then the lead gives the selector
  have horigin : i.origin = j.origin :=
    List.inj_on_of_nodup_map hnodup (origin_mem_originsIn hi) (origin_mem_originsIn hj) hslot
  obtain ⟨⟨atRules, selector⟩, property, ref⟩ := i
  obtain ⟨⟨atRules', selector'⟩, property', ref'⟩ := j
  obtain ⟨rfl, rfl, rfl⟩ : atRules = atRules' ∧ property = property' ∧ ref = ref' := by
    simpa [Interpolation.origin] using horigin
  have hselector : selector = selector' := by
    simpa [Interpolation.lead, Context.label] using hlead
  rw [hselector]

theorem Interpolation.slot_eq_of_digits_eq (h : i.digits = j.digits) : i.ref.slot = j.ref.slot := by
  have hread := congrArg (fun s => Nat.ofDigitChars 10 s.toList 0) h
  simpa [digits] using hread

/-- Without collisions, two run-time parts share a variable iff they are one or confusable. -/
theorem Interpolation.name_eq_iff (hslots : (block.refs.map (·.slot)).Nodup)
    (hfree : block.NamesCollisionFree) (hi : i ∈ block.interpolations)
    (hj : j ∈ block.interpolations) : i.name = j.name ↔ i = j ∨ i.Confusable j := by
  have hseed : i.name = j.name ↔ i.seed = j.seed := by
    change "--_" ++ Digest.hash i.seed = "--_" ++ Digest.hash j.seed ↔ _
    rw [String.append_right_inj]
    exact ⟨hfree i hi j hj, congrArg Digest.hash⟩
  rw [hseed, seed, seed, append_eq_append_iff_shifted]
  constructor
  · rintro (⟨hlead, hdigits⟩ | hconfusable)
    · exact Or.inl (Block.eq_of_lead_eq_of_slot_eq hslots hi hj hlead
        (slot_eq_of_digits_eq hdigits))
    · exact Or.inr hconfusable
  · rintro (rfl | hconfusable)
    · exact Or.inl ⟨rfl, rfl⟩
    · exact Or.inr hconfusable

/-! ## Slots and properties -/

theorem Interpolation.isDigit_of_mem_digits {c : Char} (hc : c ∈ i.digits.toList) :
    c.isDigit = true := by
  rw [digits, Nat.toString_eq_repr, Nat.toList_repr] at hc
  exact Nat.isDigit_of_mem_toDigits (by decide) (by decide) hc

/-- Where a lead takes in the begin of another slot, it ends in a digit. -/
theorem Interpolation.isDigit_of_shifted (h : Shifted i.lead i.digits j.lead j.digits) :
    ∃ c, j.lead.toList.getLast? = some c ∧ c.isDigit = true := by
  obtain ⟨piece, hpiece, hlead, hdigits⟩ := h
  have hchars : piece.toList ≠ [] := fun hnil => hpiece (String.toList_eq_nil_iff.mp hnil)
  refine ⟨piece.toList.getLast hchars, ?_, ?_⟩
  · rw [hlead, String.toList_append, List.getLast?_append_of_ne_nil _ hchars,
      List.getLast?_eq_some_getLast hchars]
  · apply isDigit_of_mem_digits (i := i)
    rw [hdigits, String.toList_append]
    exact List.mem_append_left _ (List.getLast_mem hchars)

theorem Interpolation.getLast?_lead {c : Char} (h : i.property.toList.getLast? = some c) :
    i.lead.toList.getLast? = some c := by
  rw [lead, String.toList_append, List.getLast?_append, h, Option.some_or]

/-- A property that ends in no digit takes in nothing of a slot. -/
theorem Interpolation.not_shifted_of_property
    (hj : ∃ c, j.property.toList.getLast? = some c ∧ c.isDigit = false) :
    ¬ Shifted i.lead i.digits j.lead j.digits := by
  intro hshifted
  obtain ⟨c, hc, hdigit⟩ := isDigit_of_shifted hshifted
  obtain ⟨d, hd, hother⟩ := hj
  obtain rfl : d = c := Option.some.inj ((getLast?_lead hd).symm.trans hc)
  rw [hother] at hdigit
  cases hdigit

theorem Interpolation.not_confusable_of_property
    (hi : ∃ c, i.property.toList.getLast? = some c ∧ c.isDigit = false)
    (hj : ∃ c, j.property.toList.getLast? = some c ∧ c.isDigit = false) : ¬ i.Confusable j := by
  rintro (hshifted | hshifted)
  · exact not_shifted_of_property hj hshifted
  · exact not_shifted_of_property hi hshifted

end Names

/-! ## The expressions of a group -/

/-- The variables of declarations are named and set as their run-time parts say. -/
theorem map_vars_declaredBy (salt : String) (occurrences : List Occurrence) :
    ((declaredBy salt occurrences).vars.map fun v => (v.name, v.expression)) =
      (occurrences.flatMap Occurrence.interpolations).map fun i => (i.name, i.ref.source) := by
  have hone : ∀ p : Occurrence, (p.vars.map fun v => (v.name, v.expression)) =
      p.interpolations.map fun i => (i.name, i.ref.source) := by
    intro p
    rw [Occurrence.vars, map_vars_valueText, Occurrence.interpolations, List.map_map]
    rfl
  change (occurrences.flatMap Occurrence.vars).map _ = _
  rw [List.map_flatMap, List.map_flatMap]
  simp only [hone]

/-- The last variable of a name is set to the expression of the last run-time part of this name. -/
theorem expression_getLast?_declaredBy (salt : String) (occurrences : List Occurrence)
    (name : String) :
    (((declaredBy salt occurrences).vars.filter (·.name = name)).getLast?.map (·.expression)) =
      (((occurrences.flatMap Occurrence.interpolations).filter (·.name = name)).getLast?.map
        (·.ref.source)) := by
  have hpairs := congrArg
    (fun pairs : List (String × SourceRef) => ((pairs.filter (·.1 = name)).getLast?.map Prod.snd))
    (map_vars_declaredBy salt occurrences)
  simp only [List.filter_map, List.getLast?_map, Option.map_map] at hpairs
  exact hpairs

namespace Block

variable {salt : String} {block : Block} {i : Interpolation}

theorem surviving_subset : block.surviving salt ⊆ block.interpolations := by
  intro i hi
  obtain ⟨p, hp, hip⟩ := List.mem_flatMap.mp hi
  exact List.mem_flatMap.mpr ⟨p, (List.mem_filter.mp hp).1, hip⟩

/-- A run-time part that is left has one variable, set to the expression of the last part of its
name. -/
theorem exists_expression (hi : i ∈ block.surviving salt) :
    ∃ v, (block.atomize salt).vars.filter (·.name = i.name) = [v] ∧
      ((block.interpolations.filter (·.name = i.name)).getLast?.map (·.ref.source)) =
        some v.expression := by
  obtain ⟨p, hp, hip⟩ := List.mem_flatMap.mp hi
  obtain ⟨hoccurs, hany⟩ := List.mem_filter.mp hp
  obtain ⟨rule, hrule, hkept⟩ := List.any_eq_true.mp hany
  obtain ⟨ref, href, rfl⟩ := List.mem_map.mp hip
  rw [block.atomize_eq, decide_eq_true_eq] at hkept
  obtain ⟨v, hv, hlast⟩ := exists_filter_vars_eq_singleton hoccurs href hrule hkept
  refine ⟨v, block.atomize_eq salt ▸ hv, ?_⟩
  rw [interpolations, ← expression_getLast?_declaredBy salt]
  exact congrArg (Option.map _) hlast

/-- The run-time parts that share a variable with a given one. -/
theorem filter_name_eq (hslots : (block.refs.map (·.slot)).Nodup)
    (hfree : block.NamesCollisionFree) (hi : i ∈ block.interpolations) :
    block.interpolations.filter (·.name = i.name) =
      block.interpolations.filter fun j => j = i ∨ i.Confusable j := by
  refine List.filter_congr fun j hj => ?_
  rw [decide_eq_decide, eq_comm, Interpolation.name_eq_iff hslots hfree hi hj, eq_comm]

theorem keepsExpressions_iff (hslots : (block.refs.map (·.slot)).Nodup)
    (hfree : block.NamesCollisionFree) :
    block.KeepsExpressions salt ↔ ∀ i ∈ block.surviving salt,
      ((block.interpolations.filter fun j => j = i ∨ i.Confusable j).getLast?.map (·.ref.source)) =
        some i.ref.source := by
  refine forall₂_congr fun i hi => ?_
  obtain ⟨v, hv, hlast⟩ := exists_expression hi
  rw [← filter_name_eq hslots hfree (surviving_subset hi), hlast, Option.some.injEq]
  constructor
  · rintro ⟨w, hw, hexpression⟩
    obtain rfl : v = w := List.singleton_inj.mp (hv.symm.trans hw)
    exact hexpression
  · intro hexpression
    exact ⟨v, hv, hexpression⟩

theorem keepsExpressions_of_not_confusable (hslots : (block.refs.map (·.slot)).Nodup)
    (hfree : block.NamesCollisionFree)
    (h : ∀ i ∈ block.interpolations, ∀ j ∈ block.interpolations, ¬ i.Confusable j) :
    block.KeepsExpressions salt := by
  rw [keepsExpressions_iff hslots hfree]
  intro i hi
  have hmem : i ∈ block.interpolations := surviving_subset hi
  have hself : (block.interpolations.filter fun j => j = i ∨ i.Confusable j) =
      block.interpolations.filter (· = i) := by
    refine List.filter_congr fun j hj => ?_
    rw [decide_eq_decide]
    exact or_iff_left (h i hmem j hj)
  have hown : i ∈ block.interpolations.filter (· = i) :=
    List.mem_filter.mpr ⟨hmem, decide_eq_true rfl⟩
  obtain ⟨last, hlast⟩ := Option.isSome_iff_exists.mp
    (List.getLast?_isSome.mpr (List.ne_nil_of_mem hown))
  have hsame : last = i := of_decide_eq_true (List.mem_filter.mp (List.mem_of_getLast? hlast)).2
  rw [hself, hlast, hsame]
  rfl

/-- **Interpolated expressions.**  Take a block whose run-time parts have distinct slots, with names
that the hash tells apart.  Two of its parts, each in its place, share a variable iff they are one
part in one place or are confusable.  Every part that is left keeps its own expression iff the last
of those that share its variable has the same expression; so no expression is lost if no two parts
are confusable, in particular if no property with a run-time part is empty or ends in a digit. -/
theorem atomize_expressions (salt : String) (block : Block)
    (hslots : (block.refs.map (·.slot)).Nodup) (hfree : block.NamesCollisionFree) :
    (∀ i ∈ block.interpolations, ∀ j ∈ block.interpolations,
        (i.name = j.name ↔ i = j ∨ i.Confusable j)) ∧
      (block.KeepsExpressions salt ↔ ∀ i ∈ block.surviving salt,
        ((block.interpolations.filter fun j => j = i ∨ i.Confusable j).getLast?.map
          (·.ref.source)) = some i.ref.source) ∧
      ((∀ i ∈ block.interpolations, ∀ j ∈ block.interpolations, ¬ i.Confusable j) →
        block.KeepsExpressions salt) ∧
      ((∀ i ∈ block.interpolations,
          ∃ c, i.property.toList.getLast? = some c ∧ c.isDigit = false) →
        block.KeepsExpressions salt) := by
  refine ⟨fun i hi j hj => Interpolation.name_eq_iff hslots hfree hi hj,
    keepsExpressions_iff hslots hfree, keepsExpressions_of_not_confusable hslots hfree, ?_⟩
  intro hproperties
  refine keepsExpressions_of_not_confusable hslots hfree fun i hi j hj => ?_
  exact Interpolation.not_confusable_of_property (hproperties i hi) (hproperties j hj)

/-- A custom property that ends in a digit, under two selectors, and another one in print. -/
def numberedLevels : Block :=
  .rule ["&:hover", "& .x1"] (.declaration ⟨"--x1", [.dynamic ⟨⟨Span.none, "low"⟩, 1⟩], false⟩ .nil)
    (.atRule "media" "print"
      (.declaration ⟨"--x2", [.dynamic ⟨⟨Span.none, "high"⟩, 11⟩, .text "px"], false⟩ .nil) .nil)

/-- The parts have three variables, each with its own expression. -/
theorem atomize_expressions_numberedLevels :
    (numberedLevels.refs.map (·.slot)).Nodup ∧ numberedLevels.NamesCollisionFree ∧
      ((numberedLevels.surviving "").map (·.ref.source.text)) = ["low", "low", "high"] ∧
      numberedLevels.KeepsExpressions "" := by
  have hslots : (numberedLevels.refs.map (·.slot)).Nodup := by decide +kernel
  have hfree : numberedLevels.NamesCollisionFree := by decide +kernel
  refine ⟨hslots, hfree, by decide +kernel, ?_⟩
  exact (atomize_expressions "" numberedLevels hslots hfree).2.2.1 (by decide +kernel)

/-- Slot 1 after a property that ends in 1 reads like slot 11 after the property without it.  The
two parts share a variable, and the first expression is lost. -/
theorem expression_lost :
    let block : Block := .declaration ⟨"--x1", [.dynamic ⟨⟨Span.none, "a"⟩, 1⟩], false⟩
      (.declaration ⟨"--x", [.dynamic ⟨⟨Span.none, "b"⟩, 11⟩], false⟩ .nil)
    (block.refs.map (·.slot)).Nodup ∧ block.NamesCollisionFree ∧
      ((block.atomize "").rules.map AtomicRule.declaration) =
        ["--x1:var(--_n4e07j)", "--x:var(--_n4e07j)"] ∧
      ((block.atomize "").vars.map fun v => (v.name, v.expression.text)) = [("--_n4e07j", "b")] ∧
      ((block.surviving "").map fun i => (i.name, i.ref.source.text)) =
        [("--_n4e07j", "a"), ("--_n4e07j", "b")] ∧
      ¬ block.KeepsExpressions "" := by
  intro block
  have hslots : (block.refs.map (·.slot)).Nodup := by decide +kernel
  have hfree : block.NamesCollisionFree := by decide +kernel
  refine ⟨hslots, hfree, by decide +kernel, by decide +kernel, by decide +kernel, ?_⟩
  rw [keepsExpressions_iff hslots hfree]
  decide +kernel

end Block

end AtomicStyle

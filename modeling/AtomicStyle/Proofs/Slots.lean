import AtomicStyle.Proofs.Atomizing

/-!
# What a slot stands for

The slot of a class name is made from one text: the label of the at-rules, the selector and the
property in a row, with nothing between them.  Moving a boundary leaves the text as it is, so rules
with different targets can have one slot, and composition then lets one of them override the other.

Results:
1. `append_eq_append_iff_shifted`: two texts in a row are the same as two others.
2. `slotSeed_eq_iff`: which rules have one seed.
3. `confusable_iff_of_atRules_eq`: inside the same at-rules, only the boundary between selector and
   property can move.
4. `overriding_iff`: composition overrides by target iff no two rules are confusable.
-/

namespace AtomicStyle

open AtomicStyle.Text

/-! ## Texts in a row -/

/-- A text that is cut later by the second pair than by the first one. -/
def Shifted (first second first' second' : String) : Prop :=
  ∃ piece, piece ≠ "" ∧ first' = first ++ piece ∧ second = piece ++ second'

theorem shifted_iff {first second first' second' : String} :
    Shifted first second first' second' ↔ first ≠ first' ∧ first.toList <+: first'.toList ∧
      first ++ second = first' ++ second' := by
  constructor
  · rintro ⟨piece, hpiece, rfl, rfl⟩
    refine ⟨fun heq => hpiece ?_, ?_, (String.append_assoc ..).symm⟩
    · have hlength := congrArg String.length heq
      rw [String.length_append] at hlength
      rw [← String.length_eq_zero_iff]
      omega
    · rw [String.toList_append]
      exact List.prefix_append _ _
  · rintro ⟨hne, ⟨piece, hpiece⟩, heq⟩
    have hfirst : first' = first ++ String.ofList piece := by
      rw [← String.toList_inj, String.toList_append, String.toList_ofList, hpiece]
    refine ⟨String.ofList piece, ?_, hfirst, ?_⟩
    · rintro hempty
      rw [hempty, String.append_empty] at hfirst
      exact hne hfirst.symm
    · rw [hfirst, String.append_assoc] at heq
      exact String.append_right_inj first |>.mp heq

instance (first second first' second' : String) : Decidable (Shifted first second first' second') :=
  decidable_of_iff _ shifted_iff.symm

/-- Two texts in a row are the same as two others iff both are the same, or the cut is at another
place. -/
theorem append_eq_append_iff_shifted {first second first' second' : String} :
    first ++ second = first' ++ second' ↔ first = first' ∧ second = second' ∨
      Shifted first second first' second' ∨ Shifted first' second' first second := by
  constructor
  · intro heq
    by_cases hfirst : first = first'
    · subst hfirst
      exact Or.inl ⟨rfl, String.append_right_inj first |>.mp heq⟩
    · have hchars := congrArg String.toList heq
      rw [String.toList_append, String.toList_append] at hchars
      right
      rcases List.append_eq_append_iff.mp hchars with ⟨piece, hpiece, -⟩ | ⟨piece, hpiece, -⟩
      · exact Or.inl (shifted_iff.mpr ⟨hfirst, ⟨piece, hpiece.symm⟩, heq⟩)
      · exact Or.inr (shifted_iff.mpr ⟨Ne.symm hfirst, ⟨piece, hpiece.symm⟩, heq.symm⟩)
  · rintro (⟨rfl, rfl⟩ | hshifted | hshifted)
    · rfl
    · exact (shifted_iff.mp hshifted).2.2
    · exact (shifted_iff.mp hshifted).2.2.symm

/-! ## Seeds -/

namespace AtomicRule

/-- The text before the property in the seed of a slot. -/
def lead (rule : AtomicRule) : String :=
  rule.context.label ++ rule.context.selector

/-- Two rules with different targets whose labels, selectors and properties give one text. -/
def Confusable (rule other : AtomicRule) : Prop :=
  rule.context ≠ other.context ∧ rule.lead = other.lead ∧ rule.property = other.property ∨
    Shifted rule.lead rule.property other.lead other.property ∨
    Shifted other.lead other.property rule.lead rule.property

instance (rule other : AtomicRule) : Decidable (rule.Confusable other) :=
  inferInstanceAs (Decidable (_ ∨ _ ∨ _))

theorem target_ne_of_confusable {rule other : AtomicRule} (h : rule.Confusable other) :
    rule.target ≠ other.target := by
  intro htarget
  obtain ⟨hcontext, -⟩ := Prod.mk.inj htarget
  have hlead : rule.lead = other.lead := by rw [lead, lead, hcontext]
  rcases h with ⟨hne, -, -⟩ | hshifted | hshifted
  · exact hne hcontext
  · exact (shifted_iff.mp hshifted).1 hlead
  · exact (shifted_iff.mp hshifted).1 hlead.symm

end AtomicRule

/-- Two rules have one seed iff they have one target or are confusable. -/
theorem slotSeed_eq_iff (salt : String) (rule other : AtomicRule) :
    slotSeed salt rule.context rule.property = slotSeed salt other.context other.property ↔
      rule.target = other.target ∨ rule.Confusable other := by
  have hseed : ∀ r : AtomicRule, slotSeed salt r.context r.property =
      salt ++ (r.lead ++ r.property) := by
    intro r
    rw [slotSeed, AtomicRule.lead, String.append_assoc, String.append_assoc, String.append_assoc]
  rw [hseed, hseed, String.append_right_inj, append_eq_append_iff_shifted]
  constructor
  · rintro (⟨hlead, hproperty⟩ | hshifted)
    · by_cases hcontext : rule.context = other.context
      · exact Or.inl (Prod.ext hcontext hproperty)
      · exact Or.inr (Or.inl ⟨hcontext, hlead, hproperty⟩)
    · exact Or.inr (Or.inr hshifted)
  · rintro (htarget | ⟨-, hsame⟩ | hshifted)
    · obtain ⟨hcontext, hproperty⟩ := Prod.mk.inj htarget
      exact Or.inl ⟨by rw [AtomicRule.lead, AtomicRule.lead, hcontext], hproperty⟩
    · exact Or.inl hsame
    · exact Or.inr hshifted

theorem shifted_append_left {before first second first' second' : String} :
    Shifted (before ++ first) second (before ++ first') second' ↔
      Shifted first second first' second' := by
  unfold Shifted
  simp only [String.append_assoc, String.append_right_inj]

/-- Inside the same at-rules, only the boundary between selector and property can move. -/
theorem confusable_iff_of_atRules_eq {rule other : AtomicRule}
    (h : rule.context.atRules = other.context.atRules) :
    rule.Confusable other ↔
      Shifted rule.context.selector rule.property other.context.selector other.property ∨
        Shifted other.context.selector other.property rule.context.selector rule.property := by
  have hlabel : rule.context.label = other.context.label := by
    rw [Context.label, Context.label, h]
  have hcontext : rule.lead = other.lead → rule.context = other.context := by
    intro hlead
    rw [AtomicRule.lead, AtomicRule.lead, hlabel, String.append_right_inj] at hlead
    cases hrule : rule.context with
    | mk atRules selector =>
      cases hother : other.context with
      | mk atRules' selector' =>
        rw [hrule, hother] at h hlead
        exact congrArg₂ Context.mk h hlead
  have hleads : ¬ (rule.context ≠ other.context ∧ rule.lead = other.lead ∧
      rule.property = other.property) := fun ⟨hne, hlead, _⟩ => hne (hcontext hlead)
  rw [AtomicRule.Confusable, or_iff_right hleads, AtomicRule.lead, AtomicRule.lead, hlabel,
    shifted_append_left, shifted_append_left]

/-! ## Overriding -/

/-- The hashes tell apart the different seeds of some rules. -/
def SlotsCollisionFree (salt : String) (rules : List AtomicRule) : Prop :=
  ∀ rule ∈ rules, ∀ other ∈ rules,
    Digest.token (slotSeed salt rule.context rule.property) =
        Digest.token (slotSeed salt other.context other.property) →
      slotSeed salt rule.context rule.property = slotSeed salt other.context other.property

instance (salt : String) (rules : List AtomicRule) : Decidable (SlotsCollisionFree salt rules) :=
  inferInstanceAs (Decidable (∀ rule ∈ rules, ∀ other ∈ rules, _ → _))

/-- However the class names of some rules are put into lists, composing the lists leaves the last rule
of each target, and takes away no other. -/
def OverridesByTarget (rules : List AtomicRule) : Prop :=
  ∀ chosen ⊆ rules, ∀ lists : List String,
    lists.flatMap wordsOf = chosen.map AtomicRule.className →
      wordsOf (ClassName.compose lists) = (latest AtomicRule.target chosen).map AtomicRule.className

section Overriding

variable {salt : String} {rules : List AtomicRule}

theorem slot_eq_iff (hemitted : ∀ rule ∈ rules, rule.Emitted salt)
    (hfree : SlotsCollisionFree salt rules) {rule other : AtomicRule} (hrule : rule ∈ rules)
    (hother : other ∈ rules) :
    ClassName.slot rule.className = ClassName.slot other.className ↔
      rule.target = other.target ∨ rule.Confusable other := by
  rw [(hemitted rule hrule).named, (hemitted other hother).named, slot_className, slot_className,
    String.append_right_inj, ← slotSeed_eq_iff salt]
  exact ⟨hfree rule hrule other hother, fun hseed => by rw [hseed]⟩

/-- Composition of the class names of rules goes by their slots. -/
theorem wordsOf_compose_className (hemitted : ∀ rule ∈ rules, rule.Emitted salt)
    {lists : List String} (hlists : lists.flatMap wordsOf = rules.map AtomicRule.className) :
    wordsOf (ClassName.compose lists) =
      (latest (fun rule => ClassName.slot rule.className) rules).map AtomicRule.className := by
  have hshown : ∀ rule ∈ rules, ClassName.shown rule.className = rule.className := by
    intro rule hrule
    rw [(hemitted rule hrule).named]
    exact ClassName.shown_of_not_compressed (splitCompressed?_className ..)
  rw [ClassName.wordsOf_compose, ClassName.survivors, hlists, latest_map, List.map_map]
  refine List.map_congr_left fun rule hrule => hshown rule ?_
  exact (latest_sublist _ _).mem hrule

theorem overridesByTarget_of_not_confusable (hemitted : ∀ rule ∈ rules, rule.Emitted salt)
    (hfree : SlotsCollisionFree salt rules)
    (h : ∀ rule ∈ rules, ∀ other ∈ rules, ¬ rule.Confusable other) : OverridesByTarget rules := by
  intro chosen hchosen lists hlists
  have hkeys : latest (fun rule => ClassName.slot rule.className) chosen =
      latest AtomicRule.target chosen := by
    apply latest_congr
    intro rule hrule other hother
    rw [slot_eq_iff hemitted hfree (hchosen hrule) (hchosen hother)]
    exact or_iff_left (h rule (hchosen hrule) other (hchosen hother))
  rw [wordsOf_compose_className (fun rule hrule => hemitted rule (hchosen hrule)) hlists, hkeys]

/-- Of two confusable rules, the one that comes second overrides the other one. -/
theorem not_confusable_of_overridesByTarget (hemitted : ∀ rule ∈ rules, rule.Emitted salt)
    (hfree : SlotsCollisionFree salt rules) (h : OverridesByTarget rules) {rule other : AtomicRule}
    (hrule : rule ∈ rules) (hother : other ∈ rules) : ¬ rule.Confusable other := by
  intro hconfusable
  have hslot := (slot_eq_iff hemitted hfree hrule hother).mpr (Or.inr hconfusable)
  have htarget := AtomicRule.target_ne_of_confusable hconfusable
  have hchosen : [rule, other] ⊆ rules := by
    intro r hr
    rcases List.mem_cons.mp hr with rfl | hr
    · exact hrule
    · rwa [List.mem_singleton.mp hr]
  have hlists : ([rule, other].map AtomicRule.className).flatMap wordsOf =
      [rule, other].map AtomicRule.className := by
    refine flatMap_wordsOf_of_isWord fun name hname => ?_
    obtain ⟨r, hr, rfl⟩ := List.mem_map.mp hname
    rw [(hemitted r (hchosen hr)).named]
    exact isWord_className ..
  have hkept := h [rule, other] hchosen _ hlists
  rw [wordsOf_compose_className (fun r hr => hemitted r (hchosen hr)) hlists] at hkept
  -- by slot one rule is left, by target two
  have hone : latest (fun r : AtomicRule => ClassName.slot r.className) [rule, other] = [other] := by
    rw [latest_cons, if_pos (by simpa using hslot)]
    rfl
  have htwo : latest AtomicRule.target [rule, other] = [rule, other] :=
    latest_of_nodup (by simpa using htarget)
  rw [hone, htwo] at hkept
  cases List.cons.inj hkept with
  | intro _ hrest => cases hrest

end Overriding

/-- **Slots.**  Take rules that atomizing gives, with seeds that the hash tells apart.  Two of them have
one seed iff they have one target or are confusable; inside the same at-rules, they are confusable
iff a piece at the end of one selector is the begin of the other property.  Composition overrides by
target, whichever rules are chosen and however their class names are put into lists, iff no two rules
are confusable. -/
theorem overriding_iff (salt : String) (rules : List AtomicRule)
    (hatomized : ∀ rule ∈ rules, ∃ block : Block, rule ∈ (block.atomize salt).rules)
    (hfree : SlotsCollisionFree salt rules) :
    (∀ rule ∈ rules, ∀ other ∈ rules,
        (slotSeed salt rule.context rule.property = slotSeed salt other.context other.property ↔
          rule.target = other.target ∨ rule.Confusable other) ∧
        (rule.context.atRules = other.context.atRules →
          (rule.Confusable other ↔
            Shifted rule.context.selector rule.property other.context.selector other.property ∨
              Shifted other.context.selector other.property rule.context.selector
                rule.property))) ∧
      (OverridesByTarget rules ↔ ∀ rule ∈ rules, ∀ other ∈ rules, ¬ rule.Confusable other) := by
  have hemitted : ∀ rule ∈ rules, rule.Emitted salt := by
    intro rule hrule
    obtain ⟨block, hblock⟩ := hatomized rule hrule
    exact emitted_of_mem_atomize hblock
  refine ⟨fun rule _ other _ => ⟨slotSeed_eq_iff salt rule other, confusable_iff_of_atRules_eq⟩, ?_⟩
  constructor
  · intro h rule hrule other hother
    exact not_confusable_of_overridesByTarget hemitted hfree h hrule hother
  · exact overridesByTarget_of_not_confusable hemitted hfree

/-- A block with one declaration under a selector. -/
def declarationUnder (selector property value : String) : Block :=
  .rule [selector] (.declaration ⟨property, [.text value], false⟩ .nil) .nil

/-- A color, another one for hovering and a custom property: the later color of the element itself
takes the place of the earlier one, and nothing else does. -/
theorem overriding_iff_colors :
    let blocks := [declarationUnder "&" "color" "red", declarationUnder "&:hover" "color" "red",
      declarationUnder "&" "--color" "red", declarationUnder "&" "color" "blue"]
    let rules := blocks.flatMap fun block => (block.atomize "").rules
    SlotsCollisionFree "" rules ∧ rules.length = 4 ∧
      wordsOf (ClassName.compose (rules.map AtomicRule.className)) =
        (latest AtomicRule.target rules).map AtomicRule.className := by
  intro blocks rules
  have hatomized : ∀ rule ∈ rules, ∃ block : Block, rule ∈ (block.atomize "").rules := by
    intro rule hrule
    obtain ⟨block, -, hblock⟩ := List.mem_flatMap.mp hrule
    exact ⟨block, hblock⟩
  have hfree : SlotsCollisionFree "" rules := by decide +kernel
  refine ⟨hfree, by decide +kernel, ?_⟩
  exact (overriding_iff "" rules hatomized hfree).2.mpr (by decide +kernel) rules
    (List.Subset.refl _) _ (by decide +kernel)

/-- A custom property under a class and a color under a longer class have one slot, so the later one
overrides the other one. -/
theorem longer_class_overrides :
    let first := (declarationUnder "&.card" "--color" "red").atomize ""
    let second := (declarationUnder "&.card--" "color" "blue").atomize ""
    ∃ rule other : AtomicRule, first.rules = [rule] ∧ second.rules = [other] ∧
      rule.context ≠ other.context ∧ rule.property ≠ other.property ∧
      slotSeed "" rule.context rule.property = slotSeed "" other.context other.property ∧
      ClassName.compose [rule.className, other.className] = other.className := by
  refine ⟨⟨⟨[], "&.card"⟩, "--color", "red", false, "_1aj65scu"⟩,
    ⟨⟨[], "&.card--"⟩, "color", "blue", false, "_1aj613q2"⟩, ?_⟩
  decide +kernel

end AtomicStyle

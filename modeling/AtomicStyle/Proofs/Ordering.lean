import AtomicStyle.Proofs.Levels
import Mathlib.Data.Prod.Lex
import Mathlib.Data.String.Basic
import Mathlib.Order.WithBot

/-!
# The order of a stylesheet, level by level

On every level the plain rules come first.  They ascend by their place in the cascade, and rules in
one place stand in the order in which they are first met over the groups, because sorting is stable
and the rules are sorted in that order.  The blocks ascend by name and parameters, or stand in the
order in which a rule of theirs is first met.

Results:
1. `pairwise_mergeSort_of_nodup`: a sorted list keeps the order of equivalent items.
2. `SortOptions.ruleLe_iff_place_le`: the comparison of rules is that of their places.
3. `pairwise_atRules_mergeSort`: sorted at-rules ascend strictly.
4. `ofGroups_order`: the order of a stylesheet.
-/

namespace AtomicStyle

/-! ## Stable sorting -/

/-- Of two items in a sorted list, the first may stand before the second; if the second might stand
before the first too, they stand as in the list that was sorted. -/
theorem pairwise_mergeSort_of_nodup {α : Type} {le : α → α → Bool}
    (htrans : ∀ a b c, le a b = true → le b c = true → le a c = true)
    (htotal : ∀ a b, (le a b || le b a) = true) {items : List α} (hnodup : items.Nodup) :
    (items.mergeSort le).Pairwise fun a b =>
      le a b = true ∧ (le b a = true → Precedes items a b) := by
  have hsorted := List.pairwise_mergeSort htrans htotal items
  have hsame := List.mergeSort_perm items le
  refine pairwise_iff_precedes.mpr fun a b hab => ⟨pairwise_iff_precedes.mp hsorted a b hab, ?_⟩
  intro hle
  have ha : a ∈ items := List.mem_mergeSort.mp (hab.subset (by simp))
  have hb : b ∈ items := List.mem_mergeSort.mp (hab.subset (by simp))
  have hasymm : ¬ Precedes (items.mergeSort le) b a := hab.asymm (hsame.nodup_iff.mpr hnodup)
  have hne : a ≠ b := by
    rintro rfl
    exact hasymm hab
  refine (precedes_or_precedes ha hb hne).resolve_right fun hba => ?_
  exact hasymm (List.pair_sublist_mergeSort htrans htotal hle hba)

/-! ## Places in the cascade -/

namespace SortOptions

/-- The depth of a property among the shorthands; that of a longhand is infinite. -/
def depth (property : String) : WithTop Nat :=
  match Css.shorthandDepth? property with
  | some depth => WithTop.some depth
  | none => ⊤

/-- The place of a rule in the cascade: its bucket, and the depth of its property where shorthands
are sorted. -/
def place (options : SortOptions) (rule : AtomicRule) : Nat ×ₗ WithTop Nat :=
  toLex (rule.bucket.rank, if options.sortShorthand then depth rule.property else WithTop.some 0)

theorem depth_le_depth_iff (p q : String) :
    depth p ≤ depth q ↔ Css.shorthandRank p ≤ Css.shorthandRank q := by
  have hlt : ∀ (property : String) (d : Nat), Css.shorthandDepth? property = some d →
      d < Css.shorthandsByDepth.length := fun property d h =>
    (List.findIdx?_eq_some_iff_findIdx_eq.mp h).1
  unfold depth Css.shorthandRank
  cases hp : Css.shorthandDepth? p with
  | none =>
    cases hq : Css.shorthandDepth? q with
    | none => simp
    | some d =>
      have hd := hlt q d hq
      simpa using hd
  | some c =>
    cases hq : Css.shorthandDepth? q with
    | none =>
      have hc := hlt p c hp
      simpa using Nat.le_of_lt hc
    | some d => simp

/-- Rules are compared by their places. -/
theorem ruleLe_iff_place_le (options : SortOptions) (a b : AtomicRule) :
    options.ruleLe a b = true ↔ options.place a ≤ options.place b := by
  rw [ruleLe_iff, place, place, Prod.Lex.toLex_le_toLex]
  unfold rank
  cases options.sortShorthand with
  | true => simp [depth_le_depth_iff]
  | false => simp

/-! ## At-rules -/

theorem atRuleLe_iff (v w : AtRule) :
    atRuleLe v w = true ↔ toLex (v.name, v.params) ≤ toLex (w.name, w.params) := by
  rw [Prod.Lex.toLex_le_toLex]
  simp only [atRuleLe, Bool.or_eq_true, Bool.and_eq_true, Bool.not_eq_true', decide_eq_true_eq,
    decide_eq_false_iff_not, beq_iff_eq, not_lt]

/-- Different at-rules that are sorted ascend strictly. -/
theorem pairwise_atRules_mergeSort {wrappers : List AtRule} (hnodup : wrappers.Nodup) :
    (wrappers.mergeSort atRuleLe).Pairwise fun v w =>
      toLex (v.name, v.params) < toLex (w.name, w.params) := by
  have hsorted : (wrappers.mergeSort atRuleLe).Pairwise fun v w => atRuleLe v w = true := by
    refine List.pairwise_mergeSort (fun u v w huv hvw => ?_) (fun v w => ?_) wrappers
    · rw [atRuleLe_iff] at huv hvw ⊢
      exact huv.trans hvw
    · rw [Bool.or_eq_true, atRuleLe_iff, atRuleLe_iff]
      exact le_total _ _
  have hdistinct := (List.mergeSort_perm wrappers atRuleLe).nodup_iff.mpr hnodup
  refine (hsorted.and hdistinct).imp fun {v w} h => ?_
  obtain ⟨hle, hne⟩ := h
  refine lt_of_le_of_ne ((atRuleLe_iff v w).mp hle) fun heq => hne ?_
  obtain ⟨hname, hparams⟩ := Prod.mk.inj (toLex.injective heq)
  cases v
  cases w
  exact congrArg₂ AtRule.mk hname hparams

end SortOptions

/-! ## First encounters -/

/-- Where the rule that is the same as the given one is first met. -/
def firstMet (groups : List RuleGroup) (rule : AtomicRule) : Nat :=
  (encountered groups).findIdx (Sheet.identity · = Sheet.identity rule)

/-- Where a rule inside the given at-rules is first met. -/
def firstInside (groups : List RuleGroup) (around : List AtRule) : Nat :=
  (encountered groups).findIdx (around <+: ·.context.atRules)

namespace Sheet

/-- The rules that are arranged stand in the order in which they are first met. -/
theorem pairwise_firstMet (groups : List RuleGroup) :
    (distinctRules groups).Pairwise fun a b => firstMet groups a < firstMet groups b := by
  have hkeys := pairwise_eraseDups_filterMap (fun rule => some (identity rule)) (encountered groups)
  rw [List.filterMap_eq_map', ← map_earliest, List.pairwise_map, ← distinctRules_eq] at hkeys
  unfold firstMet
  simpa only [Option.some.injEq] using hkeys

/-- At-rules that come next on a level stand in the order in which they are first met there. -/
theorem pairwise_firstInside (groups : List RuleGroup) (around : List AtRule) :
    ((distinctRules groups).filterMap (next? around)).eraseDups.Pairwise fun v w =>
      firstInside groups (around ++ [v]) < firstInside groups (around ++ [w]) := by
  have hview : ∀ a b : AtomicRule, identity a = identity b → next? around a = next? around b := by
    intro a b h
    have hcontext : a.context = b.context := congrArg Prod.fst h
    unfold next?
    rw [hcontext]
  rw [distinctRules_eq, eraseDups_filterMap_earliest hview]
  have hshown := pairwise_eraseDups_filterMap (next? around) (encountered groups)
  unfold firstInside
  simpa only [next?_eq_some_iff] using hshown

theorem nodup_distinctRules (groups : List RuleGroup) : (distinctRules groups).Nodup :=
  (nodup_map_earliest identity _).of_map identity

/-- **Order.**  On every level of a stylesheet the plain rules come before the blocks.  They ascend by
their places in the cascade and, within one place, by their first encounters.  The blocks ascend
strictly by name and parameters where at-rules are sorted, and else by the first encounters of what is
inside them. -/
theorem ofGroups_order (options : SortOptions) (groups : List RuleGroup) (level : Level)
    (hlevel : level ∈ (ofGroups options groups).levels) :
    level.content = ofRules level.content.plainRules (ofBlocks level.content.blocks) ∧
    level.content.plainRules.Pairwise (fun a b => options.place a < options.place b ∨
      options.place a = options.place b ∧ firstMet groups a < firstMet groups b) ∧
    (level.content.blocks.map Prod.fst).Pairwise fun v w =>
      if options.sortAtRules then toLex (v.name, v.params) < toLex (w.name, w.params)
      else firstInside groups (level.around ++ [v]) < firstInside groups (level.around ++ [w]) := by
  obtain ⟨hcontent, hplain, hblocks⟩ := (Arranged.of_mem_levels hlevel).content_eq
  refine ⟨hcontent, ?_, ?_⟩
  · rw [hplain]
    have hsub : ((distinctRules groups).filter (·.context.atRules = level.around)).Sublist
        (distinctRules groups) := List.filter_sublist
    have hsorted := pairwise_mergeSort_of_nodup SortOptions.ruleLe_trans options.ruleLe_total
      ((nodup_distinctRules groups).sublist hsub)
    refine hsorted.imp fun {a b} h => ?_
    obtain ⟨hle, hstable⟩ := h
    rw [options.ruleLe_iff_place_le] at hle hstable
    rcases lt_or_eq_of_le hle with hlt | heq
    · exact Or.inl hlt
    · have hab := (hstable (le_of_eq heq.symm)).trans hsub
      exact Or.inr ⟨heq, pairwise_iff_precedes.mp (pairwise_firstMet groups) a b hab⟩
  · rw [hblocks]
    unfold SortOptions.arrangeAtRules
    cases options.sortAtRules with
    | true => exact SortOptions.pairwise_atRules_mergeSort (nodup_eraseDups _)
    | false => exact pairwise_firstInside groups level.around

/-- Inside the block for print, where a shorthand is met after a longhand that it covers. -/
theorem ofGroups_order_print :
    ∃ level ∈ (ofGroups {} printGroups).levels, level.around = [⟨"media", "print"⟩] ∧
      (∀ property ∈ ["border-top-color", "border", "color"],
        ∃ rule ∈ level.content.plainRules, rule.property = property) ∧
      level.content.plainRules.Pairwise fun a b =>
        SortOptions.place {} a < SortOptions.place {} b ∨
          SortOptions.place {} a = SortOptions.place {} b ∧
            firstMet printGroups a < firstMet printGroups b := by
  obtain ⟨rule, hrule, hchain⟩ : ∃ rule ∈ distinctRules printGroups,
      rule.context.atRules = [⟨"media", "print"⟩] := by
    decide +kernel
  obtain ⟨level, hlevel, haround⟩ := exists_level_arrange {} hrule
  refine ⟨level, hlevel, haround.trans hchain, fun property hproperty => ?_,
    (ofGroups_order {} printGroups level hlevel).2.1⟩
  have hall : ∀ property ∈ ["border-top-color", "border", "color"],
      ∃ rule ∈ distinctRules printGroups,
        rule.context.atRules = [⟨"media", "print"⟩] ∧ rule.property = property := by
    decide +kernel
  obtain ⟨other, hother, hsame, hname⟩ := hall property hproperty
  refine ⟨other, ?_, hname⟩
  rw [(Arranged.of_mem_levels hlevel).content_eq.2.1, List.mem_mergeSort, List.mem_filter]
  exact ⟨hother, decide_eq_true (hsame.trans (haround.trans hchain).symm)⟩

end Sheet

end AtomicStyle

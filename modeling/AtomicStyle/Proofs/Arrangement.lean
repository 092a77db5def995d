import AtomicStyle.Sheet.Arrange
import AtomicStyle.Proofs.Distinct
import Mathlib.Data.List.Perm.Basic

/-!
# Arrangement loses nothing

Every level of a sheet holds the rules without further at-rules and one block for each at-rule that
is met on it.  Each rule of the level is in exactly one of these places, so an arrangement is a
permutation of the rules it was given.

Results:
1. `perm_level`: how the rules of one level are distributed.
2. `perm_rules_arrange`: the rules of an arrangement.
3. `perm_rules_ofGroups`: the rules of a stylesheet.
-/

namespace AtomicStyle

theorem nodup_eraseDups {α : Type} [BEq α] [LawfulBEq α] (items : List α) :
    items.eraseDups.Nodup := by
  induction hn : items.length using Nat.strongRecOn generalizing items with
  | ind n ih =>
    cases items with
    | nil => exact List.nodup_nil
    | cons item rest =>
      rw [List.eraseDups_cons, List.nodup_cons]
      refine ⟨fun hmem => ?_, ih _ ?_ _ rfl⟩
      · have hfilter := (List.mem_filter.mp (List.mem_eraseDups.mp hmem)).2
        simp at hfilter
      · have hle := List.length_filter_le (fun other => !other == item) rest
        rw [← hn, List.length_cons]
        omega

/-! ## The order of rules -/

namespace SortOptions

theorem ruleLe_iff (options : SortOptions) (a b : AtomicRule) :
    options.ruleLe a b = true ↔ (options.rank a).1 < (options.rank b).1 ∨
      (options.rank a).1 = (options.rank b).1 ∧ (options.rank a).2 ≤ (options.rank b).2 := by
  simp [ruleLe]

theorem ruleLe_trans {options : SortOptions} (a b c : AtomicRule) (h : options.ruleLe a b = true)
    (h' : options.ruleLe b c = true) : options.ruleLe a c = true := by
  rw [ruleLe_iff] at h h' ⊢
  omega

theorem ruleLe_total (options : SortOptions) (a b : AtomicRule) :
    (options.ruleLe a b || options.ruleLe b a) = true := by
  rw [Bool.or_eq_true, ruleLe_iff, ruleLe_iff]
  omega

theorem ruleLe_eq_false_of_rank_ne (options : SortOptions) {a b : AtomicRule}
    (h : options.ruleLe a b = true) (hne : options.rank a ≠ options.rank b) :
    options.ruleLe b a = false := by
  rw [ruleLe_iff] at h
  rw [Bool.eq_false_iff, ne_eq, ruleLe_iff]
  intro h'
  exact hne (Prod.ext (by omega) (by omega))

/-- Buckets come before anything else. -/
theorem bucket_rank_lt {options : SortOptions} {a b : AtomicRule} (h : options.ruleLe a b = true)
    (hne : a.bucket ≠ b.bucket) : a.bucket.rank < b.bucket.rank := by
  rw [ruleLe_iff] at h
  have hrank := mt Bucket.rank_inj.mp hne
  simp only [rank] at h
  omega

end SortOptions

namespace Sheet

theorem rules_ofRules (rules : List AtomicRule) (rest : Sheet) :
    (ofRules rules rest).rules = rules ++ rest.rules := by
  induction rules with
  | nil => rfl
  | cons r others ih => exact congrArg (r :: ·) ih

theorem rules_ofBlocks (blocks : List (AtRule × Sheet)) :
    (ofBlocks blocks).rules = blocks.flatMap (·.2.rules) := by
  induction blocks with
  | nil => rfl
  | cons block others ih => exact congrArg (block.2.rules ++ ·) ih

/-! ## One level -/

theorem mem_wrappers {placed : List Placed} {p : Placed} (hp : p ∈ placed) {wrapper : AtRule}
    (h : p.around.head? = some wrapper) : wrapper ∈ wrappers placed :=
  List.mem_eraseDups.mpr (List.mem_filterMap.mpr ⟨p, hp, h⟩)

/-- The rules of a level, given at-rules that cover it: those in no further at-rule, and then those
of each block. -/
theorem perm_level {keys : List AtRule} (hnodup : keys.Nodup) {placed : List Placed}
    (hkeys : ∀ p ∈ placed, ∀ wrapper, p.around.head? = some wrapper → wrapper ∈ keys) :
    (plain placed ++ keys.flatMap fun wrapper => (inside wrapper placed).map Placed.rule).Perm
      (placed.map Placed.rule) := by
  -- the outermost at-rule of a rule, if any, is the key by which the rules are gathered
  have hnodup' : (none :: keys.map some).Nodup :=
    List.nodup_cons.mpr ⟨by simp, hnodup.map fun _ _ => Option.some.inj⟩
  have hkeys' : ∀ p ∈ placed, p.around.head? ∈ none :: keys.map some := by
    intro p hp
    cases hhead : p.around.head? with
    | none => exact List.mem_cons_self
    | some wrapper =>
      exact List.mem_cons_of_mem _ (List.mem_map_of_mem (hkeys p hp wrapper hhead))
  have hperm := (perm_flatMap_filter hnodup' hkeys').map Placed.rule
  rw [List.flatMap_cons, List.map_append, List.flatMap_map, List.map_flatMap] at hperm
  have hplain : plain placed = (placed.filter (·.around.head? = none)).map Placed.rule := by
    unfold plain
    congr 2
    funext p
    cases p.around <;> rfl
  have hinside : ∀ wrapper, (inside wrapper placed).map Placed.rule =
      (placed.filter (·.around.head? = some wrapper)).map Placed.rule := by
    intro wrapper
    simp [inside, Function.comp_def, Bool.beq_eq_decide_eq]
  simp only [hinside, hplain]
  exact hperm

/-! ## All levels -/

/-- Rules with no at-rules around them are all plain. -/
theorem plain_of_around_nil {placed : List Placed} (h : ∀ p ∈ placed, p.around = []) :
    plain placed = placed.map Placed.rule := by
  have hall : placed.filter (·.around.isEmpty) = placed := by
    rw [List.filter_eq_self]
    intro p hp
    rw [h p hp]
    rfl
  rw [plain, hall]

theorem around_of_mem_inside {wrapper : AtRule} {placed : List Placed} {p : Placed}
    (h : p ∈ inside wrapper placed) :
    ∃ q ∈ placed, q.around = wrapper :: p.around ∧ q.rule = p.rule := by
  obtain ⟨q, hq, rfl⟩ := List.mem_map.mp h
  obtain ⟨hmem, hhead⟩ := List.mem_filter.mp hq
  refine ⟨q, hmem, ?_, rfl⟩
  cases haround : q.around with
  | nil => simp [haround] at hhead
  | cons outer rest =>
    simp only [haround, List.head?_cons, Option.some_beq_some, beq_iff_eq] at hhead
    rw [hhead]
    rfl

/-- Inside a block one at-rule less is left around each rule. -/
theorem length_around_inside {placed : List Placed} {depth : Nat}
    (h : ∀ p ∈ placed, p.around.length ≤ depth) {wrapper : AtRule} {p : Placed}
    (hp : p ∈ inside wrapper placed) : p.around.length < depth := by
  obtain ⟨q, hq, haround, -⟩ := around_of_mem_inside hp
  have hlength := h q hq
  rw [haround, List.length_cons] at hlength
  exact hlength

theorem perm_arrangeAtRules (options : SortOptions) (keys : List AtRule) :
    (options.arrangeAtRules keys).Perm keys := by
  unfold SortOptions.arrangeAtRules
  split
  · exact List.mergeSort_perm keys _
  · exact List.Perm.refl keys

/-- If no more at-rules are around the rules than the given depth, each rule is placed once. -/
theorem perm_rules_arrangeFrom (options : SortOptions) (depth : Nat) (placed : List Placed)
    (h : ∀ p ∈ placed, p.around.length ≤ depth) :
    (arrangeFrom options depth placed).rules.Perm (placed.map Placed.rule) := by
  induction depth generalizing placed with
  | zero =>
    have hplain : plain placed = placed.map Placed.rule :=
      plain_of_around_nil fun p hp => List.eq_nil_of_length_eq_zero (Nat.le_zero.mp (h p hp))
    rw [arrangeFrom, rules_ofRules, rules, List.append_nil, ← hplain]
    exact List.mergeSort_perm _ _
  | succ depth ih =>
    have hinner : ∀ wrapper, (arrangeFrom options depth (inside wrapper placed)).rules.Perm
        ((inside wrapper placed).map Placed.rule) := by
      exact fun wrapper => ih _ fun p hp => Nat.le_of_lt_succ (length_around_inside h hp)
    rw [arrangeFrom, rules_ofRules, rules_ofBlocks, List.flatMap_map]
    have hblocks : ((options.arrangeAtRules (wrappers placed)).flatMap fun wrapper =>
          (arrangeFrom options depth (inside wrapper placed)).rules).Perm
        ((wrappers placed).flatMap fun wrapper => (inside wrapper placed).map Placed.rule) :=
      List.Perm.flatMap (perm_arrangeAtRules options _) fun wrapper _ => hinner wrapper
    have hcover : ∀ p ∈ placed, ∀ wrapper, p.around.head? = some wrapper →
        wrapper ∈ wrappers placed := fun p hp wrapper hhead => mem_wrappers hp hhead
    have hlevel := perm_level (nodup_eraseDups _) hcover
    exact ((List.mergeSort_perm _ _).append hblocks).trans hlevel

/-- What is arranged inside an at-rule that is met is not empty. -/
theorem rules_arrangeFrom_inside_ne_nil (options : SortOptions) {depth : Nat} {placed : List Placed}
    {wrapper : AtRule} (hmet : wrapper ∈ wrappers placed)
    (h : ∀ p ∈ inside wrapper placed, p.around.length ≤ depth) :
    (arrangeFrom options depth (inside wrapper placed)).rules ≠ [] := by
  obtain ⟨p, hp, hhead⟩ := List.mem_filterMap.mp (List.mem_eraseDups.mp hmet)
  have hmem : { p with around := p.around.tail } ∈ inside wrapper placed :=
    List.mem_map.mpr ⟨p, List.mem_filter.mpr ⟨hp, beq_iff_eq.mpr hhead⟩, rfl⟩
  have hperm := perm_rules_arrangeFrom options depth _ h
  exact List.ne_nil_of_mem (hperm.mem_iff.mpr (List.mem_map_of_mem hmem))

theorem le_foldl_max (numbers : List Nat) (start : Nat) :
    start ≤ numbers.foldl max start ∧ ∀ n ∈ numbers, n ≤ numbers.foldl max start := by
  induction numbers generalizing start with
  | nil => exact ⟨Nat.le_refl _, fun _ h => absurd h List.not_mem_nil⟩
  | cons m rest ih =>
    obtain ⟨hstart, hrest⟩ := ih (max start m)
    rw [List.foldl_cons]
    refine ⟨by omega, fun n hn => ?_⟩
    rcases List.mem_cons.mp hn with rfl | hn
    · omega
    · exact hrest n hn

/-- The rules of an arrangement are the rules that were given. -/
theorem perm_rules_arrange (options : SortOptions) (rules : List AtomicRule) :
    (arrange options rules).rules.Perm rules := by
  have hperm := perm_rules_arrangeFrom options
    ((rules.map (·.context.atRules.length)).foldl max 0)
    (rules.map fun rule => ⟨rule.context.atRules, rule⟩) ?_
  · rw [List.map_map] at hperm
    have hid : rules.map (Placed.rule ∘ fun rule => ⟨rule.context.atRules, rule⟩) = rules :=
      List.map_id' rules
    rwa [hid] at hperm
  · intro p hp
    obtain ⟨rule, hrule, rfl⟩ := List.mem_map.mp hp
    exact (le_foldl_max _ 0).2 _ (List.mem_map_of_mem hrule)

/-- The rules of a stylesheet are the rules of the groups that were kept, each once. -/
theorem perm_rules_ofGroups (options : SortOptions) (groups : List RuleGroup) :
    (ofGroups options groups).rules.Perm (distinctRules groups) :=
  perm_rules_arrange options (distinctRules groups)

/-- A stylesheet has no other rules than those of its groups. -/
theorem exists_group_of_mem_ofGroups {options : SortOptions} {groups : List RuleGroup}
    {rule : AtomicRule} (h : rule ∈ (ofGroups options groups).rules) :
    ∃ g ∈ groups, rule ∈ g.rules := by
  have hdistinct := (perm_rules_ofGroups options groups).mem_iff.mp h
  obtain ⟨g, hg, hrule⟩ := List.mem_flatMap.mp ((earliest_sublist _ _).mem hdistinct)
  exact ⟨g, (earliest_sublist _ _).mem hg, hrule⟩

end Sheet

end AtomicStyle

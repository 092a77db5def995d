import AtomicStyle.Proofs.Ordering

/-!
# Arranging twice

A sheet is tidy if on each of its levels the plain rules are sorted and come first, and the blocks have
different at-rules, in order, and rules inside.  What stands in a tidy sheet determines it: if its rules
are taken out in output order and arranged again, the plain rules of each level are sorted already, the
at-rules are met in the order of the blocks, and none is missing, since every block has a rule.

Results:
1. `plain_placements`, `wrappers_placements`, `inside_placements`: what is met on a level of a tidy
   sheet.
2. `arrangeFrom_placements`: a tidy sheet is the arrangement of its own rules.
3. `tidy_arrangeFrom`: every arrangement is tidy.
4. `ofGroups_rules_ofGroups`: a stylesheet is the arrangement of its own rules.
-/

namespace AtomicStyle

/-! ## Keyed parts in a row -/

section Parts

variable {κ α β : Type} [DecidableEq κ] {parts : List (κ × β)}

/-- The keys of parts that are not empty, each repeated for the items of its part. -/
theorem eraseDups_flatMap_const {items : κ × β → List α} (hnodup : (parts.map Prod.fst).Nodup)
    (hitems : ∀ part ∈ parts, items part ≠ []) :
    (parts.flatMap fun part => (items part).map fun _ => part.1).eraseDups =
      parts.map Prod.fst := by
  induction parts with
  | nil => rfl
  | cons part rest ih =>
    obtain ⟨hpart, hrest⟩ := List.nodup_cons.mp hnodup
    obtain ⟨item, others, hcons⟩ := List.exists_cons_of_ne_nil (hitems part List.mem_cons_self)
    have hothers : (others.map fun _ => part.1).filter (fun key => !key == part.1) = [] := by
      simp
    have hkept : (rest.flatMap fun other => (items other).map fun _ => other.1).filter
        (fun key => !key == part.1) = rest.flatMap fun other => (items other).map fun _ => other.1 := by
      refine List.filter_eq_self.mpr fun key hkey => ?_
      obtain ⟨other, hother, hmem⟩ := List.mem_flatMap.mp hkey
      obtain ⟨-, -, rfl⟩ := List.mem_map.mp hmem
      have hne : other.1 ≠ part.1 := fun heq => hpart (heq ▸ List.mem_map_of_mem hother)
      simp [hne]
    rw [List.flatMap_cons, hcons, List.map_cons, List.cons_append, List.eraseDups_cons,
      List.filter_append, hothers, hkept, List.nil_append, List.map_cons,
      ih hrest fun other hother => hitems other (List.mem_cons_of_mem _ hother)]

/-- The items of one part, found by its key. -/
theorem filter_flatMap_key {items : κ × β → List α} {key : α → Option κ}
    (hnodup : (parts.map Prod.fst).Nodup)
    (hkey : ∀ part ∈ parts, ∀ item ∈ items part, key item = some part.1) {part : κ × β}
    (hpart : part ∈ parts) :
    (parts.flatMap items).filter (key · == some part.1) = items part := by
  induction parts with
  | nil => cases hpart
  | cons first rest ih =>
    obtain ⟨hfirst, hrest⟩ := List.nodup_cons.mp hnodup
    have hkey' : ∀ other ∈ rest, ∀ item ∈ items other, key item = some other.1 :=
      fun other hother => hkey other (List.mem_cons_of_mem _ hother)
    rw [List.flatMap_cons, List.filter_append]
    rcases List.mem_cons.mp hpart with rfl | hmem
    · have hall : (items part).filter (key · == some part.1) = items part := by
        refine List.filter_eq_self.mpr fun item hitem => ?_
        rw [hkey part List.mem_cons_self item hitem, beq_self_eq_true]
      have hnone : (rest.flatMap items).filter (key · == some part.1) = [] := by
        refine List.filter_eq_nil_iff.mpr fun item hitem => ?_
        obtain ⟨other, hother, hitem⟩ := List.mem_flatMap.mp hitem
        rw [hkey' other hother item hitem, beq_iff_eq]
        intro heq
        exact hfirst (Option.some.inj heq ▸ List.mem_map_of_mem hother)
      rw [hall, hnone, List.append_nil]
    · have hnone : (items first).filter (key · == some part.1) = [] := by
        refine List.filter_eq_nil_iff.mpr fun item hitem => ?_
        rw [hkey first List.mem_cons_self item hitem, beq_iff_eq]
        intro heq
        exact hfirst (Option.some.inj heq ▸ List.mem_map_of_mem hmem)
      rw [hnone, ih hrest hkey' hmem, List.nil_append]

end Parts

namespace Sheet

/-! ## The rules of a sheet in their places -/

/-- A rule of a block, seen from outside. -/
def enclose (wrapper : AtRule) (p : Placed) : Placed :=
  { p with around := wrapper :: p.around }

/-- The rules of a sheet in output order, each with the at-rules of the blocks around it. -/
def placements : Sheet → List Placed
  | nil => []
  | rule r rest => ⟨[], r⟩ :: rest.placements
  | atRule wrapper body rest => body.placements.map (enclose wrapper) ++ rest.placements

theorem enclosedFrom_eq (around : List AtRule) (sheet : Sheet) :
    sheet.enclosedFrom around = sheet.placements.map fun p => (around ++ p.around, p.rule) := by
  induction sheet generalizing around with
  | nil => rfl
  | rule r rest ih => simp [enclosedFrom, placements, ih]
  | atRule wrapper body rest ihBody ihRest =>
    simp [enclosedFrom, placements, ihBody, ihRest, enclose, Function.comp_def]

/-- In an arrangement every rule stands in its own place. -/
theorem placements_arrange (options : SortOptions) (rules : List AtomicRule) :
    (arrange options rules).placements =
      (arrange options rules).rules.map fun rule => ⟨rule.context.atRules, rule⟩ := by
  have henclosed := enclosed_arrange options rules
  rw [enclosed, enclosedFrom_eq] at henclosed
  have hplaces := congrArg (List.map fun entry => (⟨entry.1, entry.2⟩ : Placed)) henclosed
  rw [List.map_map, List.map_map] at hplaces
  exact (List.map_id _).symm.trans hplaces

theorem map_rule_placements (sheet : Sheet) : sheet.placements.map Placed.rule = sheet.rules := by
  rw [← map_snd_enclosedFrom [], enclosedFrom_eq, List.map_map]
  rfl

theorem placements_ofRules_ofBlocks (rules : List AtomicRule) (parts : List (AtRule × Sheet)) :
    (ofRules rules (ofBlocks parts)).placements =
      rules.map (Placed.mk []) ++
        parts.flatMap fun part => part.2.placements.map (enclose part.1) := by
  have hparts : (ofBlocks parts).placements =
      parts.flatMap fun part => part.2.placements.map (enclose part.1) := by
    induction parts with
    | nil => rfl
    | cons part others ih =>
      rw [List.flatMap_cons, ← ih]
      rfl
  induction rules with
  | nil => exact hparts
  | cons r others ih => exact congrArg (Placed.mk [] r :: ·) ih

/-! ## One level -/

section Level

variable {rules : List AtomicRule} {parts : List (AtRule × Sheet)}

theorem plain_placements :
    plain (ofRules rules (ofBlocks parts)).placements = rules := by
  have hrules : (rules.map (Placed.mk [])).filter (·.around.isEmpty) = rules.map (Placed.mk []) := by
    refine List.filter_eq_self.mpr fun p hp => ?_
    obtain ⟨rule, -, rfl⟩ := List.mem_map.mp hp
    rfl
  have hparts : (parts.flatMap fun part => part.2.placements.map (enclose part.1)).filter
      (·.around.isEmpty) = [] := by
    refine List.filter_eq_nil_iff.mpr fun p hp => ?_
    obtain ⟨part, -, hp⟩ := List.mem_flatMap.mp hp
    obtain ⟨q, -, rfl⟩ := List.mem_map.mp hp
    exact Bool.false_ne_true
  rw [placements_ofRules_ofBlocks, plain, List.filter_append, hrules, hparts, List.append_nil,
    List.map_map]
  exact List.map_id rules

variable (hnodup : (parts.map Prod.fst).Nodup)

include hnodup

theorem wrappers_placements (hparts : ∀ part ∈ parts, part.2.rules ≠ []) :
    wrappers (ofRules rules (ofBlocks parts)).placements = parts.map Prod.fst := by
  have hrules : (rules.map (Placed.mk [])).filterMap (·.around.head?) = [] := by
    refine List.filterMap_eq_nil_iff.mpr fun p hp => ?_
    obtain ⟨rule, -, rfl⟩ := List.mem_map.mp hp
    rfl
  have hheads : (parts.flatMap fun part => part.2.placements.map (enclose part.1)).filterMap
      (·.around.head?) = parts.flatMap fun part => part.2.placements.map fun _ => part.1 := by
    rw [List.filterMap_flatMap]
    refine List.flatMap_congr fun part _ => ?_
    rw [List.filterMap_map]
    exact congrFun List.filterMap_eq_map _
  rw [placements_ofRules_ofBlocks, wrappers, List.filterMap_append, hrules, hheads, List.nil_append]
  refine eraseDups_flatMap_const hnodup fun part hpart hnil => hparts part hpart ?_
  rw [← map_rule_placements, hnil, List.map_nil]

theorem inside_placements {part : AtRule × Sheet} (hpart : part ∈ parts) :
    inside part.1 (ofRules rules (ofBlocks parts)).placements = part.2.placements := by
  have hrules : (rules.map (Placed.mk [])).filter (·.around.head? == some part.1) = [] := by
    refine List.filter_eq_nil_iff.mpr fun p hp => ?_
    obtain ⟨rule, -, rfl⟩ := List.mem_map.mp hp
    exact Bool.false_ne_true
  have hheads : ∀ other ∈ parts, ∀ p ∈ other.2.placements.map (enclose other.1),
      p.around.head? = some other.1 := by
    intro other _ p hp
    obtain ⟨q, -, rfl⟩ := List.mem_map.mp hp
    rfl
  rw [placements_ofRules_ofBlocks, inside, List.filter_append, hrules,
    filter_flatMap_key hnodup hheads hpart, List.nil_append, List.map_map]
  exact List.map_id part.2.placements

end Level

/-! ## Tidy sheets -/

/-- On every level the plain rules come first and are sorted, and the blocks have different at-rules in
order and rules inside. -/
inductive Tidy (options : SortOptions) : Sheet → Prop
  | level {rules : List AtomicRule} {parts : List (AtRule × Sheet)}
      (hrules : rules.Pairwise fun a b => options.ruleLe a b = true)
      (hnodup : (parts.map Prod.fst).Nodup)
      (hparts : options.arrangeAtRules (parts.map Prod.fst) = parts.map Prod.fst)
      (hne : ∀ part ∈ parts, part.2.rules ≠ [])
      (hbody : ∀ part ∈ parts, Tidy options part.2) : Tidy options (ofRules rules (ofBlocks parts))

/-- A tidy sheet is the arrangement of its own rules. -/
theorem arrangeFrom_placements {options : SortOptions} {sheet : Sheet} (h : Tidy options sheet)
    {depth : Nat} (hdepth : ∀ p ∈ sheet.placements, p.around.length ≤ depth) :
    arrangeFrom options depth sheet.placements = sheet := by
  induction h generalizing depth with
  | @level rules parts hrules hnodup hparts hne _ ih =>
    obtain ⟨body, heq, hbody⟩ := arrangeFrom_eq options hdepth
    rw [wrappers_placements hnodup hne] at heq hbody
    have hbodies : ∀ part ∈ parts, (part.1, body part.1) = part := by
      intro part hpart
      obtain ⟨inner, -, hinner, hlength⟩ := hbody part.1 (List.mem_map_of_mem hpart)
      rw [inside_placements hnodup hpart] at hinner hlength
      rw [hinner, ih part hpart hlength]
    have hblocks : (parts.map Prod.fst).map (fun w => (w, body w)) = parts := by
      rw [List.map_map]
      exact (List.map_congr_left hbodies).trans (List.map_id parts)
    rw [heq, plain_placements, List.mergeSort_of_pairwise hrules, hparts, hblocks]

theorem arrangeAtRules_arrangeAtRules (options : SortOptions) {keys : List AtRule}
    (hnodup : keys.Nodup) :
    options.arrangeAtRules (options.arrangeAtRules keys) = options.arrangeAtRules keys := by
  unfold SortOptions.arrangeAtRules
  cases options.sortAtRules with
  | false => rfl
  | true =>
    refine List.mergeSort_of_pairwise ?_
    exact (SortOptions.pairwise_atRules_mergeSort hnodup).imp fun {v w} hlt =>
      (SortOptions.atRuleLe_iff v w).mpr (le_of_lt hlt)

/-- Every arrangement is tidy. -/
theorem tidy_arrangeFrom (options : SortOptions) {depth : Nat} {placed : List Placed}
    (h : ∀ p ∈ placed, p.around.length ≤ depth) : Tidy options (arrangeFrom options depth placed) := by
  induction depth using Nat.strongRecOn generalizing placed with
  | ind depth ih =>
    obtain ⟨body, heq, hbody⟩ := arrangeFrom_eq options h
    have hmet : ∀ w ∈ options.arrangeAtRules (wrappers placed), w ∈ wrappers placed :=
      fun w hw => (perm_arrangeAtRules options _).mem_iff.mp hw
    have hnames : ((options.arrangeAtRules (wrappers placed)).map fun w => (w, body w)).map Prod.fst =
        options.arrangeAtRules (wrappers placed) := by
      rw [List.map_map]
      exact List.map_id _
    rw [heq]
    refine .level ?_ ?_ ?_ ?_ ?_
    · exact List.pairwise_mergeSort SortOptions.ruleLe_trans options.ruleLe_total _
    · rw [hnames]
      exact (perm_arrangeAtRules options _).nodup_iff.mpr (nodup_eraseDups _)
    · rw [hnames]
      exact arrangeAtRules_arrangeAtRules options (nodup_eraseDups _)
    · intro part hpart
      obtain ⟨w, hw, rfl⟩ := List.mem_map.mp hpart
      obtain ⟨inner, -, hinner, hlength⟩ := hbody w (hmet w hw)
      rw [hinner]
      exact rules_arrangeFrom_inside_ne_nil options (hmet w hw) hlength
    · intro part hpart
      obtain ⟨w, hw, rfl⟩ := List.mem_map.mp hpart
      obtain ⟨inner, hlt, hinner, hlength⟩ := hbody w (hmet w hw)
      rw [hinner]
      exact ih inner hlt hlength

/-! ## Stylesheets -/

/-- Arranging the rules of an arrangement changes nothing. -/
theorem arrange_rules_arrange (options : SortOptions) (rules : List AtomicRule) :
    arrange options (arrange options rules).rules = arrange options rules := by
  have hlength : ∀ (items : List AtomicRule), ∀ p ∈ items.map
      (fun rule => (⟨rule.context.atRules, rule⟩ : Placed)),
      p.around.length ≤ (items.map (·.context.atRules.length)).foldl max 0 := by
    intro items p hp
    obtain ⟨rule, hrule, rfl⟩ := List.mem_map.mp hp
    exact (le_foldl_max _ 0).2 _ (List.mem_map_of_mem hrule)
  have htidy : Tidy options (arrange options rules) := tidy_arrangeFrom options (hlength rules)
  have hagain := hlength (arrange options rules).rules
  rw [← placements_arrange] at hagain
  have hfixed := arrangeFrom_placements htidy hagain
  rwa [placements_arrange] at hfixed

/-- The rules of a stylesheet, as one group, are all kept. -/
theorem distinctRules_rules_ofGroups (options : SortOptions) (groups : List RuleGroup) :
    distinctRules [⟨(ofGroups options groups).rules, []⟩] = (ofGroups options groups).rules := by
  have hnodup : ((ofGroups options groups).rules.map identity).Nodup :=
    ((perm_rules_ofGroups options groups).map identity).nodup_iff.mpr (nodup_map_earliest identity _)
  have hone : ∀ group : RuleGroup, earliest RuleGroup.digest [group] = [group] := fun _ => rfl
  rw [distinctRules, hone, List.flatMap_singleton, earliest_of_nodup hnodup]

/-- Merging a stylesheet again, its rules in output order taken as one group, gives the same
stylesheet, with the same blocks. -/
theorem ofGroups_rules_ofGroups (options : SortOptions) (groups : List RuleGroup) :
    ofGroups options [⟨(ofGroups options groups).rules, []⟩] = ofGroups options groups := by
  rw [ofGroups, distinctRules_rules_ofGroups]
  exact arrange_rules_arrange options (distinctRules groups)

end Sheet

end AtomicStyle

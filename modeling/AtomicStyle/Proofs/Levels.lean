import AtomicStyle.Proofs.Arrangement
import AtomicStyle.Rule.Atomize

/-!
# The content of a stylesheet, level by level

The top of a stylesheet and the inside of each of its blocks are its levels.  On a level stand the
rules whose at-rules are exactly the blocks around it, and one block for each at-rule that comes next
in the chain of some rule.  So a level is arranged from the rules that belong inside it as the whole
sheet is from all rules, and what holds of one level holds of all.

Results:
1. `arrangeFrom_eq`: what stands on one level.
2. `Arranged.of_mem_levels`: every level is arranged from the rules that belong inside it.
3. `ofGroups_content`: which rules a stylesheet has, where they stand, and its blocks.
-/

namespace AtomicStyle

/-! ## What is met -/

/-- The groups whose digest no earlier group has, in order. -/
def retained (groups : List RuleGroup) : List RuleGroup :=
  (groups.zipIdx.filter fun entry =>
    entry.1.digest ∉ (groups.take entry.2).map RuleGroup.digest).map Prod.fst

/-- The rules of the retained groups in the order in which they are met. -/
def encountered (groups : List RuleGroup) : List AtomicRule :=
  (retained groups).flatMap RuleGroup.rules

namespace Sheet

theorem distinctRules_eq (groups : List RuleGroup) :
    distinctRules groups = earliest identity (encountered groups) := by
  rw [distinctRules, earliest_eq_filter_zipIdx RuleGroup.digest]
  rfl

/-! ## Levels -/

/-- The rules that stand in no block of a level, in order. -/
def plainRules : Sheet → List AtomicRule
  | nil => []
  | rule r rest => r :: rest.plainRules
  | atRule _ _ rest => rest.plainRules

/-- The blocks that stand in no other block of a level, in order. -/
def blocks : Sheet → List (AtRule × Sheet)
  | nil => []
  | rule _ rest => rest.blocks
  | atRule wrapper body rest => (wrapper, body) :: rest.blocks

/-- A level: the at-rules of the blocks around it, outermost first, and what stands on it. -/
structure Level where
  around : List AtRule
  content : Sheet
deriving DecidableEq

/-- The levels inside the blocks of a sheet, itself inside the given at-rules. -/
def innerLevels (around : List AtRule) : Sheet → List Level
  | nil => []
  | rule _ rest => rest.innerLevels around
  | atRule wrapper body rest =>
    ⟨around ++ [wrapper], body⟩ ::
      (body.innerLevels (around ++ [wrapper]) ++ rest.innerLevels around)

/-- The levels of a sheet inside the given at-rules, itself the first of them. -/
def levelsFrom (around : List AtRule) (sheet : Sheet) : List Level :=
  ⟨around, sheet⟩ :: sheet.innerLevels around

/-- The levels of a sheet. -/
def levels (sheet : Sheet) : List Level :=
  sheet.levelsFrom []

/-- Every rule in output order, with the at-rules of the blocks around it, outermost first. -/
def enclosedFrom (around : List AtRule) : Sheet → List (List AtRule × AtomicRule)
  | nil => []
  | rule r rest => (around, r) :: rest.enclosedFrom around
  | atRule wrapper body rest =>
    body.enclosedFrom (around ++ [wrapper]) ++ rest.enclosedFrom around

def enclosed (sheet : Sheet) : List (List AtRule × AtomicRule) :=
  sheet.enclosedFrom []

theorem map_snd_enclosedFrom (around : List AtRule) (sheet : Sheet) :
    (sheet.enclosedFrom around).map Prod.snd = sheet.rules := by
  induction sheet generalizing around with
  | nil => rfl
  | rule r rest ih => rw [enclosedFrom, rules, List.map_cons, ih]
  | atRule wrapper body rest ihBody ihRest =>
    rw [enclosedFrom, rules, List.map_append, ihBody, ihRest]

/-- A rule stands on the level of the blocks around it. -/
theorem exists_level_of_mem_enclosedFrom {around : List AtRule} {sheet : Sheet}
    {entry : List AtRule × AtomicRule} (h : entry ∈ sheet.enclosedFrom around) :
    ∃ level ∈ sheet.levelsFrom around,
      level.around = entry.1 ∧ entry.2 ∈ level.content.plainRules := by
  induction sheet generalizing around with
  | nil => cases h
  | rule r rest ih =>
    rcases List.mem_cons.mp h with rfl | h
    · exact ⟨_, List.mem_cons_self, rfl, List.mem_cons_self⟩
    · obtain ⟨level, hlevel, haround, hplain⟩ := ih h
      rcases List.mem_cons.mp hlevel with rfl | hinner
      · exact ⟨_, List.mem_cons_self, haround, List.mem_cons_of_mem _ hplain⟩
      · exact ⟨level, List.mem_cons_of_mem _ hinner, haround, hplain⟩
  | atRule wrapper body rest ihBody ihRest =>
    rcases List.mem_append.mp h with h | h
    · obtain ⟨level, hlevel, hrule⟩ := ihBody h
      exact ⟨level, List.mem_cons_of_mem _ (List.mem_append_left (rest.innerLevels around) hlevel),
        hrule⟩
    · obtain ⟨level, hlevel, haround, hplain⟩ := ihRest h
      rcases List.mem_cons.mp hlevel with rfl | hinner
      · exact ⟨_, List.mem_cons_self, haround, hplain⟩
      · exact ⟨level, List.mem_cons_of_mem _ (List.mem_append_right (_ :: _) hinner), haround, hplain⟩

/-! ## Rules before blocks -/

section RulesBeforeBlocks

variable (rules : List AtomicRule) (parts : List (AtRule × Sheet))

theorem plainRules_ofRules_ofBlocks : (ofRules rules (ofBlocks parts)).plainRules = rules := by
  have hparts : (ofBlocks parts).plainRules = [] := by
    induction parts with
    | nil => rfl
    | cons part others ih => exact ih
  induction rules with
  | nil => exact hparts
  | cons r others ih => exact congrArg (r :: ·) ih

theorem blocks_ofRules_ofBlocks : (ofRules rules (ofBlocks parts)).blocks = parts := by
  have hparts : (ofBlocks parts).blocks = parts := by
    induction parts with
    | nil => rfl
    | cons part others ih => exact congrArg (part :: ·) ih
  induction rules with
  | nil => exact hparts
  | cons r others ih => exact ih

theorem innerLevels_ofRules_ofBlocks (around : List AtRule) :
    (ofRules rules (ofBlocks parts)).innerLevels around =
      parts.flatMap fun part => part.2.levelsFrom (around ++ [part.1]) := by
  have hparts : (ofBlocks parts).innerLevels around =
      parts.flatMap fun part => part.2.levelsFrom (around ++ [part.1]) := by
    induction parts with
    | nil => rfl
    | cons part others ih =>
      rw [List.flatMap_cons, ← ih]
      rfl
  induction rules with
  | nil => exact hparts
  | cons r others ih => exact ih

end RulesBeforeBlocks

/-! ## One level -/

theorem wrappers_of_around_nil {placed : List Placed} (h : ∀ p ∈ placed, p.around = []) :
    wrappers placed = [] := by
  have hnone : placed.filterMap (·.around.head?) = [] := by
    rw [List.filterMap_eq_nil_iff]
    intro p hp
    rw [h p hp]
    rfl
  rw [wrappers, hnone]
  rfl

/-- What stands on a level: first the rules with no further at-rules, sorted, then a block for each
at-rule that is met on it, arranged from the rules inside. -/
theorem arrangeFrom_eq (options : SortOptions) {depth : Nat} {placed : List Placed}
    (h : ∀ p ∈ placed, p.around.length ≤ depth) :
    ∃ body : AtRule → Sheet,
      arrangeFrom options depth placed = ofRules ((plain placed).mergeSort options.ruleLe)
        (ofBlocks ((options.arrangeAtRules (wrappers placed)).map fun w => (w, body w))) ∧
      ∀ w ∈ wrappers placed, ∃ inner < depth,
        body w = arrangeFrom options inner (inside w placed) ∧
        ∀ p ∈ inside w placed, p.around.length ≤ inner := by
  cases depth with
  | zero =>
    have hnone : wrappers placed = [] :=
      wrappers_of_around_nil fun p hp => List.eq_nil_of_length_eq_zero (Nat.le_zero.mp (h p hp))
    have harranged : options.arrangeAtRules [] = [] :=
      List.perm_nil.mp (perm_arrangeAtRules options [])
    refine ⟨fun _ => nil, ?_, fun w hw => ?_⟩
    · rw [hnone, harranged]
      rfl
    · rw [hnone] at hw
      cases hw
  | succ depth =>
    refine ⟨fun w => arrangeFrom options depth (inside w placed), rfl, fun w _ => ?_⟩
    exact ⟨depth, Nat.lt_succ_self depth, rfl, fun p hp =>
      Nat.le_of_lt_succ (length_around_inside h hp)⟩

/-! ## All levels -/

/-- The rules that belong inside the given at-rules, seen from inside. -/
def within (around : List AtRule) (rules : List AtomicRule) : List Placed :=
  (rules.filter fun rule => around <+: rule.context.atRules).map fun rule =>
    ⟨rule.context.atRules.drop around.length, rule⟩

theorem within_nil (rules : List AtomicRule) :
    within [] rules = rules.map fun rule => ⟨rule.context.atRules, rule⟩ := by
  simp [within]

theorem mem_within {around : List AtRule} {rules : List AtomicRule} {p : Placed} :
    p ∈ within around rules ↔ p.rule ∈ rules ∧ p.rule.context.atRules = around ++ p.around := by
  constructor
  · intro h
    obtain ⟨rule, hrule, rfl⟩ := List.mem_map.mp h
    obtain ⟨hmem, hinside⟩ := List.mem_filter.mp hrule
    obtain ⟨rest, hrest⟩ := of_decide_eq_true hinside
    refine ⟨hmem, ?_⟩
    show rule.context.atRules = around ++ rule.context.atRules.drop around.length
    rw [← hrest, List.drop_left]
  · rintro ⟨hmem, haround⟩
    refine List.mem_map.mpr ⟨p.rule, List.mem_filter.mpr ⟨hmem, ?_⟩, ?_⟩
    · exact decide_eq_true ⟨p.around, haround.symm⟩
    · rw [haround, List.drop_left]

/-- The at-rule that comes next after the given ones in the chain of a rule. -/
def next? (around : List AtRule) (rule : AtomicRule) : Option AtRule :=
  if around <+: rule.context.atRules then (rule.context.atRules.drop around.length).head? else none

theorem next?_eq_some_iff {around : List AtRule} {rule : AtomicRule} {w : AtRule} :
    next? around rule = some w ↔ around ++ [w] <+: rule.context.atRules := by
  unfold next?
  constructor
  · intro h
    split at h
    · next hinside =>
      obtain ⟨rest, hrest⟩ := hinside
      rw [← hrest, List.drop_left] at h
      obtain ⟨tail, rfl⟩ := List.head?_eq_some_iff.mp h
      exact ⟨tail, by rw [← hrest, List.append_assoc, List.singleton_append]⟩
    · cases h
  · rintro ⟨rest, hrest⟩
    rw [← hrest, List.append_assoc, if_pos (List.prefix_append _ _), List.drop_left]
    rfl

/-- The rules inside a block are those whose chain goes on with its at-rule. -/
theorem inside_within (w : AtRule) (around : List AtRule) (rules : List AtomicRule) :
    inside w (within around rules) = within (around ++ [w]) rules := by
  have hcond : ∀ rule : AtomicRule,
      (decide (around <+: rule.context.atRules) &&
        (rule.context.atRules.drop around.length).head? == some w) =
      decide (around ++ [w] <+: rule.context.atRules) := by
    intro rule
    rw [Bool.eq_iff_iff, decide_eq_true_iff, ← next?_eq_some_iff, next?]
    by_cases hinside : around <+: rule.context.atRules <;> simp [hinside]
  have hdrop : ∀ rule : AtomicRule, (rule.context.atRules.drop around.length).tail =
      rule.context.atRules.drop (around ++ [w]).length := by
    intro rule
    rw [List.tail_drop, List.length_append, List.length_singleton]
  simp only [inside, within, List.filter_map, List.filter_filter, List.map_map]
  simp only [Function.comp_def, hdrop, Bool.and_comm, hcond]

/-- A level is arranged from the rules that belong inside its at-rules. -/
def Arranged (options : SortOptions) (rules : List AtomicRule) (level : Level) : Prop :=
  ∃ depth, (∀ p ∈ within level.around rules, p.around.length ≤ depth) ∧
    level.content = arrangeFrom options depth (within level.around rules)

/-- If a level is arranged, so are the levels inside its blocks. -/
theorem Arranged.of_mem_levelsFrom {options : SortOptions} {rules : List AtomicRule}
    {around : List AtRule} {depth : Nat} (hdepth : ∀ p ∈ within around rules, p.around.length ≤ depth)
    {level : Level}
    (h : level ∈ levelsFrom around (arrangeFrom options depth (within around rules))) :
    Arranged options rules level := by
  induction depth using Nat.strongRecOn generalizing around with
  | ind depth ih =>
    rcases List.mem_cons.mp h with rfl | hinner
    · exact ⟨depth, hdepth, rfl⟩
    · obtain ⟨body, heq, hbody⟩ := arrangeFrom_eq options hdepth
      rw [heq, innerLevels_ofRules_ofBlocks, List.flatMap_map] at hinner
      obtain ⟨w, hw, hlevel⟩ := List.mem_flatMap.mp hinner
      have hmet := (perm_arrangeAtRules options _).mem_iff.mp hw
      obtain ⟨inner, hlt, hcontent, hinner⟩ := hbody w hmet
      rw [inside_within] at hcontent hinner
      rw [hcontent] at hlevel
      exact ih inner hlt hinner hlevel

theorem Arranged.of_mem_levels {options : SortOptions} {rules : List AtomicRule} {level : Level}
    (h : level ∈ (arrange options rules).levels) : Arranged options rules level := by
  unfold arrange at h
  rw [← within_nil] at h
  refine Arranged.of_mem_levelsFrom (fun p hp => ?_) h
  obtain ⟨hmem, haround⟩ := mem_within.mp hp
  rw [List.nil_append] at haround
  rw [← haround]
  exact (le_foldl_max _ 0).2 _ (List.mem_map_of_mem hmem)

section Content

variable {options : SortOptions} {rules : List AtomicRule} {level : Level}

theorem plain_within (around : List AtRule) (rules : List AtomicRule) :
    plain (within around rules) = rules.filter (·.context.atRules = around) := by
  have hcond : ∀ rule : AtomicRule,
      (decide (around <+: rule.context.atRules) &&
        (rule.context.atRules.drop around.length).isEmpty) =
      decide (rule.context.atRules = around) := by
    intro rule
    rw [Bool.eq_iff_iff, Bool.and_eq_true, decide_eq_true_iff, decide_eq_true_iff,
      List.isEmpty_iff]
    constructor
    · rintro ⟨⟨rest, hrest⟩, hempty⟩
      rw [← hrest, List.drop_left] at hempty
      rw [← hrest, hempty, List.append_nil]
    · intro heq
      rw [heq]
      exact ⟨List.prefix_refl _, List.drop_length⟩
  simp only [plain, within, List.filter_map, List.filter_filter, List.map_map]
  simp only [Function.comp_def, Bool.and_comm, hcond, List.map_id']

theorem wrappers_within (around : List AtRule) (rules : List AtomicRule) :
    wrappers (within around rules) = (rules.filterMap (next? around)).eraseDups := by
  rw [wrappers, within, List.filterMap_map, List.filterMap_filter]
  congr 2
  funext rule
  by_cases hinside : around <+: rule.context.atRules <;> simp [next?, hinside]

/-- What stands on an arranged level. -/
theorem Arranged.content_eq (h : Arranged options rules level) :
    level.content = ofRules level.content.plainRules (ofBlocks level.content.blocks) ∧
      level.content.plainRules =
        (rules.filter (·.context.atRules = level.around)).mergeSort options.ruleLe ∧
      level.content.blocks.map Prod.fst =
        options.arrangeAtRules (rules.filterMap (next? level.around)).eraseDups := by
  obtain ⟨depth, hdepth, hcontent⟩ := h
  obtain ⟨body, heq, -⟩ := arrangeFrom_eq options hdepth
  rw [plain_within, wrappers_within] at heq
  rw [hcontent, heq, plainRules_ofRules_ofBlocks, blocks_ofRules_ofBlocks, List.map_map]
  exact ⟨rfl, rfl, List.map_id' _⟩

/-- A block is there because of a rule inside it. -/
theorem Arranged.rules_ne_nil (h : Arranged options rules level) {block : AtRule × Sheet}
    (hblock : block ∈ level.content.blocks) : block.2.rules ≠ [] := by
  obtain ⟨depth, hdepth, hcontent⟩ := h
  obtain ⟨body, heq, hbody⟩ := arrangeFrom_eq options hdepth
  rw [hcontent, heq, blocks_ofRules_ofBlocks] at hblock
  obtain ⟨w, hw, rfl⟩ := List.mem_map.mp hblock
  have hmet := (perm_arrangeAtRules options _).mem_iff.mp hw
  obtain ⟨inner, -, hinside, hinner⟩ := hbody w hmet
  show (body w).rules ≠ []
  rw [hinside]
  exact rules_arrangeFrom_inside_ne_nil options hmet hinner

end Content

/-- In an arrangement every rule stands inside its own at-rules. -/
theorem enclosed_arrange (options : SortOptions) (rules : List AtomicRule) :
    (arrange options rules).enclosed =
      (arrange options rules).rules.map fun rule => (rule.context.atRules, rule) := by
  rw [← map_snd_enclosedFrom [], List.map_map]
  refine (List.map_id _).symm.trans (List.map_congr_left fun entry hentry => ?_)
  obtain ⟨level, hlevel, haround, hplain⟩ := exists_level_of_mem_enclosedFrom hentry
  rw [(Arranged.of_mem_levels hlevel).content_eq.2.1, List.mem_mergeSort] at hplain
  have hchain := of_decide_eq_true (List.mem_filter.mp hplain).2
  exact Prod.ext (haround.symm.trans hchain.symm) rfl

/-- A rule that is arranged has a level. -/
theorem exists_level_arrange (options : SortOptions) {rules : List AtomicRule} {rule : AtomicRule}
    (h : rule ∈ rules) :
    ∃ level ∈ (arrange options rules).levels, level.around = rule.context.atRules := by
  have hmem : (rule.context.atRules, rule) ∈ (arrange options rules).enclosed := by
    rw [enclosed_arrange]
    exact List.mem_map_of_mem ((perm_rules_arrange options rules).mem_iff.mpr h)
  obtain ⟨level, hlevel, haround, -⟩ := exists_level_of_mem_enclosedFrom hmem
  exact ⟨level, hlevel, haround⟩

/-- **Content.**  What makes rules the same occurs in a stylesheet iff a retained group has it, and
then once: as the first such rule that is met, inside exactly its own at-rules.  On every level the
blocks have different at-rules, and in every block there is a rule. -/
theorem ofGroups_content (options : SortOptions) (groups : List RuleGroup) :
    (∀ content, (ofGroups options groups).enclosed.filter (identity ·.2 = content) =
      (((encountered groups).find? (identity · = content)).map fun rule =>
        (rule.context.atRules, rule)).toList) ∧
    ∀ level ∈ (ofGroups options groups).levels,
      (level.content.blocks.map Prod.fst).Nodup ∧
      ∀ block ∈ level.content.blocks, block.2.rules ≠ [] := by
  constructor
  · intro content
    have hperm := (perm_rules_ofGroups options groups).filter (identity · = content)
    rw [distinctRules_eq, filter_earliest] at hperm
    have hrules : (ofGroups options groups).rules.filter (identity · = content) =
        ((encountered groups).find? (identity · = content)).toList := by
      cases hfind : (encountered groups).find? (identity · = content) with
      | none =>
        rw [hfind] at hperm
        exact List.perm_nil.mp hperm
      | some first =>
        rw [hfind] at hperm
        exact List.perm_singleton.mp hperm
    have hmap := congrArg (List.map fun rule => (rule.context.atRules, rule)) hrules
    rw [← Option.toList_map] at hmap
    rw [← hmap, ofGroups, enclosed_arrange, List.filter_map]
    rfl
  · intro level hlevel
    have harranged := Arranged.of_mem_levels hlevel
    constructor
    · rw [harranged.content_eq.2.2]
      exact (perm_arrangeAtRules options _).nodup_iff.mpr (nodup_eraseDups _)
    · exact fun block hblock => harranged.rules_ne_nil hblock

/-- A line, and a color for print; then both again, with the line for print too. -/
def printGroups : List RuleGroup :=
  let red : Block := .declaration ⟨"color", [.text "red"], false⟩ .nil
  let line : Block := .declaration ⟨"border-top-color", [.text "blue"], false⟩
    (.declaration ⟨"border", [.text "none"], false⟩ .nil)
  [Block.atomize "" (.atRule "media" "print" (red ++ .atRule "supports" "(top:0)" red .nil) line),
    Block.atomize "" (.atRule "media" "print" (line ++ .atRule "layer" "a" red red) line)]

/-- Inside the block for print. -/
theorem ofGroups_content_print :
    ∃ level ∈ (ofGroups {} printGroups).levels, level.around = [⟨"media", "print"⟩] ∧
      (level.content.blocks.map Prod.fst).Nodup ∧
      ∀ block ∈ level.content.blocks, block.2.rules ≠ [] := by
  obtain ⟨rule, hrule, hchain⟩ : ∃ rule ∈ distinctRules printGroups,
      rule.context.atRules = [⟨"media", "print"⟩] := by
    decide +kernel
  obtain ⟨level, hlevel, haround⟩ := exists_level_arrange {} hrule
  exact ⟨level, hlevel, haround.trans hchain, (ofGroups_content {} printGroups).2 level hlevel⟩

end Sheet

end AtomicStyle

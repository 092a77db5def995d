import AtomicStyle.Proofs.Arrangement
import AtomicStyle.Proofs.Lowering

/-!
# Which rules a stylesheet retains

A group is left out of a stylesheet if the digest of its class list was met before.  A class name is
made of two texts, its seeds, and an important value has the seed of the value with `true` at its
end.  So even hashes without collisions recognise no more than the seeds of the rules.

Results:
1. `digest_eq_iff`: without collisions, groups have one digest iff their rules have the same seeds.
2. `Sheet.retains_ofGroups_iff`: a rule is retained iff it is in a group that was not left out.
3. `seedsDetermineRules_of_values`: where seeds tell contexts and properties apart, only an important
   value and the same text with `true` at its end can be confused.
4. `retention_iff`: every stylesheet of some groups retains their rules iff the groups with the same
   seeds have the same rules.
-/

namespace AtomicStyle

open AtomicStyle.Text

/-! ## Seeds and digests -/

/-- The texts from which the class name of a rule is made. -/
def AtomicRule.seeds (salt : String) (rule : AtomicRule) : String × String :=
  (slotSeed salt rule.context rule.property, valueSeed rule.value rule.important)

/-- The seeds of the rules of a group in order. -/
def RuleGroup.seeds (salt : String) (g : RuleGroup) : List (String × String) :=
  g.rules.map (AtomicRule.seeds salt)

/-- The hashes tell apart the different texts that they are given for the rules of some groups. -/
structure CollisionFree (salt : String) (groups : List RuleGroup) : Prop where
  slots : ∀ rule ∈ groups.flatMap RuleGroup.rules, ∀ other ∈ groups.flatMap RuleGroup.rules,
    Digest.token (rule.seeds salt).1 = Digest.token (other.seeds salt).1 →
      (rule.seeds salt).1 = (other.seeds salt).1
  values : ∀ rule ∈ groups.flatMap RuleGroup.rules, ∀ other ∈ groups.flatMap RuleGroup.rules,
    Digest.token (rule.seeds salt).2 = Digest.token (other.seeds salt).2 →
      (rule.seeds salt).2 = (other.seeds salt).2
  lists : ∀ g ∈ groups, ∀ h ∈ groups, g.digest = h.digest → g.classList = h.classList

/-- Rules as atomizing gives them are determined by what makes two rules the same. -/
theorem eq_of_identity_eq {salt : String} {rule other : AtomicRule} (h : rule.Emitted salt)
    (h' : other.Emitted salt) (hidentity : Sheet.identity rule = Sheet.identity other) :
    rule = other := by
  have hnamed := h.named
  have hnamed' := h'.named
  cases rule
  cases other
  simp only [Sheet.identity, Prod.mk.injEq] at hidentity
  obtain ⟨rfl, rfl, rfl, rfl⟩ := hidentity
  congr
  exact hnamed.trans hnamed'.symm

/-- The seeds of a rule determine its class name. -/
theorem className_eq_of_seeds_eq {salt : String} {rule other : AtomicRule} (h : rule.Emitted salt)
    (h' : other.Emitted salt) (hseeds : rule.seeds salt = other.seeds salt) :
    rule.className = other.className := by
  obtain ⟨hslot, hvalue⟩ := Prod.mk.inj hseeds
  rw [h.named, h'.named, className_eq, className_eq, hslot, hvalue]

section Seeds

variable {salt : String} {groups : List RuleGroup}

theorem seeds_eq_of_className_eq (hfree : CollisionFree salt groups) {rule other : AtomicRule}
    (hrule : rule ∈ groups.flatMap RuleGroup.rules) (h : rule.Emitted salt)
    (hother : other ∈ groups.flatMap RuleGroup.rules) (h' : other.Emitted salt)
    (hnames : rule.className = other.className) : rule.seeds salt = other.seeds salt := by
  rw [h.named, h'.named] at hnames
  obtain ⟨hslot, hvalue⟩ := token_eq_of_className_eq hnames
  exact Prod.ext (hfree.slots rule hrule other hother hslot)
    (hfree.values rule hrule other hother hvalue)

/-- Two functions that make the same distinctions between lists make them item by item. -/
theorem map_eq_map_iff {α β γ : Type} {f : α → β} {f' : α → γ} {items others : List α}
    (h : ∀ x ∈ items, ∀ y ∈ others, f x = f y ↔ f' x = f' y) :
    items.map f = others.map f ↔ items.map f' = others.map f' := by
  induction items generalizing others with
  | nil =>
    cases others with
    | nil => exact ⟨fun _ => rfl, fun _ => rfl⟩
    | cons y others => exact ⟨nofun, nofun⟩
  | cons x items ih =>
    cases others with
    | nil => exact ⟨nofun, nofun⟩
    | cons y others =>
      have hrest := ih fun x hx y hy =>
        h x (List.mem_cons_of_mem _ hx) y (List.mem_cons_of_mem _ hy)
      rw [List.map_cons, List.map_cons, List.map_cons, List.map_cons, List.cons.injEq,
        List.cons.injEq, h x List.mem_cons_self y List.mem_cons_self, hrest]

/-- Without collisions, groups have one digest iff their rules have the same seeds. -/
theorem digest_eq_iff (hatomized : ∀ g ∈ groups, ∃ block : Block, g = block.atomize salt)
    (hfree : CollisionFree salt groups) {g h : RuleGroup} (hg : g ∈ groups) (hh : h ∈ groups) :
    g.digest = h.digest ↔ g.seeds salt = h.seeds salt := by
  have hemitted : ∀ g ∈ groups, ∀ rule ∈ g.rules, rule.Emitted salt := fun g hg rule hrule =>
    emitted_of_atomized hatomized hg hrule
  have hwords : ∀ g ∈ groups, ∀ name ∈ g.classNames, IsWord name := by
    intro g hg name hname
    obtain ⟨rule, hrule, rfl⟩ := List.mem_map.mp hname
    rw [(hemitted g hg rule hrule).named]
    exact isWord_className ..
  have hlists : g.digest = h.digest ↔ g.classNames = h.classNames := by
    constructor
    · intro hdigest
      exact intercalate_injective_of_isWord (hwords g hg) (hwords h hh)
        (hfree.lists g hg h hh hdigest)
    · intro hnames
      rw [RuleGroup.digest, RuleGroup.digest, RuleGroup.classList, RuleGroup.classList, hnames]
  rw [hlists]
  apply map_eq_map_iff
  intro rule hrule other hother
  exact ⟨seeds_eq_of_className_eq hfree (List.mem_flatMap.mpr ⟨g, hg, hrule⟩)
      (hemitted g hg rule hrule) (List.mem_flatMap.mpr ⟨h, hh, hother⟩) (hemitted h hh other hother),
    className_eq_of_seeds_eq (hemitted g hg rule hrule) (hemitted h hh other hother)⟩

end Seeds

/-! ## Retained rules -/

/-- A sheet holds a rule that is the same as the given one. -/
def Sheet.Retains (sheet : Sheet) (rule : AtomicRule) : Prop :=
  ∃ kept ∈ sheet.rules, identity kept = identity rule

instance (sheet : Sheet) (rule : AtomicRule) : Decidable (sheet.Retains rule) :=
  inferInstanceAs (Decidable (∃ kept ∈ sheet.rules, Sheet.identity kept = Sheet.identity rule))

/-- A rule is retained iff it is in a group that was not left out. -/
theorem Sheet.retains_ofGroups_iff (options : SortOptions) (groups : List RuleGroup)
    (rule : AtomicRule) :
    (ofGroups options groups).Retains rule ↔
      ∃ g ∈ earliest RuleGroup.digest groups, ∃ other ∈ g.rules, identity other = identity rule := by
  have hmem : (ofGroups options groups).Retains rule ↔
      identity rule ∈ (distinctRules groups).map identity := by
    constructor
    · rintro ⟨kept, hkept, hidentity⟩
      rw [← hidentity]
      exact List.mem_map_of_mem ((perm_rules_ofGroups options groups).mem_iff.mp hkept)
    · intro h
      obtain ⟨kept, hkept, hidentity⟩ := List.mem_map.mp h
      exact ⟨kept, (perm_rules_ofGroups options groups).mem_iff.mpr hkept, hidentity⟩
  rw [hmem, distinctRules, mem_map_earliest]
  constructor
  · intro h
    obtain ⟨other, hother, hidentity⟩ := List.mem_map.mp h
    obtain ⟨g, hg, hrule⟩ := List.mem_flatMap.mp hother
    exact ⟨g, hg, other, hrule, hidentity⟩
  · rintro ⟨g, hg, other, hother, hidentity⟩
    exact List.mem_map.mpr ⟨other, List.mem_flatMap.mpr ⟨g, hg, hother⟩, hidentity⟩

/-- Groups whose rules have the same seeds have the same rules. -/
def SeedsDetermineRules (salt : String) (groups : List RuleGroup) : Prop :=
  ∀ g ∈ groups, ∀ h ∈ groups, g.seeds salt = h.seeds salt →
    ∀ rule ∈ g.rules, ∃ other ∈ h.rules, Sheet.identity other = Sheet.identity rule

instance (salt : String) (groups : List RuleGroup) : Decidable (SeedsDetermineRules salt groups) :=
  inferInstanceAs (Decidable (∀ g ∈ groups, ∀ h ∈ groups, g.seeds salt = h.seeds salt →
    ∀ rule ∈ g.rules, ∃ other ∈ h.rules, Sheet.identity other = Sheet.identity rule))

section Retention

variable {salt : String} {groups : List RuleGroup}

/-- Where the seeds tell contexts and properties apart, only an important value and the same text
with `true` at its end can be confused. -/
theorem seedsDetermineRules_of_values
    (hslots : ∀ rule ∈ groups.flatMap RuleGroup.rules, ∀ other ∈ groups.flatMap RuleGroup.rules,
      (rule.seeds salt).1 = (other.seeds salt).1 → rule.target = other.target)
    (hvalues : ∀ rule ∈ groups.flatMap RuleGroup.rules, ∀ other ∈ groups.flatMap RuleGroup.rules,
      rule.target = other.target → rule.important = true → other.important = false →
        other.value ≠ rule.value ++ "true") :
    SeedsDetermineRules salt groups := by
  intro g hg h hh hseeds rule hrule
  have hmem : rule.seeds salt ∈ h.seeds salt := by
    rw [← hseeds]
    exact List.mem_map_of_mem hrule
  obtain ⟨other, hother, heq⟩ := List.mem_map.mp hmem
  have hruleMem := List.mem_flatMap.mpr ⟨g, hg, hrule⟩
  have hotherMem := List.mem_flatMap.mpr ⟨h, hh, hother⟩
  obtain ⟨hslot, hvalue⟩ := Prod.mk.inj heq
  have htarget := hslots other hotherMem rule hruleMem hslot
  rcases valueSeed_eq_iff.mp hvalue with ⟨hsame, himportant⟩ | ⟨himportant, hplain, hlonger⟩ |
    ⟨hplain, himportant, hlonger⟩
  · obtain ⟨hcontext, hproperty⟩ := Prod.mk.inj htarget
    refine ⟨other, hother, ?_⟩
    rw [Sheet.identity, Sheet.identity, hcontext, hproperty, hsame, himportant]
  · exact absurd hlonger (hvalues other hotherMem rule hruleMem htarget himportant hplain)
  · exact absurd hlonger (hvalues rule hruleMem other hotherMem htarget.symm himportant hplain)

/-- Where seeds determine the rules, a group that is left out has its rules in the group before. -/
theorem retains_of_seedsDetermineRules
    (hatomized : ∀ g ∈ groups, ∃ block : Block, g = block.atomize salt)
    (hfree : CollisionFree salt groups) (hseeds : SeedsDetermineRules salt groups)
    (options : SortOptions) {chosen : List RuleGroup} (hchosen : chosen ⊆ groups) {g : RuleGroup}
    (hg : g ∈ chosen) {rule : AtomicRule} (hrule : rule ∈ g.rules) :
    (Sheet.ofGroups options chosen).Retains rule := by
  rw [Sheet.retains_ofGroups_iff]
  have hmem : g.digest ∈ (earliest RuleGroup.digest chosen).map RuleGroup.digest :=
    mem_map_earliest.mpr (List.mem_map_of_mem hg)
  obtain ⟨first, hfirst, hdigest⟩ := List.mem_map.mp hmem
  have hfirstMem := hchosen ((earliest_sublist _ _).mem hfirst)
  rw [digest_eq_iff hatomized hfree hfirstMem (hchosen hg)] at hdigest
  exact ⟨first, hfirst, hseeds g (hchosen hg) first hfirstMem hdigest.symm rule hrule⟩

/-- Two groups with the same seeds, one after the other: only the rules of the first one are left. -/
theorem seedsDetermineRules_of_retains
    (hatomized : ∀ g ∈ groups, ∃ block : Block, g = block.atomize salt)
    (hfree : CollisionFree salt groups)
    (hretains : ∀ (options : SortOptions) (chosen : List RuleGroup), chosen ⊆ groups →
      ∀ g ∈ chosen, ∀ rule ∈ g.rules, (Sheet.ofGroups options chosen).Retains rule) :
    SeedsDetermineRules salt groups := by
  intro g hg h hh hseeds rule hrule
  have hchosen : [h, g] ⊆ groups := by
    rintro x hx
    rcases List.mem_cons.mp hx with rfl | hx
    · exact hh
    · rwa [List.mem_singleton.mp hx]
  have hkept := hretains {} [h, g] hchosen g (List.mem_cons_of_mem _ List.mem_cons_self) rule hrule
  have hdigest : g.digest = h.digest := (digest_eq_iff hatomized hfree hg hh).mpr hseeds
  have hfirst : earliest RuleGroup.digest [h, g] = [h] := by
    have hpair : [h, g] = [h] ++ [g] := rfl
    have hone : earliest RuleGroup.digest [h] = [h] := earliest_of_nodup (List.nodup_singleton _)
    rw [hpair, earliest_append_singleton, hone, addNew_eq, hdigest]
    exact if_pos List.mem_cons_self
  rw [Sheet.retains_ofGroups_iff, hfirst] at hkept
  obtain ⟨only, honly, other, hother, hidentity⟩ := hkept
  rw [List.mem_singleton.mp honly] at hother
  exact ⟨other, hother, hidentity⟩

end Retention

/-- **Retention.**  Take groups of blocks under one salt, for whose rules the hashes have no
collisions.  Every stylesheet of some of them, in any order, retains all their rules iff the groups
with the same seeds have the same rules; then the texts of a unit hold every rule of its groups. -/
theorem retention_iff (salt : String) (groups : List RuleGroup)
    (hatomized : ∀ g ∈ groups, ∃ block : Block, g = block.atomize salt)
    (hfree : CollisionFree salt groups) :
    ((∀ (options : SortOptions) (chosen : List RuleGroup), chosen ⊆ groups →
        ∀ g ∈ chosen, ∀ rule ∈ g.rules, (Sheet.ofGroups options chosen).Retains rule) ↔
      SeedsDetermineRules salt groups) ∧
    (SeedsDetermineRules salt groups →
      ∀ (compiler : Compiler) (cache : GroupCache) (unit : SourceUnit) (output : CompileOutput),
        compiler.salt = salt → cache.Faithful id → ((compiler.compile unit).run cache).1 = output →
        output.groups ⊆ groups → ∀ g ∈ output.groups, ∀ rule ∈ g.rules,
          rule.toCss compiler.options.rendering ∈ output.ruleTexts) := by
  refine ⟨⟨seedsDetermineRules_of_retains hatomized hfree, ?_⟩, ?_⟩
  · intro hseeds options chosen hchosen g hg rule hrule
    exact retains_of_seedsDetermineRules hatomized hfree hseeds options hchosen hg hrule
  · rintro hseeds compiler cache unit output rfl hcache hrun hgroups g hg rule hrule
    have htexts := (compiler.output_compile unit cache hcache).2
    rw [hrun] at htexts
    obtain ⟨kept, hkept, hidentity⟩ := retains_of_seedsDetermineRules hatomized hfree hseeds
      compiler.options.sorting hgroups hg hrule
    obtain ⟨h, hh, hmem⟩ := Sheet.exists_group_of_mem_ofGroups hkept
    have hsame : kept = rule := eq_of_identity_eq (emitted_of_atomized hatomized (hgroups hh) hmem)
      (emitted_of_atomized hatomized (hgroups hg) hrule) hidentity
    rw [htexts, ← hsame]
    exact List.mem_map_of_mem hkept

/-- The group of a color. -/
def colorGroup (value : String) (important : Bool) : RuleGroup :=
  Block.atomize "" (.declaration ⟨"color", [.text value], important⟩ .nil)

/-- A color is retained beside the same color marked as important. -/
theorem retention_iff_important :
    CollisionFree "" [colorGroup "red" true, colorGroup "red" false] ∧
      ∀ (options : SortOptions) (chosen : List RuleGroup),
        chosen ⊆ [colorGroup "red" true, colorGroup "red" false] →
          ∀ g ∈ chosen, ∀ rule ∈ g.rules, (Sheet.ofGroups options chosen).Retains rule := by
  have hfree : CollisionFree "" [colorGroup "red" true, colorGroup "red" false] :=
    ⟨by decide +kernel, by decide +kernel, by decide +kernel⟩
  have hatomized : ∀ g ∈ [colorGroup "red" true, colorGroup "red" false],
      ∃ block : Block, g = block.atomize "" := by
    intro g hg
    rcases List.mem_cons.mp hg with rfl | hg
    · exact ⟨_, rfl⟩
    · rw [List.mem_singleton.mp hg]
      exact ⟨_, rfl⟩
  exact ⟨hfree, (retention_iff "" _ hatomized hfree).1.mpr (by decide +kernel)⟩

/-- An important value has the seed of the value that ends in `true`, so one of the two rules is
lost although the hashes have no collision. -/
theorem important_not_retained :
    CollisionFree "" [colorGroup "red" true, colorGroup "redtrue" false] ∧
      ∃ rule ∈ (colorGroup "redtrue" false).rules,
        ¬ (Sheet.ofGroups {} [colorGroup "red" true, colorGroup "redtrue" false]).Retains rule :=
  ⟨⟨by decide +kernel, by decide +kernel, by decide +kernel⟩, by decide +kernel⟩

end AtomicStyle

import AtomicStyle.Proofs.Atomizing
import AtomicStyle.Proofs.Caching

/-!
# Lowering

Which styles of an input are active depends on the outcomes of its tests.  The active styles form
one block in source order (`activeBlock`), and the items that an input is lowered to have active
rules likewise (`activeRules`).  Lowering splits a block into groups, and each group has dropped the
rules that were overridden inside it, so the two agree up to overriding.

Results:
1. `lowered_ofInput`: the active rules of the items are those of the active block, up to overriding,
   and every group is the group of a block.
2. `output_compile`: the groups of a compiled unit are groups of blocks, and its texts are those of
   their stylesheet.
-/

namespace AtomicStyle

/-! ## Active styles -/

mutual

/-- The styles that are active under an outcome of the tests, in source order. -/
def StyleInput.activeBlock (holds : SourceRef → Bool) : StyleInput → Except CompileError Block
  | .object entries => entries.toBlock
  | .css text refs span => CssText.parse text refs span
  | .list items => StyleInput.activeBlocks holds items
  | .guarded test body => if holds test then body.activeBlock holds else .ok .nil
  | .branch test yes no => if holds test then yes.activeBlock holds else no.activeBlock holds
  | .passthrough _ => .ok .nil

def StyleInput.activeBlocks (holds : SourceRef → Bool) :
    List StyleInput → Except CompileError Block
  | [] => .ok .nil
  | input :: rest => do
    let block ← input.activeBlock holds
    let others ← StyleInput.activeBlocks holds rest
    return block ++ others

end

mutual

/-- The class names that an input passes on, in source order. -/
def StyleInput.passthroughs : StyleInput → List SourceRef
  | .object _ | .css _ _ _ => []
  | .list items => StyleInput.allPassthroughs items
  | .guarded _ body => body.passthroughs
  | .branch _ yes no => yes.passthroughs ++ no.passthroughs
  | .passthrough source => [source]

def StyleInput.allPassthroughs : List StyleInput → List SourceRef
  | [] => []
  | input :: rest => input.passthroughs ++ StyleInput.allPassthroughs rest

end

/-- The class names that items pass on, in order. -/
def ClassItems.passthroughs : ClassItems → List SourceRef
  | nil => []
  | group _ rest => rest.passthroughs
  | guarded _ body rest => body.passthroughs ++ rest.passthroughs
  | branch _ yes no rest => yes.passthroughs ++ no.passthroughs ++ rest.passthroughs
  | passthrough source rest => source :: rest.passthroughs

/-- The rules of the groups that are active under an outcome of the tests. -/
def ClassItems.activeRules (holds : SourceRef → Bool) : ClassItems → List AtomicRule
  | nil => []
  | group g rest => g.rules ++ rest.activeRules holds
  | guarded test body rest =>
    (if holds test then body.activeRules holds else []) ++ rest.activeRules holds
  | branch test yes no rest =>
    (if holds test then yes.activeRules holds else no.activeRules holds) ++ rest.activeRules holds
  | passthrough _ rest => rest.activeRules holds

namespace ClassItems

@[simp] theorem nil_append (items : ClassItems) : nil ++ items = items := rfl

@[simp] theorem group_append (g : RuleGroup) (rest items : ClassItems) :
    group g rest ++ items = group g (rest ++ items) := rfl

@[simp] theorem guarded_append (test : SourceRef) (body rest items : ClassItems) :
    guarded test body rest ++ items = guarded test body (rest ++ items) := rfl

@[simp] theorem branch_append (test : SourceRef) (yes no rest items : ClassItems) :
    branch test yes no rest ++ items = branch test yes no (rest ++ items) := rfl

@[simp] theorem passthrough_append (source : SourceRef) (rest items : ClassItems) :
    passthrough source rest ++ items = passthrough source (rest ++ items) := rfl

theorem activeRules_append (holds : SourceRef → Bool) (first second : ClassItems) :
    (first ++ second).activeRules holds = first.activeRules holds ++ second.activeRules holds := by
  induction first with
  | nil => rfl
  | group g rest ih => simp [activeRules, ih]
  | guarded test body rest _ ih => simp [activeRules, ih]
  | branch test yes no rest _ _ ih => simp [activeRules, ih]
  | passthrough source rest ih => simp [activeRules, ih]

theorem groups_append (first second : ClassItems) :
    (first ++ second).groups = first.groups ++ second.groups := by
  induction first with
  | nil => rfl
  | group g rest ih => simp [groups, ih]
  | guarded test body rest _ ih => simp [groups, ih]
  | branch test yes no rest _ _ ih => simp [groups, ih]
  | passthrough source rest ih => simp [groups, ih]

theorem passthroughs_append (first second : ClassItems) :
    (first ++ second).passthroughs = first.passthroughs ++ second.passthroughs := by
  induction first with
  | nil => rfl
  | group g rest ih => simp [passthroughs, ih]
  | guarded test body rest _ ih => simp [passthroughs, ih]
  | branch test yes no rest _ _ ih => simp [passthroughs, ih]
  | passthrough source rest ih => simp [passthroughs, ih]

/-- An active rule belongs to a group. -/
theorem exists_group_of_mem_activeRules {holds : SourceRef → Bool} {items : ClassItems}
    {rule : AtomicRule} (h : rule ∈ items.activeRules holds) :
    ∃ g ∈ items.groups, rule ∈ g.rules := by
  induction items with
  | nil => exact absurd h List.not_mem_nil
  | group g rest ih =>
    rcases List.mem_append.mp h with h | h
    · exact ⟨g, List.mem_cons_self, h⟩
    · obtain ⟨g', hg', hrule⟩ := ih h
      exact ⟨g', List.mem_cons_of_mem _ hg', hrule⟩
  | guarded test body rest ihBody ihRest =>
    rcases List.mem_append.mp h with h | h
    · split at h
      · obtain ⟨g, hg, hrule⟩ := ihBody h
        exact ⟨g, List.mem_append_left _ hg, hrule⟩
      · exact absurd h List.not_mem_nil
    · obtain ⟨g, hg, hrule⟩ := ihRest h
      exact ⟨g, List.mem_append_right _ hg, hrule⟩
  | branch test yes no rest ihYes ihNo ihRest =>
    rcases List.mem_append.mp h with h | h
    · split at h
      · obtain ⟨g, hg, hrule⟩ := ihYes h
        exact ⟨g, List.mem_append_left _ (List.mem_append_left _ hg), hrule⟩
      · obtain ⟨g, hg, hrule⟩ := ihNo h
        exact ⟨g, List.mem_append_left _ (List.mem_append_right _ hg), hrule⟩
    · obtain ⟨g, hg, hrule⟩ := ihRest h
      exact ⟨g, List.mem_append_right _ hg, hrule⟩
  | passthrough source rest ih => exact ih h

end ClassItems

/-! ## What items keep of a block -/

/-- Items that a block has been split into: up to overriding they have its rules, each of their
groups is the group of a block, and they pass on the given class names. -/
structure Lowered (salt : String) (holds : SourceRef → Bool) (block : Block)
    (sources : List SourceRef) (items : ClassItems) : Prop where
  overriding : latest AtomicRule.target (items.activeRules holds) =
    latest AtomicRule.target (block.declared salt)
  atomized : ∀ g ∈ items.groups, ∃ part : Block, g = part.atomize salt
  passed : items.passthroughs = sources

section Lowered

variable {salt : String} {holds : SourceRef → Bool}

theorem lowered_nil : Lowered salt holds .nil [] .nil :=
  ⟨rfl, fun _ h => absurd h List.not_mem_nil, rfl⟩

theorem lowered_append {first second : ClassItems} {block block' : Block}
    {sources sources' : List SourceRef} (h : Lowered salt holds block sources first)
    (h' : Lowered salt holds block' sources' second) :
    Lowered salt holds (block ++ block') (sources ++ sources') (first ++ second) := by
  refine ⟨?_, fun g hg => ?_, ?_⟩
  · rw [ClassItems.activeRules_append, Block.declared_append]
    exact latest_append_congr h.overriding h'.overriding
  · rw [ClassItems.groups_append] at hg
    rcases List.mem_append.mp hg with hg | hg
    · exact h.atomized g hg
    · exact h'.atomized g hg
  · rw [ClassItems.passthroughs_append, h.passed, h'.passed]

theorem lowered_guarded {body : ClassItems} {block : Block} {sources : List SourceRef}
    (test : SourceRef) (h : Lowered salt holds block sources body) :
    Lowered salt holds (if holds test then block else .nil) sources (.guarded test body .nil) := by
  refine ⟨?_, fun g hg => ?_, ?_⟩
  · rw [ClassItems.activeRules, ClassItems.activeRules, List.append_nil]
    split
    · exact h.overriding
    · rfl
  · rw [ClassItems.groups, ClassItems.groups, List.append_nil] at hg
    exact h.atomized g hg
  · rw [ClassItems.passthroughs, ClassItems.passthroughs, List.append_nil, h.passed]

theorem lowered_branch {yes no : ClassItems} {block block' : Block}
    {sources sources' : List SourceRef} (test : SourceRef)
    (h : Lowered salt holds block sources yes) (h' : Lowered salt holds block' sources' no) :
    Lowered salt holds (if holds test then block else block') (sources ++ sources')
      (.branch test yes no .nil) := by
  refine ⟨?_, fun g hg => ?_, ?_⟩
  · rw [ClassItems.activeRules, ClassItems.activeRules, List.append_nil]
    split
    · exact h.overriding
    · exact h'.overriding
  · rw [ClassItems.groups, ClassItems.groups, List.append_nil] at hg
    rcases List.mem_append.mp hg with hg | hg
    · exact h.atomized g hg
    · exact h'.atomized g hg
  · rw [ClassItems.passthroughs, ClassItems.passthroughs, List.append_nil, h.passed, h'.passed]

theorem lowered_passthrough (source : SourceRef) :
    Lowered salt holds .nil [source] (.passthrough source .nil) :=
  ⟨rfl, fun _ h => absurd h List.not_mem_nil, rfl⟩

/-- A group has the rules of its block up to overriding; a block without rules needs no group. -/
theorem lowered_atomize (block : Block) :
    Lowered salt holds block []
      (if (block.atomize salt).isEmpty then .nil else .group (block.atomize salt) .nil) := by
  split
  · next hempty =>
    refine ⟨?_, fun _ h => absurd h List.not_mem_nil, rfl⟩
    rw [RuleGroup.isEmpty, List.isEmpty_iff, Block.rules_atomize] at hempty
    exact hempty.symm
  · refine ⟨?_, fun g hg => ⟨block, List.mem_singleton.mp hg⟩, rfl⟩
    rw [ClassItems.activeRules, ClassItems.activeRules, List.append_nil, Block.rules_atomize,
      latest_latest]

end Lowered

/-! ## Lowering an input -/

theorem bind_run_eq_ok {ε α β : Type} {x : ExceptT ε Id α} {f : α → ExceptT ε Id β} {b : β}
    (h : (x >>= f).run.run = .ok b) : ∃ a, x.run.run = .ok a ∧ (f a).run.run = .ok b := by
  rw [ExceptT.run_bind] at h
  cases hx : x.run.run with
  | ok a =>
    refine ⟨a, rfl, ?_⟩
    rw [Id.run_bind, hx] at h
    exact h
  | error e =>
    rw [Id.run_bind, hx] at h
    cases h

theorem ofExcept_run_eq {ε α : Type} (r : Except ε α) :
    (MonadExcept.ofExcept r : ExceptT ε Id α).run.run = r := by
  cases r with
  | ok a => rfl
  | error e => rfl

theorem lowered_ofBlock {salt : String} {holds : SourceRef → Bool} {block : Block}
    {items : ClassItems}
    (h : (ClassItems.ofBlock (m := Id) (Block.atomize salt) block).run.run = .ok items) :
    Lowered salt holds block [] items := by
  unfold ClassItems.ofBlock at h
  split at h
  · next hempty =>
    obtain rfl : block = .nil := by
      cases block with
      | nil => rfl
      | _ => cases hempty
    cases h
    exact lowered_nil
  · obtain ⟨g, hg, hitems⟩ := bind_run_eq_ok h
    cases hg
    cases hitems
    exact lowered_atomize block

/-- Styles that are known without a test join the gathered block. -/
theorem lowered_gathered {salt : String} {holds : SourceRef → Bool} {gathered : Block}
    (input : StyleInput) {rest : List StyleInput} {parsed : Except CompileError Block}
    {items : ClassItems} (hparsed : input.activeBlock holds = parsed)
    (ih : ∀ block items, (ClassItems.ofInputs (m := Id) (Block.atomize salt) (gathered ++ block)
        rest).run.run = .ok items →
      ∃ others, StyleInput.activeBlocks holds rest = .ok others ∧
        Lowered salt holds (gathered ++ block ++ others) (StyleInput.allPassthroughs rest) items)
    (h : ((MonadExcept.ofExcept parsed : ExceptT CompileError Id Block) >>= fun block =>
      ClassItems.ofInputs (m := Id) (Block.atomize salt) (gathered ++ block) rest).run.run =
        .ok items) :
    ∃ block, StyleInput.activeBlocks holds (input :: rest) = .ok block ∧
      Lowered salt holds (gathered ++ block) (StyleInput.allPassthroughs rest) items := by
  obtain ⟨block, hblock, hrest⟩ := bind_run_eq_ok h
  rw [ofExcept_run_eq] at hblock
  obtain ⟨others, hothers, hlowered⟩ := ih block items hrest
  refine ⟨block ++ others, ?_, ?_⟩
  · rw [StyleInput.activeBlocks, hparsed, hblock, hothers]
    rfl
  · rwa [← Block.append_assoc]

/-- The items of an accepted input have the rules of its active styles up to overriding. -/
theorem lowered_ofInput {salt : String} (holds : SourceRef → Bool) (input : StyleInput) :
    ∀ items, (ClassItems.ofInput (m := Id) (Block.atomize salt) input).run.run = .ok items →
      ∃ block, input.activeBlock holds = .ok block ∧
        Lowered salt holds block input.passthroughs items := by
  -- Inputs in a row have the rules of the gathered block and then those of their active styles.
  refine ClassItems.ofInput.induct
    (fun input => ∀ items,
      (ClassItems.ofInput (m := Id) (Block.atomize salt) input).run.run = .ok items →
        ∃ block, input.activeBlock holds = .ok block ∧
          Lowered salt holds block input.passthroughs items)
    (fun gathered inputs => ∀ items,
      (ClassItems.ofInputs (m := Id) (Block.atomize salt) gathered inputs).run.run = .ok items →
        ∃ block, StyleInput.activeBlocks holds inputs = .ok block ∧
          Lowered salt holds (gathered ++ block) (StyleInput.allPassthroughs inputs) items)
    ?object ?css ?list ?guarded ?branch ?passthrough ?nil ?consObject ?consCss ?cons input
  case object =>
    intro entries items h
    rw [ClassItems.ofInput] at h
    obtain ⟨block, hblock, hitems⟩ := bind_run_eq_ok h
    rw [ofExcept_run_eq] at hblock
    exact ⟨block, hblock, lowered_ofBlock hitems⟩
  case css =>
    intro text refs span items h
    rw [ClassItems.ofInput] at h
    obtain ⟨block, hblock, hitems⟩ := bind_run_eq_ok h
    rw [ofExcept_run_eq] at hblock
    exact ⟨block, hblock, lowered_ofBlock hitems⟩
  case list =>
    intro inputs ih items h
    rw [ClassItems.ofInput] at h
    exact ih items h
  case guarded =>
    intro test body ih items h
    rw [ClassItems.ofInput] at h
    obtain ⟨inner, hinner, hitems⟩ := bind_run_eq_ok h
    cases hitems
    obtain ⟨block, hblock, hlowered⟩ := ih inner hinner
    refine ⟨if holds test then block else .nil, ?_, lowered_guarded test hlowered⟩
    rw [StyleInput.activeBlock, hblock]
    split <;> rfl
  case branch =>
    intro test yes no ihYes ihNo items h
    rw [ClassItems.ofInput] at h
    obtain ⟨consequent, hconsequent, hrest⟩ := bind_run_eq_ok h
    obtain ⟨alternate, halternate, hitems⟩ := bind_run_eq_ok hrest
    cases hitems
    obtain ⟨block, hblock, hlowered⟩ := ihYes consequent hconsequent
    obtain ⟨block', hblock', hlowered'⟩ := ihNo alternate halternate
    refine ⟨if holds test then block else block', ?_, lowered_branch test hlowered hlowered'⟩
    rw [StyleInput.activeBlock, hblock, hblock']
    split <;> rfl
  case passthrough =>
    intro source items h
    rw [ClassItems.ofInput] at h
    cases h
    exact ⟨.nil, rfl, lowered_passthrough source⟩
  case nil =>
    intro gathered items h
    rw [ClassItems.ofInputs] at h
    refine ⟨.nil, rfl, ?_⟩
    rw [Block.append_nil]
    exact lowered_ofBlock h
  case consObject =>
    intro gathered entries rest ih items h
    rw [ClassItems.ofInputs] at h
    exact lowered_gathered (.object entries) rfl ih h
  case consCss =>
    intro gathered text refs span rest ih items h
    rw [ClassItems.ofInputs] at h
    exact lowered_gathered (.css text refs span) rfl ih h
  case cons =>
    intro gathered input rest hobject hcss ihInput ihRest items h
    rw [ClassItems.ofInputs.eq_4 _ _ _ _ hobject hcss] at h
    obtain ⟨before, hbefore, h⟩ := bind_run_eq_ok h
    obtain ⟨inner, hinner, h⟩ := bind_run_eq_ok h
    obtain ⟨after, hafter, hitems⟩ := bind_run_eq_ok h
    cases hitems
    obtain ⟨block, hblock, hlowered⟩ := ihInput inner hinner
    obtain ⟨others, hothers, hlowered'⟩ := ihRest after hafter
    refine ⟨block ++ others, ?_, ?_⟩
    · rw [StyleInput.activeBlocks, hblock, hothers]
      rfl
    · rw [← Block.append_assoc]
      exact lowered_append (lowered_append (lowered_ofBlock hbefore) hlowered) hlowered'

/-! ## Units -/

theorem bind_gathering_eq_ok {ε γ α β : Type} {x : ExceptT ε (StateT γ Id) α}
    {f : α → ExceptT ε (StateT γ Id) β} {gathered : γ} {b : β}
    (h : (((x >>= f).run.run gathered).run).1 = .ok b) :
    ∃ a gathered', (x.run.run gathered).run = (.ok a, gathered') ∧
      (((f a).run.run gathered').run).1 = .ok b := by
  rw [ExceptT.run_bind, StateT.run_bind, Id.run_bind] at h
  cases hx : (x.run.run gathered).run with
  | mk result gathered' =>
    rw [hx] at h
    cases result with
    | ok a => exact ⟨a, gathered', rfl, h⟩
    | error e => cases h

theorem ofExcept_gathering_eq_ok {ε γ α : Type} {r : Except ε α} {gathered gathered' : γ} {a : α}
    (h : ((MonadExcept.ofExcept r : ExceptT ε (StateT γ Id) α).run.run gathered).run =
      (.ok a, gathered')) : r = .ok a := by
  cases r with
  | ok b =>
    cases h
    rfl
  | error e => cases h

theorem Sheet.ofGroups_nil (options : SortOptions) : ofGroups options [] = .nil := by
  show ofRules (List.mergeSort [] options.ruleLe) nil = nil
  rw [List.mergeSort_nil]
  rfl

namespace Compiler

theorem atomized_of_siteItems (compiler : Compiler) (unit : SourceUnit) (sites : List Site) :
    ∀ warnings items, (((compiler.siteItems (m := Id) compiler.atomize unit sites).run.run
        warnings).run).1 = .ok items →
      ∀ g ∈ items.flatMap (·.2.groups), ∃ part : Block, g = part.atomize compiler.salt := by
  induction sites with
  | nil =>
    intro warnings items h
    rw [siteItems] at h
    cases h
    exact fun _ h => absurd h List.not_mem_nil
  | cons site sites ih =>
    intro warnings items h
    rw [siteItems] at h
    obtain ⟨input, _, -, h⟩ := bind_gathering_eq_ok h
    obtain ⟨_, _, -, h⟩ := bind_gathering_eq_ok h
    obtain ⟨lowered, _, hlowered, h⟩ := bind_gathering_eq_ok h
    obtain ⟨inner, _, hinner, h⟩ := bind_gathering_eq_ok h
    obtain ⟨others, _, hothers, h⟩ := bind_gathering_eq_ok h
    cases h
    have hinput : (ClassItems.ofInput (m := Id) compiler.atomize input).run.run = .ok inner := by
      rw [← ofExcept_gathering_eq_ok hinner]
      exact Except.ok.inj (congrArg Prod.fst hlowered)
    -- which styles are active plays no part here
    obtain ⟨_, -, hatomized⟩ := lowered_ofInput (fun _ => true) input inner hinput
    intro g hg
    rcases List.mem_append.mp hg with hg | hg
    · exact hatomized.atomized g hg
    · exact ih _ others (congrArg Prod.fst hothers) g hg

/-- What a compiled unit holds, whether it was accepted or not: the groups of blocks, and the texts
of their stylesheet. -/
theorem output_compileUncached (compiler : Compiler) (unit : SourceUnit) :
    (∀ g ∈ (compiler.compileUncached unit).groups,
        ∃ part : Block, g = part.atomize compiler.salt) ∧
      (compiler.compileUncached unit).ruleTexts =
        (Sheet.ofGroups compiler.options.sorting (compiler.compileUncached unit).groups).ruleTexts
          compiler.options.rendering := by
  unfold compileUncached compileWith
  rw [Id.run_bind]
  generalize houtput : Id.run _ = output
  split at houtput
  next result warnings hrun =>
  cases result with
  | ok accepted =>
    obtain ⟨_, _, -, h⟩ := bind_gathering_eq_ok (congrArg Prod.fst hrun)
    obtain ⟨items, _, hitems, h⟩ := bind_gathering_eq_ok h
    cases h
    cases houtput
    exact ⟨compiler.atomized_of_siteItems unit unit.sites _ items (congrArg Prod.fst hitems), rfl⟩
  | error e =>
    cases houtput
    refine ⟨fun _ h => absurd h List.not_mem_nil, ?_⟩
    show [] = (Sheet.ofGroups _ []).ruleTexts _
    rw [Sheet.ofGroups_nil]
    rfl

/-- The same with a cache. -/
theorem output_compile (compiler : Compiler) (unit : SourceUnit) (cache : GroupCache)
    (hcache : cache.Faithful id) :
    (∀ g ∈ ((compiler.compile unit).run cache).1.groups,
        ∃ part : Block, g = part.atomize compiler.salt) ∧
      ((compiler.compile unit).run cache).1.ruleTexts =
        (Sheet.ofGroups compiler.options.sorting
          ((compiler.compile unit).run cache).1.groups).ruleTexts compiler.options.rendering := by
  rw [(compiler.agree_compile unit cache hcache).1]
  exact compiler.output_compileUncached unit

end Compiler

end AtomicStyle

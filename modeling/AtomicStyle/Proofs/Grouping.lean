import AtomicStyle.Compile.Site
import AtomicStyle.Proofs.Composition
import AtomicStyle.Proofs.Lowering

/-!
# Grouping and composition

Overriding happens at two times: inside a group when the unit is compiled, and between the class
lists of groups and choices when the emitted expression is evaluated.  Both together give the class
list of the one group that all active styles form.

Results:
1. `textAll_exprs`: what is emitted for a site is the text of a class expression.
2. `latest_wordsOf_values`: the class names that an expression composes are those of the active rules,
   up to overriding.
3. `value_classExpr`: the value of the emitted expression is the class list of the active styles.
-/

namespace AtomicStyle

open AtomicStyle.Text

/-! ## Class expressions -/

/-- The expressions from which the class names of a site are computed. -/
inductive ClassExpr where
  | literal (classes : String)
  | verbatim (source : SourceRef)
  /-- The class names of an expression where a test succeeds. -/
  | guarded (test : SourceRef) (body : ClassExpr)
  | choice (test : SourceRef) (yes no : ClassExpr)
  /-- A composition of class lists. -/
  | call (arguments : List ClassExpr)

/-- What is found at run time: which tests succeed, and the class names that are passed on. -/
structure Outcome where
  holds : SourceRef → Bool
  classes : SourceRef → String

namespace ClassExpr

mutual

/-- The expression as it is emitted. -/
def text : ClassExpr → String
  | literal classes => quoted classes
  | verbatim source => source.text
  | guarded test body => parenthesized test.text ++ " && " ++ body.text
  | choice test yes no => parenthesized test.text ++ " ? " ++ yes.text ++ " : " ++ no.text
  | call arguments => composeCall (textAll arguments)

def textAll : List ClassExpr → List String
  | [] => []
  | e :: rest => e.text :: textAll rest

end

mutual

/-- The class list that an expression gives; none where its test fails. -/
def value? (outcome : Outcome) : ClassExpr → Option String
  | literal classes => some classes
  | verbatim source => some (outcome.classes source)
  | guarded test body => if outcome.holds test then body.value? outcome else none
  | choice test yes no =>
    if outcome.holds test then yes.value? outcome else no.value? outcome
  | call arguments => some (ClassName.compose (values outcome arguments))

/-- The class lists that expressions give in order. -/
def values (outcome : Outcome) : List ClassExpr → List String
  | [] => []
  | e :: rest => (e.value? outcome).toList ++ values outcome rest

end

end ClassExpr

namespace ClassItems

/-- The expression of a branch with the given items and argument expressions. -/
def branchExpr (rendering : Rendering) (items : ClassItems) (arguments : List ClassExpr) :
    ClassExpr :=
  if items.isStatic then
    .literal (String.intercalate " " (items.staticGroups.map (·.elementClasses rendering)))
  else .call arguments

/-- The expressions of the items in order. -/
def exprs (rendering : Rendering) : ClassItems → List ClassExpr
  | nil => []
  | group g rest => .literal (g.elementClasses rendering) :: rest.exprs rendering
  | guarded test body rest =>
    .guarded test (body.branchExpr rendering (body.exprs rendering)) :: rest.exprs rendering
  | branch test yes no rest =>
    .choice test (yes.branchExpr rendering (yes.exprs rendering))
      (no.branchExpr rendering (no.exprs rendering)) :: rest.exprs rendering
  | passthrough source rest => .verbatim source :: rest.exprs rendering

/-- The expression for the class names of a site. -/
def classExpr (rendering : Rendering) (items : ClassItems) : ClassExpr :=
  .call (items.exprs rendering)

theorem text_branchExpr (rendering : Rendering) (items : ClassItems) (arguments : List ClassExpr) :
    (items.branchExpr rendering arguments).text =
      items.branchText rendering (ClassExpr.textAll arguments) := by
  unfold branchExpr branchText
  split
  · rw [ClassExpr.text]
  · rw [ClassExpr.text]

/-- The texts of the expressions are the texts that are emitted. -/
theorem textAll_exprs (rendering : Rendering) (items : ClassItems) :
    ClassExpr.textAll (items.exprs rendering) = items.texts rendering := by
  induction items with
  | nil => rfl
  | group g rest ih => rw [exprs, ClassExpr.textAll, ClassExpr.text, ih, texts]
  | guarded test body rest ihBody ihRest =>
    rw [exprs, ClassExpr.textAll, ClassExpr.text, text_branchExpr, ihBody, ihRest, texts]
  | branch test yes no rest ihYes ihNo ihRest =>
    rw [exprs, ClassExpr.textAll, ClassExpr.text, text_branchExpr, text_branchExpr, ihYes, ihNo,
      ihRest, texts]
  | passthrough source rest ih => rw [exprs, ClassExpr.textAll, ClassExpr.text, ih, texts]

/-- The first field of a site's replacement is its class expression. -/
theorem head?_siteFields (options : Options) (items : ClassItems) (numbers : List Nat) :
    (siteFields options items numbers).head? =
      some ("className: " ++ (items.classExpr options.rendering).text) := by
  rw [classExpr, ClassExpr.text, textAll_exprs]
  rfl

end ClassItems

/-! ## The class names of active rules -/

/-- A name that takes part in compositions as it is. -/
def ClassName.IsPlain (name : String) : Prop :=
  IsWord name ∧ ClassName.splitCompressed? name = none

theorem isPlain_of_emitted {salt : String} {rule : AtomicRule} (h : rule.Emitted salt) :
    ClassName.IsPlain rule.className := by
  rw [h.named]
  exact ⟨isWord_className .., splitCompressed?_className ..⟩

namespace ClassItems

/-- Every rule of the items has a plain class name. -/
def HasPlainNames (items : ClassItems) : Prop :=
  ∀ g ∈ items.groups, ∀ rule ∈ g.rules, ClassName.IsPlain rule.className

/-- The class names of the active rules. -/
def activeNames (holds : SourceRef → Bool) (items : ClassItems) : List String :=
  (items.activeRules holds).map AtomicRule.className

theorem activeNames_group (holds : SourceRef → Bool) (g : RuleGroup) (rest : ClassItems) :
    (group g rest).activeNames holds = g.classNames ++ rest.activeNames holds := by
  rw [activeNames, activeRules, List.map_append]
  rfl

theorem activeNames_guarded (holds : SourceRef → Bool) (test : SourceRef)
    (body rest : ClassItems) :
    (guarded test body rest).activeNames holds =
      (if holds test then body.activeNames holds else []) ++ rest.activeNames holds := by
  rw [activeNames, activeRules, List.map_append]
  split <;> rfl

theorem activeNames_branch (holds : SourceRef → Bool) (test : SourceRef)
    (yes no rest : ClassItems) :
    (branch test yes no rest).activeNames holds =
      (if holds test then yes.activeNames holds else no.activeNames holds) ++
        rest.activeNames holds := by
  rw [activeNames, activeRules, List.map_append]
  split <;> rfl

theorem isPlain_of_mem_activeNames {holds : SourceRef → Bool} {items : ClassItems}
    (h : items.HasPlainNames) {name : String} (hname : name ∈ items.activeNames holds) :
    ClassName.IsPlain name := by
  obtain ⟨rule, hrule, rfl⟩ := List.mem_map.mp hname
  obtain ⟨g, hg, hmem⟩ := exists_group_of_mem_activeRules hrule
  exact h g hg rule hmem

/-- Plain names are shown as they are. -/
theorem map_shown_latest_activeNames {holds : SourceRef → Bool} {items : ClassItems}
    (h : items.HasPlainNames) :
    (latest ClassName.slot (items.activeNames holds)).map ClassName.shown =
      latest ClassName.slot (items.activeNames holds) := by
  have hshown : ∀ name ∈ latest ClassName.slot (items.activeNames holds),
      ClassName.shown name = id name := by
    intro name hname
    have hplain := isPlain_of_mem_activeNames h ((latest_sublist _ _).mem hname)
    exact ClassName.shown_of_not_compressed hplain.2
  rw [List.map_congr_left hshown, List.map_id]

end ClassItems

/-- Without a compression map, a group puts the class names of its rules on the element. -/
theorem RuleGroup.elementClasses_eq {rendering : Rendering} (h : rendering.compression = none)
    (g : RuleGroup) : g.elementClasses rendering = g.classList := by
  unfold elementClasses
  rw [h]
  rfl

theorem RuleGroup.wordsOf_classList {g : RuleGroup}
    (h : ∀ rule ∈ g.rules, ClassName.IsPlain rule.className) :
    wordsOf g.classList = g.classNames := by
  apply wordsOf_intercalate_of_isWord
  intro name hname
  obtain ⟨rule, hrule, rfl⟩ := List.mem_map.mp hname
  exact (h rule hrule).1

/-! ## Evaluation -/

namespace ClassItems

variable {rendering : Rendering} {outcome : Outcome}

/-- The words of a group's class list are the class names of its rules. -/
theorem wordsOf_elementClasses (h : rendering.compression = none) {g : RuleGroup}
    (hnames : ∀ rule ∈ g.rules, ClassName.IsPlain rule.className) :
    wordsOf (g.elementClasses rendering) = g.classNames := by
  rw [RuleGroup.elementClasses_eq h, RuleGroup.wordsOf_classList hnames]

/-- The groups of static items are all active. -/
theorem wordsOf_staticGroups (h : rendering.compression = none) {items : ClassItems}
    (hnames : items.HasPlainNames) (hstatic : items.isStatic = true) :
    wordsOf (String.intercalate " " (items.staticGroups.map (·.elementClasses rendering))) =
      items.activeNames outcome.holds := by
  rw [wordsOf_intercalate]
  induction items with
  | nil => rfl
  | group g rest ih =>
    have hrest : rest.HasPlainNames := fun g' hg' => hnames g' (List.mem_cons_of_mem _ hg')
    rw [staticGroups, List.map_cons, List.flatMap_cons,
      wordsOf_elementClasses h (hnames g List.mem_cons_self), ih hrest hstatic, activeNames_group]
  | guarded | branch | passthrough => cases hstatic

/-- A branch gives the class names of its active rules up to overriding, if its arguments do. -/
theorem exists_value?_branchExpr (h : rendering.compression = none) {items : ClassItems}
    (hnames : items.HasPlainNames) {arguments : List ClassExpr}
    (harguments : latest ClassName.slot ((ClassExpr.values outcome arguments).flatMap wordsOf) =
      latest ClassName.slot (items.activeNames outcome.holds)) :
    ∃ classes, (items.branchExpr rendering arguments).value? outcome = some classes ∧
      latest ClassName.slot (wordsOf classes) =
        latest ClassName.slot (items.activeNames outcome.holds) := by
  unfold branchExpr
  split
  · next hstatic =>
    refine ⟨_, rfl, ?_⟩
    rw [wordsOf_staticGroups h hnames hstatic]
  · refine ⟨_, by rw [ClassExpr.value?], ?_⟩
    -- the inner composition has decided some slots already, and shows plain names as they are
    rw [ClassName.wordsOf_compose, ClassName.survivors, harguments,
      map_shown_latest_activeNames hnames, latest_latest]

/-- The class names that the expressions of items give are those of the active rules up to
overriding. -/
theorem latest_wordsOf_values (h : rendering.compression = none) {items : ClassItems}
    (hnames : items.HasPlainNames) (hpassed : items.passthroughs = []) :
    latest ClassName.slot
        ((ClassExpr.values outcome (items.exprs rendering)).flatMap wordsOf) =
      latest ClassName.slot (items.activeNames outcome.holds) := by
  induction items with
  | nil => rfl
  | group g rest ih =>
    have hrest : rest.HasPlainNames := fun g' hg' => hnames g' (List.mem_cons_of_mem _ hg')
    rw [exprs, ClassExpr.values, ClassExpr.value?, List.flatMap_append, activeNames_group]
    refine latest_append_congr ?_ (ih hrest hpassed)
    rw [Option.toList_some, List.flatMap_singleton,
      wordsOf_elementClasses h (hnames g List.mem_cons_self)]
  | guarded test body rest ihBody ihRest =>
    have hbody : body.HasPlainNames := fun g hg => hnames g (List.mem_append_left _ hg)
    have hrest : rest.HasPlainNames := fun g hg => hnames g (List.mem_append_right _ hg)
    obtain ⟨hpassedBody, hpassedRest⟩ := List.append_eq_nil_iff.mp hpassed
    obtain ⟨classes, hvalue, hclasses⟩ :=
      exists_value?_branchExpr h hbody (ihBody hbody hpassedBody)
    rw [exprs, ClassExpr.values, ClassExpr.value?, List.flatMap_append, activeNames_guarded]
    refine latest_append_congr ?_ (ihRest hrest hpassedRest)
    split
    · rw [hvalue, Option.toList_some, List.flatMap_singleton, hclasses]
    · rfl
  | branch test yes no rest ihYes ihNo ihRest =>
    have hyes : yes.HasPlainNames := fun g hg =>
      hnames g (List.mem_append_left _ (List.mem_append_left _ hg))
    have hno : no.HasPlainNames := fun g hg =>
      hnames g (List.mem_append_left _ (List.mem_append_right _ hg))
    have hrest : rest.HasPlainNames := fun g hg => hnames g (List.mem_append_right _ hg)
    obtain ⟨hpassedBoth, hpassedRest⟩ := List.append_eq_nil_iff.mp hpassed
    obtain ⟨hpassedYes, hpassedNo⟩ := List.append_eq_nil_iff.mp hpassedBoth
    obtain ⟨classes, hvalue, hclasses⟩ := exists_value?_branchExpr h hyes (ihYes hyes hpassedYes)
    obtain ⟨classes', hvalue', hclasses'⟩ := exists_value?_branchExpr h hno (ihNo hno hpassedNo)
    rw [exprs, ClassExpr.values, ClassExpr.value?, List.flatMap_append, activeNames_branch]
    refine latest_append_congr ?_ (ihRest hrest hpassedRest)
    split
    · rw [hvalue, Option.toList_some, List.flatMap_singleton, hclasses]
    · rw [hvalue', Option.toList_some, List.flatMap_singleton, hclasses']
  | passthrough source rest ih => cases hpassed

end ClassItems

/-! ## Slots and targets -/

/-- Rules of different targets have class names of different slots. -/
def RuleGroup.SlotsApart (g : RuleGroup) : Prop :=
  ∀ rule ∈ g.rules, ∀ other ∈ g.rules,
    ClassName.slot rule.className = ClassName.slot other.className → rule.target = other.target

instance (g : RuleGroup) : Decidable g.SlotsApart :=
  inferInstanceAs (Decidable (∀ rule ∈ g.rules, ∀ other ∈ g.rules,
    ClassName.slot rule.className = ClassName.slot other.className → rule.target = other.target))

/-- The slot of a class name depends on the target of its rule only. -/
theorem slot_eq_of_target_eq {salt : String} {rule other : AtomicRule} (h : rule.Emitted salt)
    (h' : other.Emitted salt) (htarget : rule.target = other.target) :
    ClassName.slot rule.className = ClassName.slot other.className := by
  obtain ⟨hcontext, hproperty⟩ := Prod.mk.inj htarget
  rw [h.named, h'.named, slot_className, slot_className, hcontext, hproperty]

/-- Where slots are apart, overriding among class names is overriding among rules. -/
theorem latest_slot_map_className {salt : String} {rules : List AtomicRule} {block : Block}
    (hemitted : ∀ rule ∈ rules, rule.Emitted salt)
    (hrules : latest AtomicRule.target rules = (block.atomize salt).rules)
    (hslots : (block.atomize salt).SlotsApart) :
    latest ClassName.slot (rules.map AtomicRule.className) = (block.atomize salt).classNames := by
  -- every rule has a rule of the group with its target, and therefore with its slot
  have hkept : ∀ rule ∈ rules, ∃ kept ∈ (block.atomize salt).rules,
      kept.target = rule.target ∧
        ClassName.slot kept.className = ClassName.slot rule.className := by
    intro rule hrule
    have hmem := mem_map_latest.mpr (List.mem_map_of_mem (f := AtomicRule.target) hrule)
    rw [hrules] at hmem
    obtain ⟨kept, hkept, htarget⟩ := List.mem_map.mp hmem
    exact ⟨kept, hkept, htarget,
      slot_eq_of_target_eq (emitted_of_mem_atomize hkept) (hemitted rule hrule) htarget⟩
  have hkeys : latest (fun rule => ClassName.slot rule.className) rules =
      latest AtomicRule.target rules := by
    apply latest_congr
    intro rule hrule other hother
    refine ⟨fun hslot => ?_, slot_eq_of_target_eq (hemitted rule hrule) (hemitted other hother)⟩
    obtain ⟨kept, hk, htarget, hkslot⟩ := hkept rule hrule
    obtain ⟨kept', hk', htarget', hkslot'⟩ := hkept other hother
    rw [← htarget, ← htarget']
    exact hslots kept hk kept' hk' ((hkslot.trans hslot).trans hkslot'.symm)
  rw [latest_map, hkeys, hrules]
  rfl

/-- **Grouping is sound.**  Take an accepted input that passes on no class names, and a compiler
without a compression map.  What is emitted for the class names of the site is the text of an
expression.  Whatever the tests give, the active styles form one block, and the value of the
expression is the class list of that block's group, if the slots of the group's rules are apart. -/
theorem value_classExpr (compiler : Compiler) (hmap : compiler.options.compression = none)
    (cache : GroupCache) (hcache : cache.Faithful id) (input : StyleInput)
    (hpassed : input.passthroughs = []) (items : ClassItems)
    (haccepted : ((ClassItems.ofInput compiler.group input).run.run cache).1 = .ok items)
    (numbers : List Nat) (outcome : Outcome) :
    (siteFields compiler.options items numbers).head? =
        some ("className: " ++ (items.classExpr compiler.options.rendering).text) ∧
      ∃ block, input.activeBlock outcome.holds = .ok block ∧
        ((compiler.atomize block).SlotsApart →
          (items.classExpr compiler.options.rendering).value? outcome =
            some (compiler.atomize block).classList) := by
  refine ⟨items.head?_siteFields compiler.options numbers, ?_⟩
  have hlower := (ClassItems.agree_ofInput compiler.agree_group input cache hcache).1
  rw [haccepted] at hlower
  obtain ⟨block, hblock, hlowered⟩ := lowered_ofInput outcome.holds input items hlower.symm
  have hnames : items.HasPlainNames := fun g hg rule hrule =>
    isPlain_of_emitted (emitted_of_atomized hlowered.atomized hg hrule)
  have hactive : ∀ rule ∈ items.activeRules outcome.holds, rule.Emitted compiler.salt := by
    intro rule hrule
    obtain ⟨g, hg, hmem⟩ := ClassItems.exists_group_of_mem_activeRules hrule
    exact emitted_of_atomized hlowered.atomized hg hmem
  refine ⟨block, hblock, fun hslots => ?_⟩
  have hsurvivors : latest ClassName.slot ((ClassExpr.values outcome
        (items.exprs compiler.options.rendering)).flatMap wordsOf) =
      latest ClassName.slot (items.activeNames outcome.holds) :=
    ClassItems.latest_wordsOf_values hmap hnames (hlowered.passed.trans hpassed)
  rw [ClassItems.classExpr, ClassExpr.value?, ClassName.compose_eq, ClassName.survivors,
    hsurvivors, ClassItems.map_shown_latest_activeNames hnames]
  rw [ClassItems.activeNames, latest_slot_map_className hactive hlowered.overriding hslots]
  rfl

/-- A style of which a part is overridden where a test succeeds. -/
def overriddenStyle : StyleInput :=
  .list [.object (.scalar "color" Span.none (.str "red") (.scalar "top" Span.none (.str "0") .nil)),
    .guarded ⟨Span.none, "on"⟩ (.list [.object (.scalar "color" Span.none (.str "blue") .nil)])]

/-- The override takes effect at run time: the later color replaces the earlier one. -/
theorem value_classExpr_overriddenStyle :
    let compiler : Compiler := ⟨{}, ⟨Resolver.none, Helpers.none⟩⟩
    ∃ items, ((ClassItems.ofInput compiler.group overriddenStyle).run.run .empty).1 = .ok items ∧
      (items.classExpr compiler.options.rendering).value? ⟨fun _ => true, fun _ => ""⟩ =
        some "_154iidpf _syaz13q2" := by
  intro compiler
  have hok : ((ClassItems.ofInput compiler.group overriddenStyle).run.run .empty).1.isOk = true := by
    decide +kernel
  cases haccepted : ((ClassItems.ofInput compiler.group overriddenStyle).run.run .empty).1 with
  | error e =>
    rw [haccepted] at hok
    cases hok
  | ok items =>
    obtain ⟨-, block, hblock, hvalue⟩ := value_classExpr compiler rfl .empty
      GroupCache.faithful_empty overriddenStyle rfl items haccepted [] ⟨fun _ => true, fun _ => ""⟩
    have hactive : overriddenStyle.activeBlock (fun _ => true) = .ok
        (.declaration ⟨"color", [.text "red"], false⟩ (.declaration ⟨"top", [.text "0"], false⟩
          (.declaration ⟨"color", [.text "blue"], false⟩ .nil))) := by
      decide +kernel
    cases hactive.symm.trans hblock
    refine ⟨items, rfl, ?_⟩
    rw [hvalue (by decide +kernel)]
    decide +kernel

end AtomicStyle

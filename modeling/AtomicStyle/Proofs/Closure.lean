import AtomicStyle.Proofs.Overwriting
import AtomicStyle.Proofs.Reassembly
import AtomicStyle.Proofs.Spelling

/-!
# Closed groups

A block is a tree, and what it declares is a list: its declarations in source order, each in the
context in which it stands (`Block.occurrences`).  The rules and the variables of a group are
gathered along this list.  Rules give way to later ones, and variables that no rule refers to any
more go with them.

Results:
1. `declareAll_eq`: what a block declares, declaration by declaration.
2. `rules_declare_of_mem_refs`: a declaration with run-time parts has one rule, with all references.
3. `Declared.filter_vars_group`: which variables of a name a group has.
4. `Block.atomize_closed`: no reference of a group is without its variable, and no variable without
   a reference.
-/

namespace AtomicStyle

open AtomicStyle.Text

/-! ## Declarations in their places -/

/-- A declaration in the context in which it stands. -/
structure Occurrence where
  context : Context
  declaration : Declaration
deriving DecidableEq, Repr

namespace Occurrence

/-- The rules of a declaration in its place. -/
def rules (salt : String) (p : Occurrence) : List AtomicRule :=
  (declare salt p.context p.declaration).rules

/-- The variables of a declaration in its place. -/
def vars (p : Occurrence) : List CssVariable :=
  (valueText p.context p.declaration).2

/-- The name of the variable of a run-time part. -/
def nameOf (p : Occurrence) (ref : DynamicRef) : String :=
  variableName p.context p.declaration.property ref.slot

end Occurrence

/-- The declarations of a block inside at-rules and a selector, in source order.  The body of a rule
counts once for each of its selectors. -/
def Block.occurrencesIn (atRules : List AtRule) (selector : String) : Block → List Occurrence
  | .nil => []
  | .declaration d rest => ⟨Context.of atRules selector, d⟩ :: rest.occurrencesIn atRules selector
  | .rule selectors body rest =>
    (selectors.flatMap fun child => body.occurrencesIn atRules (Selector.nest selector child)) ++
      rest.occurrencesIn atRules selector
  | .atRule name params body rest =>
    body.occurrencesIn (atRules ++ [⟨name, String.intercalate " " (wordsOf params)⟩]) selector ++
      rest.occurrencesIn atRules selector

/-- The declarations of a block for the styled element. -/
def Block.occurrences (block : Block) : List Occurrence :=
  block.occurrencesIn [] "&"

/-- What declarations in their places give. -/
def declaredBy (salt : String) (occurrences : List Occurrence) : Declared :=
  ⟨occurrences.flatMap (·.rules salt), occurrences.flatMap (·.vars)⟩

theorem declaredBy_append (salt : String) (first second : List Occurrence) :
    declaredBy salt (first ++ second) = declaredBy salt first ++ declaredBy salt second :=
  congrArg₂ Declared.mk List.flatMap_append List.flatMap_append

theorem declaredBy_cons (salt : String) (p : Occurrence) (rest : List Occurrence) :
    declaredBy salt (p :: rest) =
      declare salt p.context p.declaration ++ declaredBy salt rest :=
  rfl

/-- What a block declares is what its declarations give in their places. -/
theorem declareAll_eq (salt : String) (atRules : List AtRule) (selector : String) (block : Block) :
    declareAll salt atRules selector block =
      declaredBy salt (block.occurrencesIn atRules selector) := by
  induction block generalizing atRules selector with
  | nil => rfl
  | declaration d rest ih => rw [declareAll, Block.occurrencesIn, declaredBy_cons, ih]
  | rule selectors body rest ihBody ihRest =>
    rw [declareAll, Block.occurrencesIn, ihRest]
    induction selectors with
    | nil => rfl
    | cons child others ih =>
      rw [List.foldr_cons, ih, List.flatMap_cons, List.append_assoc, ihBody]
      exact (declaredBy_append ..).symm
  | atRule name params body rest ihBody ihRest =>
    rw [declareAll, Block.occurrencesIn, declaredBy_append, ihBody, ihRest]

theorem Block.declared_eq (salt : String) (block : Block) :
    block.declared salt = block.occurrences.flatMap (·.rules salt) :=
  congrArg Declared.rules (declareAll_eq salt [] "&" block)

/-! ## References -/

theorem noBlank_variableRef (context : Context) (property : String) (slot : Nat) :
    Css.NoBlank (variableRef (variableName context property slot)).toList := by
  have hfixed : ∀ c ∈ "var(--_)".toList, isBlank c = false :=
    List.all_iff_forall_prop.mp (by decide)
  rw [toList_variableRef, toList_variableName]
  intro c hc
  simp only [List.mem_append] at hc
  rcases hc with hc | (hc | hc) | hc
  · exact hfixed c (List.mem_append_left ['-', '-', '_', ')'] hc)
  · exact hfixed c (List.mem_append_left [')'] (List.mem_append_right ['v', 'a', 'r', '('] hc))
  · exact ClassName.isBlank_of_isTokenChar (Digest.isTokenChar_of_mem_digits hc)
  · exact hfixed c (List.mem_append_right ['v', 'a', 'r', '(', '-', '-', '_'] hc)

/-- The reference of every run-time part is in the canonical value. -/
theorem hasText_canonical_valueText (context : Context) (d : Declaration) {ref : DynamicRef}
    (href : ref ∈ d.refs) :
    hasText (variableRef (variableName context d.property ref.slot))
      (Css.canonical (valueText context d).1) = true := by
  have hopen : '(' ∈ (variableRef (variableName context d.property ref.slot)).toList := by
    rw [toList_variableRef]
    exact List.mem_append_left _ (by decide)
  refine Css.hasText_canonical (noBlank_variableRef _ _ _) hopen ?_
  exact hasText_iff_isInfix.mpr ((assembled_valueText context d).infix_text href)

theorem longhandRule_value (salt : String) (context : Context) (important : Bool)
    (property value : String) :
    (longhandRule salt context important (property, value)).value = value :=
  rfl

/-- A declaration with a run-time part has one rule, for its own property. -/
theorem rules_declare_of_mem_refs (salt : String) (context : Context) (d : Declaration)
    {ref : DynamicRef} (href : ref ∈ d.refs) :
    (declare salt context d).rules = [longhandRule salt context d.important
      (d.property, Css.canonical (valueText context d).1)] := by
  have huses : Css.usesVar (Css.canonical (valueText context d).1) = true := by
    have hfound := hasText_iff_isInfix.mp (hasText_canonical_valueText context d href)
    rw [toList_variableRef] at hfound
    exact hasText_iff_isInfix.mpr ((List.prefix_append _ _).isInfix.trans hfound)
  rw [rules_declare, Css.longhands_of_usesVar huses]
  rfl

/-! ## The variables of a group -/

namespace Ordered

variable {α : Type}

/-- Under a key stands what was written last. -/
theorem get?_putAll (entries : Ordered α) (writes : List (String × α)) (key : String) :
    (entries.putAll writes).get? key =
      ((writes.filter (·.1 = key)).getLast?.map Prod.snd).or (entries.get? key) := by
  induction writes using List.reverseRecOn with
  | nil => rfl
  | append_singleton writes entry ih =>
    have hlast : entries.putAll (writes ++ [entry]) = (entries.putAll writes).put entry.1 entry.2 :=
      List.foldl_append
    rw [hlast, get?_put, List.filter_append]
    by_cases h : entry.1 = key
    · rw [if_pos h.symm, List.filter_cons_of_pos (by simpa using h), List.filter_nil,
        List.getLast?_concat]
      rfl
    · rw [if_neg (Ne.symm h), List.filter_cons_of_neg (by simpa using h), List.filter_nil,
        List.append_nil, ih]

/-- Distinct keys have one entry each. -/
theorem filter_key {entries : Ordered α} (h : (entries.map Prod.fst).Nodup) (key : String) :
    (entries.filter (·.1 = key)).map Prod.snd = (entries.get? key).toList := by
  induction entries with
  | nil => rfl
  | cons entry rest ih =>
    obtain ⟨hentry, hrest⟩ := List.nodup_cons.mp h
    rw [get?_cons]
    by_cases hkey : entry.1 = key
    · have hnone : rest.filter (·.1 = key) = [] := by
        refine List.filter_eq_nil_iff.mpr fun other hother => ?_
        have hne : other.1 ≠ key :=
          fun heq => hentry (hkey ▸ heq ▸ List.mem_map_of_mem hother)
        simpa using hne
      rw [if_pos hkey.symm, List.filter_cons_of_pos (by simpa using hkey), hnone]
      rfl
    · rw [if_neg (Ne.symm hkey), List.filter_cons_of_neg (by simpa using hkey), ih hrest]

theorem mem_of_mem_putAll {writes : List (String × α)} {entry : String × α}
    (h : entry ∈ putAll [] writes) : entry ∈ writes := by
  have hget := get?_of_mem (nodup_putAll [] List.nodup_nil writes) h
  rw [get?_putAll, get?_nil, Option.or_none, Option.map_eq_some_iff] at hget
  obtain ⟨written, hlast, hvalue⟩ := hget
  obtain ⟨hwritten, hkey⟩ := List.mem_filter.mp (List.mem_of_getLast? hlast)
  rw [← Prod.ext (of_decide_eq_true hkey) hvalue]
  exact hwritten

end Ordered

/-- Variables under their names. -/
def variableTable (vars : List CssVariable) : Ordered CssVariable :=
  Ordered.putAll [] (vars.map fun v => (v.name, v))

theorem fst_of_mem_variableTable {vars : List CssVariable} {entry : String × CssVariable}
    (h : entry ∈ variableTable vars) : entry.1 = entry.2.name := by
  obtain ⟨v, -, rfl⟩ := List.mem_map.mp (Ordered.mem_of_mem_putAll h)
  rfl

/-- Of the variables of a name, the last one remains. -/
theorem filter_variableTable (vars : List CssVariable) (name : String) :
    ((variableTable vars).map Prod.snd).filter (·.name = name) =
      (vars.filter (·.name = name)).getLast?.toList := by
  have hnodup : ((variableTable vars).map Prod.fst).Nodup :=
    Ordered.nodup_putAll [] List.nodup_nil _
  have hkeys : ((variableTable vars).map Prod.snd).filter (·.name = name) =
      ((variableTable vars).filter (·.1 = name)).map Prod.snd := by
    rw [List.filter_map]
    congr 1
    refine List.filter_congr fun entry hentry => ?_
    rw [fst_of_mem_variableTable hentry]
    rfl
  have hlast : (variableTable vars).get? name = (vars.filter (·.name = name)).getLast? := by
    rw [variableTable, Ordered.get?_putAll, Ordered.get?_nil, Option.or_none, List.filter_map,
      List.getLast?_map, Option.map_map]
    exact Option.map_id_apply
  rw [hkeys, Ordered.filter_key hnodup, hlast]

/-- Whether a rule of a group refers to a variable. -/
def RuleGroup.refersTo (group : RuleGroup) (name : String) : Bool :=
  group.rules.any fun rule => hasText (variableRef name) rule.value

/-- A group has the last variable of each name that its rules refer to. -/
theorem Declared.filter_vars_group (declared : Declared) (name : String) :
    declared.group.vars.filter (·.name = name) =
      if declared.group.refersTo name then (declared.vars.filter (·.name = name)).getLast?.toList
      else [] := by
  have hused : declared.group.vars.filter (·.name = name) =
      (((variableTable declared.vars).map Prod.snd).filter (·.name = name)).filter
        fun _ => declared.group.refersTo name := by
    change (List.filter _ _).filter _ = _
    rw [List.filter_filter, List.filter_filter]
    -- of one name, all variables are used or none is
    refine List.filter_congr fun v _ => ?_
    by_cases hname : v.name = name
    · subst hname
      exact Bool.and_comm _ _
    · simp [hname]
  rw [hused, filter_variableTable]
  split
  · next h => exact List.filter_eq_self.mpr fun _ _ => h
  · next h => exact List.filter_eq_nil_iff.mpr fun _ _ => h

/-- A block's group is gathered from its declarations in their places. -/
theorem Block.atomize_eq (salt : String) (block : Block) :
    block.atomize salt = (declaredBy salt block.occurrences).group :=
  congrArg Declared.group (declareAll_eq salt [] "&" block)

/-! ## Groups of blocks -/

namespace Occurrence

variable {p : Occurrence} {ref : DynamicRef}

/-- The rule of a declaration refers to the variables of its run-time parts. -/
theorem hasText_of_mem_rules {salt : String} (href : ref ∈ p.declaration.refs) {rule : AtomicRule}
    (hrule : rule ∈ p.rules salt) : hasText (variableRef (p.nameOf ref)) rule.value = true := by
  rw [rules, rules_declare_of_mem_refs salt p.context p.declaration href,
    List.mem_singleton] at hrule
  -- by name, so that the canonical value is not computed
  rw [hrule, longhandRule_value]
  exact hasText_canonical_valueText p.context p.declaration href

/-- A run-time part has a variable with its name and its expression. -/
theorem exists_mem_vars (href : ref ∈ p.declaration.refs) :
    ∃ v ∈ p.vars, v.name = p.nameOf ref ∧ v.expression = ref.source := by
  have hmem : (p.nameOf ref, ref.source) ∈ p.vars.map fun v => (v.name, v.expression) := by
    rw [vars, map_vars_valueText]
    exact List.mem_map_of_mem href
  obtain ⟨v, hv, heq⟩ := List.mem_map.mp hmem
  exact ⟨v, hv, congrArg Prod.fst heq, congrArg Prod.snd heq⟩

end Occurrence

/-- The variable of a reference in a group is the last one that is declared with its name. -/
theorem exists_filter_vars_eq_singleton {salt : String} {occurrences : List Occurrence}
    {p : Occurrence} (hp : p ∈ occurrences) {ref : DynamicRef} (href : ref ∈ p.declaration.refs)
    {rule : AtomicRule} (hrule : rule ∈ p.rules salt)
    (hkept : rule ∈ (declaredBy salt occurrences).group.rules) :
    ∃ v, (declaredBy salt occurrences).group.vars.filter (·.name = p.nameOf ref) = [v] ∧
      ((declaredBy salt occurrences).vars.filter (·.name = p.nameOf ref)).getLast? =
        some v := by
  have hrefers : (declaredBy salt occurrences).group.refersTo (p.nameOf ref) = true :=
    List.any_eq_true.mpr ⟨rule, hkept, Occurrence.hasText_of_mem_rules href hrule⟩
  obtain ⟨v, hv, hname, -⟩ := Occurrence.exists_mem_vars href
  have hwritten : v ∈ (declaredBy salt occurrences).vars.filter (·.name = p.nameOf ref) :=
    List.mem_filter.mpr ⟨List.mem_flatMap.mpr ⟨p, hp, hv⟩, decide_eq_true hname⟩
  obtain ⟨last, hlast⟩ := Option.isSome_iff_exists.mp
    (List.getLast?_isSome.mpr (List.ne_nil_of_mem hwritten))
  refine ⟨last, ?_, hlast⟩
  rw [Declared.filter_vars_group, if_pos hrefers, hlast]
  rfl

/-- No variable of a group is without a reference. -/
theorem Declared.refersTo_of_mem_vars {declared : Declared} {v : CssVariable}
    (hv : v ∈ declared.group.vars) : declared.group.refersTo v.name = true := by
  by_contra hnot
  have hmem : v ∈ declared.group.vars.filter (·.name = v.name) :=
    List.mem_filter.mpr ⟨hv, decide_eq_true rfl⟩
  rw [Declared.filter_vars_group, if_neg hnot] at hmem
  exact absurd hmem List.not_mem_nil

/-- **Groups are closed and minimal.**  A block emits the rules of its declarations in source order,
a declaration once for each of the selectors around it.  Its group keeps those after which no rule
with their context and property is emitted, in this order, so no two of them agree in both.  The
value of a rule that is kept has the reference of every run-time part of its declaration, and
exactly one variable of the group has the name in this reference.  Every variable of the group is
referred to by a rule that is kept. -/
theorem Block.atomize_closed (salt : String) (block : Block) :
    let emitted := block.occurrences.flatMap (·.rules salt)
    let group := block.atomize salt
    group.rules = (emitted.zipIdx.filter fun entry =>
        entry.1.target ∉ (emitted.drop (entry.2 + 1)).map AtomicRule.target).map Prod.fst ∧
      (group.rules.map AtomicRule.target).Nodup ∧
      (∀ p ∈ block.occurrences, ∀ rule ∈ p.rules salt, rule ∈ group.rules →
        ∀ ref ∈ p.declaration.refs,
          hasText (variableRef (p.nameOf ref)) rule.value = true ∧
            ∃ v, group.vars.filter (·.name = p.nameOf ref) = [v]) ∧
      ∀ v ∈ group.vars, ∃ rule ∈ group.rules, hasText (variableRef v.name) rule.value = true := by
  intro emitted group
  have hrules : group.rules = latest AtomicRule.target emitted := by
    rw [block.rules_atomize, block.declared_eq]
  have hgroup : group = (declaredBy salt block.occurrences).group := block.atomize_eq salt
  refine ⟨?_, ?_, ?_, ?_⟩
  · rw [hrules, latest_eq_filter_zipIdx]
  · rw [hrules]
    exact nodup_map_latest AtomicRule.target emitted
  · intro p hp rule hrule hkept ref href
    rw [hgroup] at hkept ⊢
    obtain ⟨v, hv, -⟩ := exists_filter_vars_eq_singleton hp href hrule hkept
    exact ⟨Occurrence.hasText_of_mem_rules href hrule, v, hv⟩
  · intro v hv
    rw [hgroup] at hv ⊢
    exact List.any_eq_true.mp (Declared.refersTo_of_mem_vars hv)

/-- A padding that depends on the width, another one that depends on the gap and takes its place,
also under the pointer, and a colour in print. -/
def paddedPanel : Block :=
  .declaration ⟨"padding", [.dynamic ⟨⟨Span.none, "width"⟩, 0⟩], false⟩
    (.rule ["&:hover", "&"]
      (.declaration ⟨"padding", [.text "0  -", .dynamic ⟨⟨Span.none, "gap"⟩, 1⟩, .text "px"], false⟩
        .nil)
      (.atRule "media" " print "
        (.declaration ⟨"color", [.dynamic ⟨⟨Span.none, "ink"⟩, 2⟩], false⟩ .nil) .nil))

/-- The first padding goes together with its variable; the second one refers to its own. -/
theorem Block.atomize_closed_paddedPanel :
    let gap : DynamicRef := ⟨⟨Span.none, "gap"⟩, 1⟩
    let padding : Occurrence :=
      ⟨Context.root, ⟨"padding", [.text "0  -", .dynamic gap, .text "px"], false⟩⟩
    let group := paddedPanel.atomize ""
    (paddedPanel.occurrences.map fun p =>
        (p.context.selector, p.declaration.refs.map (·.source.text))) =
        [("&", ["width"]), ("&:hover", ["gap"]), ("&", ["gap"]), ("&", ["ink"])] ∧
      (group.rules.map fun rule => (rule.context.selector, rule.property)) =
        [("&:hover", "padding"), ("&", "padding"), ("&", "color")] ∧
      (group.vars.map fun v => (v.before, v.expression.text, v.after)) =
        [("-", "gap", "px"), ("-", "gap", "px"), ("", "ink", "")] ∧
      padding ∈ paddedPanel.occurrences ∧
      (∃ rule ∈ padding.rules "", rule ∈ group.rules ∧
        hasText (variableRef (padding.nameOf gap)) rule.value = true) ∧
      ∃ v, group.vars.filter (·.name = padding.nameOf gap) = [v] := by
  intro gap padding group
  have hoccurs : padding ∈ paddedPanel.occurrences := by decide +kernel
  obtain ⟨rule, hrule, hkept⟩ : ∃ rule ∈ padding.rules "", rule ∈ group.rules := by decide +kernel
  obtain ⟨htext, hone⟩ := (Block.atomize_closed "" paddedPanel).2.2.1 padding hoccurs rule hrule
    hkept gap (by decide +kernel)
  exact ⟨by decide +kernel, by decide +kernel, by decide +kernel, hoccurs,
    ⟨rule, hrule, hkept, htext⟩, hone⟩

end AtomicStyle

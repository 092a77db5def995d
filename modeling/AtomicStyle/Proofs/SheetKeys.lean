import AtomicStyle.Proofs.Hydration
import AtomicStyle.Proofs.Levels
import AtomicStyle.Proofs.Writing

/-!
# The keys of a stylesheet

A stylesheet is written with the rules of one at-rule in one block, and for a live document every rule
is written inside all its at-rules.  An at-rule has the keys of what is inside it, so the two have the
same keys in the same order.

Results:
1. `isBlock_bracedChars`, `isBlock_join`: how blocks are read, on any level.
2. `Sheet.IsReadable.keysOf_read`: the keys of a stylesheet are those of its rules.
3. `Sheet.keys_toCss_ofGroups`: the keys of the two, and that a client that has taken over the
   stylesheet inserts none of its rules.
-/

namespace AtomicStyle

open AtomicStyle.Text AtomicStyle.RuleText

/-! ## Legible rules -/

/-- A closed text without braces. -/
structure Unbraced (s : List Char) : Prop where
  closed : Css.Closed false s
  opening : '\x7b' ∉ s
  closing : '\x7d' ∉ s

instance (s : List Char) : Decidable (Unbraced s) :=
  decidable_of_iff (Css.Closed false s ∧ '\x7b' ∉ s ∧ '\x7d' ∉ s)
    ⟨fun h => ⟨h.1, h.2.1, h.2.2⟩, fun h => ⟨h.closed, h.opening, h.closing⟩⟩

theorem Unbraced.isPrelude {s : List Char} (h : Unbraced s) : IsPrelude s := by
  refine ⟨fun lexeme hmem => ?_, h.opening⟩
  have hclosed := h.closed lexeme hmem
  cases lexeme with
  | plain c =>
    have hc : c ∈ s := by
      rw [← Css.flatMap_text_lex false s]
      exact List.mem_flatMap.mpr ⟨_, hmem, List.mem_cons_self⟩
    have hopening : c ≠ '\x7b' := ne_of_mem_of_not_mem hc h.opening
    have hclosing : c ≠ '\x7d' := ne_of_mem_of_not_mem hc h.closing
    simp [isInert, hopening, hclosing]
  | _ => exact hclosed

/-- The parts of a rule are closed and have no braces, in the declaration apart from those in quoted
texts. -/
structure AtomicRule.Legible (rule : AtomicRule) : Prop where
  selector : Unbraced rule.context.selector.toList
  wrappers : ∀ wrapper ∈ rule.context.atRules,
    Unbraced wrapper.name.toList ∧ Unbraced wrapper.params.toList
  declaration : Inert rule.declaration.toList

instance (rule : AtomicRule) : Decidable rule.Legible :=
  decidable_of_iff (Unbraced rule.context.selector.toList ∧
      (∀ wrapper ∈ rule.context.atRules,
        Unbraced wrapper.name.toList ∧ Unbraced wrapper.params.toList) ∧
      Inert rule.declaration.toList)
    ⟨fun h => ⟨h.1, h.2.1, h.2.2⟩, fun h => ⟨h.selector, h.wrappers, h.declaration⟩⟩

theorem Unbraced.at_cons {s : List Char} (h : Unbraced s) : Unbraced ('@' :: s) := by
  refine ⟨(Css.closed_iff_scan _).mpr ((Css.closed_iff_scan s).mp h.closed), ?_, ?_⟩
  · simpa using h.opening
  · simpa using h.closing

theorem Unbraced.append_space {s t : List Char} (hs : Unbraced s) (ht : Unbraced t) :
    Unbraced (s ++ ' ' :: t) := by
  refine ⟨fun lexeme hmem => ?_, ?_, ?_⟩
  · rw [Css.lex_append_cons hs.closed (by decide) (by decide)] at hmem
    rcases List.mem_append.mp hmem with hmem | hmem
    · exact hs.closed lexeme hmem
    rcases List.mem_cons.mp hmem with rfl | hmem
    · rfl
    · exact ht.closed lexeme hmem
  · simpa using ⟨hs.opening, ht.opening⟩
  · simpa using ⟨hs.closing, ht.closing⟩

theorem unbraced_prelude {wrapper : AtRule} (hname : Unbraced wrapper.name.toList)
    (hparams : Unbraced wrapper.params.toList) : Unbraced wrapper.prelude.toList := by
  unfold AtRule.prelude
  split
  · rw [String.toList_append]
    exact hname.at_cons
  · have hchars : ("@" ++ wrapper.name ++ " " ++ wrapper.params).toList =
        '@' :: (wrapper.name.toList ++ ' ' :: wrapper.params.toList) := by simp
    rw [hchars]
    exact (hname.append_space hparams).at_cons

theorem unbraced_selector {rule : AtomicRule} {rendering : Rendering}
    (h : ClassName.isIdentifier (rule.cssClass rendering.compression) = true)
    (hselector : Unbraced rule.context.selector.toList) :
    Unbraced (rule.selector rendering).toList := by
  have hbrace : ∀ {c}, c ∈ ['\x7b', '\x7d', '*'] → c ∉ rule.context.selector.toList →
      c ∉ (rule.selector rendering).toList := by
    intro c hc habsent hmem
    rw [AtomicRule.toList_selector] at hmem
    rcases Selector.mem_or_mem_of_mem_renderFrom hmem with hmem | hmem
    · exact habsent hmem
    · exact not_mem_classSelector h hc hmem
  exact ⟨(closed_selector_iff h).mpr hselector.closed, hbrace (by decide) hselector.opening,
    hbrace (by decide) hselector.closing⟩

/-! ## Blocks -/

namespace RuleText

/-- A text that is read as the given rules and may stand in a block. -/
structure IsBlock (s : List Char) (rules : List (List Char)) : Prop where
  balanced : Balanced s
  yields : Yields s rules

theorem isBlock_nil : IsBlock [] [] := by
  refine ⟨⟨yields_nil.closed, fun state _ _ => ?_⟩, yields_nil⟩
  show Except.ok state = .ok (state.extend [])
  rw [Splitting.extend, List.append_nil]

theorem IsBlock.append {s t : List Char} {rules others : List (List Char)} (hs : IsBlock s rules)
    (ht : IsBlock t others) : IsBlock (s ++ t) (rules ++ others) := by
  have hyields := hs.yields.append ht.yields
  refine ⟨⟨hyields.closed, fun state hbegun hdepth => ?_⟩, hyields⟩
  rw [Css.lex_append_of_getLast? hs.yields.closed hs.yields.last, List.foldlM_append,
    hs.balanced.passes state hbegun hdepth]
  show List.foldlM Splitting.step (state.extend s) (Css.lex false t) = _
  rw [ht.balanced.passes (state.extend s) (by simp [Splitting.extend, hbegun]) hdepth,
    Splitting.extend_extend]

/-- A prelude with a block is one rule. -/
theorem isBlock_bracedChars {prelude body : List Char} (hprelude : Inert prelude)
    (hbody : Balanced body) :
    IsBlock (bracedChars prelude body) [bracedChars (opening prelude) body] := by
  refine ⟨balanced_bracedChars hprelude hbody, closed_bracedChars hprelude.closed hbody.closed, ?_,
    Splitting.foldlM_bracedChars hprelude hbody⟩
  rw [getLast?_bracedChars]
  decide

/-- Blocks in a row. -/
theorem isBlock_join {items : List String} {rules : List (List Char)}
    (h : List.Forall₂ (fun item rule => IsBlock item.toList [rule]) items rules) :
    IsBlock (String.join items).toList rules := by
  rw [String.toList_join]
  induction h with
  | nil => exact isBlock_nil
  | cons hitem _ ih => exact hitem.append ih

/-- Blocks on lines of their own. -/
theorem yields_intercalate {items : List String} {rules : List (List Char)}
    (h : List.Forall₂ (fun item rule => IsBlock item.toList [rule]) items rules) :
    Yields (String.intercalate "\n" items).toList rules := by
  have hline : Yields "\n".toList [] := ⟨by decide, by decide, rfl⟩
  induction h with
  | nil => exact yields_nil
  | cons hitem hrest ih =>
    cases hrest with
    | nil =>
      rw [String.intercalate_singleton]
      exact hitem.yields
    | cons =>
      rw [String.intercalate_cons_cons, String.toList_append, String.toList_append]
      exact (hitem.yields.append hline).append ih

end RuleText

/-! ## Rules inside their at-rules -/

/-- The rule that is read where a rule is written. -/
def AtomicRule.read (rule : AtomicRule) (rendering : Rendering) : List Char :=
  bracedChars (opening (rule.selector rendering).toList) rule.declaration.toList

/-- A block in an at-rule is one rule, with the keys of what is in the block. -/
theorem isBlock_atRule {wrapper : AtRule} (hprelude : IsPrelude wrapper.prelude.toList)
    {body : String} {rules : List (List Char)} (hbody : IsBlock body.toList rules) :
    IsBlock (AtomicRule.braced wrapper.prelude body).toList
        [bracedChars wrapper.prelude.toList body.toList] ∧
      keysOf [bracedChars wrapper.prelude.toList body.toList] = keysOf rules := by
  have hhead := head?_prelude wrapper
  constructor
  · have hblock := isBlock_bracedChars hprelude.inert hbody.balanced
    rw [opening_eq_self hhead (by decide) (by decide)] at hblock
    rw [toList_braced]
    exact hblock
  · exact keysOf_atRule_of_splitChars hprelude.braceFree hhead hbody.yields.splitChars_eq

/-- At-rules around a rule leave its keys as they are. -/
theorem keys_foldr_braced {wrappers : List AtRule}
    (hpreludes : ∀ wrapper ∈ wrappers, IsPrelude wrapper.prelude.toList) {text : String}
    {rule : List Char} (h : IsBlock text.toList [rule]) :
    keys (wrappers.foldr (fun wrapper css => AtomicRule.braced wrapper.prelude css) text) =
      keysOf [rule] := by
  suffices hblock : ∃ outer, IsBlock (wrappers.foldr (fun wrapper css =>
      AtomicRule.braced wrapper.prelude css) text).toList [outer] ∧
        keysOf [outer] = keysOf [rule] by
    obtain ⟨outer, houter, hkeys⟩ := hblock
    rw [houter.yields.keys_eq, hkeys]
  induction wrappers with
  | nil => exact ⟨rule, h, rfl⟩
  | cons wrapper rest ih =>
    obtain ⟨inner, hinner, hkeys⟩ := ih fun w hw => hpreludes w (List.mem_cons_of_mem wrapper hw)
    obtain ⟨houter, hsame⟩ := isBlock_atRule (hpreludes wrapper List.mem_cons_self) hinner
    exact ⟨_, houter, hsame.trans hkeys⟩

namespace AtomicRule.Legible

variable {rule : AtomicRule} {rendering : Rendering}

theorem isPrelude (h : rule.Legible) :
    ∀ wrapper ∈ rule.context.atRules, IsPrelude wrapper.prelude.toList := by
  intro wrapper hwrapper
  obtain ⟨hname, hparams⟩ := h.wrappers wrapper hwrapper
  exact (unbraced_prelude hname hparams).isPrelude

theorem isBlock_text (h : rule.Legible)
    (hclass : ClassName.isIdentifier (rule.cssClass rendering.compression) = true) :
    IsBlock (rule.text rendering).toList [rule.read rendering] := by
  rw [AtomicRule.text, toList_braced]
  exact isBlock_bracedChars (unbraced_selector hclass h.selector).isPrelude.inert
    h.declaration.balanced

theorem keys_toCss (h : rule.Legible)
    (hclass : ClassName.isIdentifier (rule.cssClass rendering.compression) = true) :
    keys (rule.toCss rendering) = keysOf [rule.read rendering] :=
  keys_foldr_braced h.isPrelude (h.isBlock_text hclass)

/-- A rule whose selector does not open with `@` has one key. -/
theorem exists_keys_toCss (h : rule.Legible)
    (hclass : ClassName.isIdentifier (rule.cssClass rendering.compression) = true)
    (hat : (opening rule.context.selector.toList).head? ≠ some '@') :
    ∃ name, keys (rule.toCss rendering) = .ok [name] := by
  have hbrace : '\x7b' ∉ opening (rule.selector rendering).toList := fun hmem =>
    (unbraced_selector hclass h.selector).opening ((opening_suffix _).mem hmem)
  rw [h.keys_toCss hclass, AtomicRule.read,
    keysOf_bracedChars hbrace (head?_opening_selector hclass hat)]
  exact ⟨_, rfl⟩

end AtomicRule.Legible

/-! ## Stylesheets -/

namespace Sheet

/-- The at-rules of all blocks. -/
def atRules : Sheet → List AtRule
  | nil => []
  | rule _ rest => rest.atRules
  | atRule wrapper body rest => wrapper :: (body.atRules ++ rest.atRules)

/-- The rules that are read where the items of a sheet are written, each at-rule as one of them. -/
def read (rendering : Rendering) : Sheet → List (List Char)
  | nil => []
  | rule r rest => r.read rendering :: rest.read rendering
  | atRule wrapper body rest =>
    bracedChars wrapper.prelude.toList (String.join (body.itemTexts rendering)).toList ::
      rest.read rendering

/-- A sheet whose rules and at-rules are read as they are meant. -/
structure IsReadable (rendering : Rendering) (sheet : Sheet) : Prop where
  rules : ∀ rule ∈ sheet.rules, IsBlock (rule.text rendering).toList [rule.read rendering]
  atRules : ∀ wrapper ∈ sheet.atRules, IsPrelude wrapper.prelude.toList

namespace IsReadable

variable {rendering : Rendering} {r : AtomicRule} {wrapper : AtRule} {body rest : Sheet}

theorem of_rule (h : IsReadable rendering (rule r rest)) : IsReadable rendering rest :=
  ⟨fun other hother => h.rules other (List.mem_cons_of_mem r hother), h.atRules⟩

theorem body_of_atRule (h : IsReadable rendering (atRule wrapper body rest)) :
    IsReadable rendering body :=
  ⟨fun other hother => h.rules other (List.mem_append_left rest.rules hother), fun other hother =>
    h.atRules other (List.mem_cons_of_mem wrapper (List.mem_append_left rest.atRules hother))⟩

theorem rest_of_atRule (h : IsReadable rendering (atRule wrapper body rest)) :
    IsReadable rendering rest :=
  ⟨fun other hother => h.rules other (List.mem_append_right body.rules hother), fun other hother =>
    h.atRules other (List.mem_cons_of_mem wrapper (List.mem_append_right body.atRules hother))⟩

/-- Every item is read as one rule. -/
theorem isBlock_itemTexts {sheet : Sheet} (h : IsReadable rendering sheet) :
    List.Forall₂ (fun item rule => IsBlock item.toList [rule]) (sheet.itemTexts rendering)
      (sheet.read rendering) := by
  induction sheet with
  | nil => exact .nil
  | rule r rest ih => exact .cons (h.rules r List.mem_cons_self) (ih h.of_rule)
  | atRule wrapper body rest ihBody ihRest =>
    have hbody := isBlock_join (ihBody h.body_of_atRule)
    exact .cons (isBlock_atRule (h.atRules wrapper List.mem_cons_self) hbody).1
      (ihRest h.rest_of_atRule)

/-- The keys of a stylesheet are those of its rules. -/
theorem keysOf_read {sheet : Sheet} (h : IsReadable rendering sheet) :
    keysOf (sheet.read rendering) = keysOf (sheet.rules.map (·.read rendering)) := by
  induction sheet with
  | nil => rfl
  | rule r rest ih =>
    rw [read, Sheet.rules, List.map_cons, keysOf_cons, ih h.of_rule, ← keysOf_cons]
  | atRule wrapper body rest ihBody ihRest =>
    have hbody := isBlock_join h.body_of_atRule.isBlock_itemTexts
    rw [read, Sheet.rules, List.map_append, keysOf_cons, keysOf_append,
      (isBlock_atRule (h.atRules wrapper List.mem_cons_self) hbody).2, ihBody h.body_of_atRule,
      ihRest h.rest_of_atRule]

end IsReadable

theorem atRules_ofRules (rules : List AtomicRule) (rest : Sheet) :
    (ofRules rules rest).atRules = rest.atRules := by
  induction rules with
  | nil => rfl
  | cons r others ih => exact ih

theorem atRules_ofBlocks (blocks : List (AtRule × Sheet)) :
    (ofBlocks blocks).atRules = blocks.flatMap fun block => block.1 :: block.2.atRules := by
  induction blocks with
  | nil => rfl
  | cons block others ih => exact congrArg (fun rest => block.1 :: (block.2.atRules ++ rest)) ih

/-- The at-rules of blocks are those around some rule. -/
theorem exists_of_mem_atRules_arrangeFrom {options : SortOptions} {depth : Nat}
    {placed : List Placed} {wrapper : AtRule}
    (h : wrapper ∈ (arrangeFrom options depth placed).atRules) :
    ∃ p ∈ placed, wrapper ∈ p.around := by
  induction depth generalizing placed with
  | zero =>
    rw [arrangeFrom, atRules_ofRules] at h
    exact absurd h List.not_mem_nil
  | succ depth ih =>
    rw [arrangeFrom, atRules_ofRules, atRules_ofBlocks, List.flatMap_map] at h
    obtain ⟨outer, houter, hwrapper⟩ := List.mem_flatMap.mp h
    rcases List.mem_cons.mp hwrapper with rfl | hwrapper
    · have hmet := List.mem_eraseDups.mp ((perm_arrangeAtRules options _).mem_iff.mp houter)
      obtain ⟨p, hp, hhead⟩ := List.mem_filterMap.mp hmet
      exact ⟨p, hp, List.mem_of_mem_head? hhead⟩
    · obtain ⟨p, hp, haround⟩ := ih hwrapper
      obtain ⟨q, hq, hchain, -⟩ := around_of_mem_inside hp
      exact ⟨q, hq, by rw [hchain]; exact List.mem_cons_of_mem outer haround⟩

theorem exists_rule_of_mem_atRules {options : SortOptions} {groups : List RuleGroup}
    {wrapper : AtRule} (h : wrapper ∈ (ofGroups options groups).atRules) :
    ∃ rule ∈ (ofGroups options groups).rules, wrapper ∈ rule.context.atRules := by
  obtain ⟨p, hp, hwrapper⟩ := exists_of_mem_atRules_arrangeFrom h
  obtain ⟨rule, hrule, rfl⟩ := List.mem_map.mp hp
  exact ⟨rule, (perm_rules_ofGroups options groups).mem_iff.mpr hrule, hwrapper⟩

/-- A stylesheet of legible rules has the keys of its rule texts. -/
theorem keys_toCss_of_legible {sorting : SortOptions} {groups : List RuleGroup}
    {rendering : Rendering}
    (hclass : ∀ rule ∈ (ofGroups sorting groups).rules,
      ClassName.isIdentifier (rule.cssClass rendering.compression) = true)
    (hlegible : ∀ rule ∈ (ofGroups sorting groups).rules, rule.Legible) :
    keys ((ofGroups sorting groups).toCss rendering) =
      (((ofGroups sorting groups).ruleTexts rendering).mapM keys).map List.flatten := by
  have hreadable : IsReadable rendering (ofGroups sorting groups) := by
    constructor
    · intro rule hrule
      exact (hlegible rule hrule).isBlock_text (hclass rule hrule)
    · intro wrapper hwrapper
      obtain ⟨rule, hrule, hmem⟩ := exists_rule_of_mem_atRules hwrapper
      exact (hlegible rule hrule).isPrelude wrapper hmem
  have htexts : ∀ rule ∈ (ofGroups sorting groups).rules,
      keys (rule.toCss rendering) = keysOf [rule.read rendering] :=
    fun rule hrule => (hlegible rule hrule).keys_toCss (hclass rule hrule)
  rw [toCss, (yields_intercalate hreadable.isBlock_itemTexts).keys_eq, hreadable.keysOf_read,
    keysOf_map htexts]
  rfl

/-! ## Taking over a stylesheet -/

/-- **The keys of a stylesheet.**  Take groups as atomizing gives them, sorted and written in any way,
and let the parts of all rules be legible.  The stylesheet has the keys of the rule texts, one after the
other, or reading both fails in the same way.  If no selector opens with `@`, comments and blanks before
it aside, both are read, each rule text has one key, and a client that has taken over the stylesheet
inserts none of the rule texts. -/
theorem keys_toCss_ofGroups (sorting : SortOptions) {groups : List RuleGroup}
    (hgroups : ∀ g ∈ groups, ∃ (salt : String) (block : Block), g = block.atomize salt)
    (rendering : Rendering) (hmap : ∀ map, rendering.compression = some map → map.Supplied)
    (hlegible : ∀ rule ∈ (ofGroups sorting groups).rules, rule.Legible) :
    keys ((ofGroups sorting groups).toCss rendering) =
        (((ofGroups sorting groups).ruleTexts rendering).mapM keys).map List.flatten ∧
      ((∀ rule ∈ (ofGroups sorting groups).rules,
          (opening rule.context.selector.toList).head? ≠ some '@') →
        keys ((ofGroups sorting groups).toCss rendering) =
            .ok (((ofGroups sorting groups).ruleTexts rendering).map key) ∧
          ∃ state, InsertionState.ofCss ((ofGroups sorting groups).toCss rendering) = .ok state ∧
            ∀ (document : Document) (nonce : Option String) (texts : List String),
              (∀ text ∈ texts, text ∈ (ofGroups sorting groups).ruleTexts rendering) →
                Manager.ensureInserted ⟨document, state, nonce⟩ texts =
                  (.ok 0, ⟨document, state, nonce⟩)) := by
  have hemitted : ∀ rule ∈ (ofGroups sorting groups).rules, ∃ salt, rule.Emitted salt := by
    intro rule hrule
    obtain ⟨g, hg, hmem⟩ := exists_group_of_mem_ofGroups hrule
    obtain ⟨salt, block, rfl⟩ := hgroups g hg
    exact ⟨salt, emitted_of_mem_atomize hmem⟩
  have hclass : ∀ rule ∈ (ofGroups sorting groups).rules,
      ClassName.isIdentifier (rule.cssClass rendering.compression) = true := by
    intro rule hrule
    obtain ⟨salt, hrule⟩ := hemitted rule hrule
    exact isIdentifier_cssClass hrule hmap
  have hkeys := keys_toCss_of_legible hclass hlegible
  refine ⟨hkeys, fun hat => ?_⟩
  have hsingle : ∀ text ∈ (ofGroups sorting groups).ruleTexts rendering,
      trimmed text = text ∧ keys text = .ok [key text] := by
    intro text htext
    obtain ⟨rule, hrule, rfl⟩ := List.mem_map.mp htext
    obtain ⟨salt, hsalt⟩ := hemitted rule hrule
    have htrimmed := trimmed_toCss hsalt rendering
    obtain ⟨name, hname⟩ :=
      (hlegible rule hrule).exists_keys_toCss (hclass rule hrule) (hat rule hrule)
    refine ⟨htrimmed, ?_⟩
    rw [key, htrimmed, hname]
  rw [mapM_keys fun text htext => (hsingle text htext).2] at hkeys
  refine ⟨hkeys, _, congrArg (Except.map InsertionState.ofClassNames) hkeys, ?_⟩
  intro document nonce texts htexts
  refine Manager.ensureInserted_of_known fun text htext => ?_
  rw [(hsingle text (htexts text htext)).1]
  exact InsertionState.mem_keys_recordAll.mpr (.inr (List.mem_map_of_mem (htexts text htext)))

/-- Two groups share a block of `@media print`, with a quoted brace in it, and a selector begins with a
comment. -/
theorem keys_toCss_ofGroups_print :
    let printed : Block := .atRule "media" "print" (.rule ["&:hover"]
      (.declaration ⟨"content", [.text "\"\x7b\""], false⟩ .nil) .nil) .nil
    let dark : Block := .rule ["/* x */ .dark &"]
      (.declaration ⟨"color", [.text "blue"], false⟩ .nil)
      (.atRule "media" "print" (.atRule "supports" "(top: 0)"
        (.declaration ⟨"top", [.text "0"], false⟩ .nil) .nil) .nil)
    let map := CompressionMap.ofEntries [("q931idpf", "a")]
    let sheet := ofGroups {} [printed.atomize "", dark.atomize ""]
    map.Supplied ∧
      sheet.toCss ⟨true, some map⟩ =
        "/* x */ .dark ._v7kl13q2:not(#\\#)\x7bcolor:blue\x7d\n@media print\x7b" ++
          "._1ha51p7h:not(#\\#):hover\x7bcontent:\"\x7b\"\x7d" ++
          "@supports (top: 0)\x7b.a:not(#\\#)\x7btop:0\x7d\x7d\x7d" ∧
      (∀ rule ∈ sheet.rules,
        rule.Legible ∧ (opening rule.context.selector.toList).head? ≠ some '@') ∧
      keys (sheet.toCss ⟨true, some map⟩) =
        .ok ((sheet.ruleTexts ⟨true, some map⟩).map key) ∧
      ∃ state, InsertionState.ofCss (sheet.toCss ⟨true, some map⟩) = .ok state ∧
        Manager.ensureInserted { state } (sheet.ruleTexts ⟨true, some map⟩) =
          (.ok 0, { state }) := by
  intro printed dark map sheet
  have hmap : map.Supplied := .entries _
  have hrules : ∀ rule ∈ sheet.rules,
      rule.Legible ∧ (opening rule.context.selector.toList).head? ≠ some '@' := by
    decide +kernel
  have hgroups : ∀ g ∈ [printed.atomize "", dark.atomize ""],
      ∃ (salt : String) (block : Block), g = block.atomize salt := by
    intro g hg
    rcases List.mem_cons.mp hg with rfl | hg
    · exact ⟨"", printed, rfl⟩
    · exact ⟨"", dark, List.mem_singleton.mp hg⟩
  obtain ⟨hkeys, state, hstate, hnone⟩ := (keys_toCss_ofGroups {} hgroups ⟨true, some map⟩
    (fun other hother => Option.some.inj hother ▸ hmap) fun rule hrule => (hrules rule hrule).1).2
      fun rule hrule => (hrules rule hrule).2
  exact ⟨hmap, by decide +kernel, hrules, hkeys, state, hstate, hnone _ _ _ fun text htext => htext⟩

/-- A selector may begin with a comment and still open with `@`.  Then its rule is read as an at-rule,
and its declaration is not a rule. -/
theorem keys_toCss_comment_at :
    let block : Block := .rule ["/**/@x &"] (.declaration ⟨"color", [.text "red"], false⟩ .nil) .nil
    let sheet := ofGroups {} [block.atomize ""]
    (∀ rule ∈ sheet.rules, rule.Legible ∧ rule.context.selector.toList.head? ≠ some '@') ∧
      sheet.toCss {} = "/**/@x ._1s6o5scu\x7bcolor:red\x7d" ∧
      keys (sheet.toCss {}) = .error (.malformedRule "color:red" .trailingText) := by
  intro block sheet
  have hcss : sheet.toCss {} = "/**/@x ._1s6o5scu\x7bcolor:red\x7d" := by decide +kernel
  refine ⟨by decide +kernel, hcss, ?_⟩
  have hsplit : splitChars (sheet.toCss {}).toList =
      .ok ["@x ._1s6o5scu\x7bcolor:red\x7d".toList] := by
    rw [hcss]
    decide +kernel
  rw [keys_eq_keysOf hsplit, keysOf_at (by decide +kernel) (by decide +kernel)]
  have hblock : splitChars (blockText "@x ._1s6o5scu\x7bcolor:red\x7d".toList) =
      .error .trailingText := by decide +kernel
  rw [hblock]
  show Except.error _ = _
  decide +kernel

end Sheet

end AtomicStyle

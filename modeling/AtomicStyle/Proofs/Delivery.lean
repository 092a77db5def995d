import AtomicStyle.Proofs.Arrangement
import AtomicStyle.Proofs.Insertion
import AtomicStyle.Proofs.Lowering
import AtomicStyle.Proofs.RuleKeys

/-!
# From the compiler to the document

The texts of a compiled unit are handed to a manager, which recognises a rule by its key.  The key
is read off the text of the rule, so it is the class name of the rule only if that class is the
first one in the text.

Results:
1. `trimmed_toCss`: what the compiler writes has no blanks at its ends.
2. `key_toCss`: the key of a rule that names its own class first.
3. `delivery_iff`: all rules of a unit are inserted, each once, iff their keys are distinct.
-/

namespace AtomicStyle

open AtomicStyle.Text AtomicStyle.RuleText

/-! ## The ends of a written rule -/

theorem normalizeFrom_cons {c : Char} (hc : isBlank c = false) (rest : List Char) :
    ∃ tail, Selector.normalizeFrom {} (c :: rest) = c :: tail := by
  rw [Selector.normalizeFrom]
  have hdepth : ¬ 0 < ({} : Selector.NormalState).depth := Nat.lt_irrefl 0
  have hblank : ¬ isBlank c = true := Bool.eq_false_iff.mp hc
  simp only [if_neg hdepth, if_neg hblank]
  split
  · exact ⟨_, rfl⟩
  · exact ⟨_, rfl⟩

/-- A normalized selector opens with a character that is not blank. -/
theorem isBlank_of_head?_normalize {selector : String} {c : Char}
    (h : (Selector.normalize selector).toList.head? = some c) : isBlank c = false := by
  rw [Selector.normalize, String.toList_ofList, Selector.normalizeChars] at h
  cases htrim : trim selector.toList with
  | nil =>
    rw [htrim] at h
    cases h
  | cons d rest =>
    have hd : isBlank d = false := isBlank_of_head?_trim (by rw [htrim, List.head?_cons])
    obtain ⟨tail, htail⟩ := normalizeFrom_cons hd rest
    rw [htrim, htail] at h
    cases h
    exact hd

/-- So does the selector that is written for a rule. -/
theorem isBlank_of_head?_selector {salt : String} {rule : AtomicRule} (h : rule.Emitted salt)
    (rendering : Rendering) {c : Char} (hc : (rule.selector rendering).toList.head? = some c) :
    isBlank c = false := by
  obtain ⟨selector, hselector⟩ := h.normalized
  rw [AtomicRule.selector, Context.render, Selector.render, String.toList_ofList, hselector] at hc
  cases hchars : (Selector.normalize selector).toList with
  | nil =>
    rw [hchars] at hc
    cases hc
  | cons d rest =>
    have hd : isBlank d = false := isBlank_of_head?_normalize (by rw [hchars, List.head?_cons])
    rw [hchars, Selector.renderFrom] at hc
    split at hc
    · cases hc
      exact hd
    · split at hc
      · rw [String.toList_append, String.toList_append] at hc
        cases hc
        decide
      · cases hc
        exact hd

theorem toList_braced (prelude body : String) :
    (AtomicRule.braced prelude body).toList = bracedChars prelude.toList body.toList := by
  have hopen : "\x7b".toList = ['\x7b'] := rfl
  have hclose : "\x7d".toList = ['\x7d'] := rfl
  rw [AtomicRule.braced, String.toList_append, String.toList_append, String.toList_append, hopen,
    hclose, bracedChars, List.append_assoc, List.append_assoc]
  rfl

theorem head?_prelude (wrapper : AtRule) : wrapper.prelude.toList.head? = some '@' := by
  unfold AtRule.prelude
  split
  · rw [String.toList_append]
    rfl
  · rw [String.toList_append, String.toList_append, String.toList_append]
    rfl

theorem isBlank_of_head?_braced {prelude body : String}
    (h : ∀ c, prelude.toList.head? = some c → isBlank c = false) {c : Char}
    (hc : (AtomicRule.braced prelude body).toList.head? = some c) : isBlank c = false := by
  rw [toList_braced] at hc
  cases hchars : prelude.toList with
  | nil =>
    rw [hchars] at hc
    cases hc
    decide
  | cons d rest =>
    rw [hchars] at hc
    cases hc
    exact h c (by rw [hchars, List.head?_cons])

/-- At-rules around a text put a sign before it. -/
theorem isBlank_of_head?_wrapped (wrappers : List AtRule) {text : String}
    (h : ∀ c, text.toList.head? = some c → isBlank c = false) {c : Char}
    (hc : (wrappers.foldr (fun wrapper css => AtomicRule.braced wrapper.prelude css)
      text).toList.head? = some c) : isBlank c = false := by
  cases wrappers with
  | nil => exact h c hc
  | cons wrapper rest =>
    refine isBlank_of_head?_braced (fun d hd => ?_) hc
    rw [head?_prelude] at hd
    cases hd
    decide

/-- A rule with or without at-rules ends with a brace. -/
theorem getLast?_toCss (rule : AtomicRule) (rendering : Rendering) :
    (rule.toCss rendering).toList.getLast? = some '\x7d' := by
  unfold AtomicRule.toCss
  cases rule.context.atRules with
  | nil => rw [List.foldr_nil, AtomicRule.text, toList_braced, getLast?_bracedChars]
  | cons wrapper rest => rw [List.foldr_cons, toList_braced, getLast?_bracedChars]

/-- What is written for a rule has no blanks at its ends. -/
theorem trimmed_toCss {salt : String} {rule : AtomicRule} (h : rule.Emitted salt)
    (rendering : Rendering) : trimmed (rule.toCss rendering) = rule.toCss rendering := by
  rw [trimmed, trim_eq_self, String.ofList_toList]
  · intro c hc
    refine isBlank_of_head?_wrapped rule.context.atRules (fun d hd => ?_) hc
    exact isBlank_of_head?_braced (fun _ => isBlank_of_head?_selector h rendering) hd
  · intro c hc
    rw [getLast?_toCss] at hc
    cases hc
    decide

/-! ## The key of a written rule -/

/-- A rule whose text is read as it is meant: its parts are closed, braces and a leading `@` or
comment in them do not get in the way, and its own class is the first one in its selector. -/
structure AtomicRule.ShowsClass (rendering : Rendering) (rule : AtomicRule) : Prop where
  preludes : ∀ wrapper ∈ rule.context.atRules, IsPrelude wrapper.prelude.toList
  selector : IsPrelude (rule.selector rendering).toList
  notAt : (rule.selector rendering).toList.head? ≠ some '@'
  notSlash : (rule.selector rendering).toList.head? ≠ some '/'
  declaration : Inert rule.declaration.toList
  first : firstClass? (rule.selector rendering).toList =
    some (rule.cssClass rendering.compression).toList

instance (rendering : Rendering) (rule : AtomicRule) : Decidable (rule.ShowsClass rendering) :=
  decidable_of_iff
    ((∀ wrapper ∈ rule.context.atRules, IsPrelude wrapper.prelude.toList) ∧
      IsPrelude (rule.selector rendering).toList ∧
      (rule.selector rendering).toList.head? ≠ some '@' ∧
      (rule.selector rendering).toList.head? ≠ some '/' ∧
      Inert rule.declaration.toList ∧
      firstClass? (rule.selector rendering).toList =
        some (rule.cssClass rendering.compression).toList)
    ⟨fun ⟨h₁, h₂, h₃, h₄, h₅, h₆⟩ => ⟨h₁, h₂, h₃, h₄, h₅, h₆⟩,
      fun ⟨h₁, h₂, h₃, h₄, h₅, h₆⟩ => ⟨h₁, h₂, h₃, h₄, h₅, h₆⟩⟩

/-- A text that is read as one rule with the given keys, alone or inside at-rules. -/
structure IsRule (text : String) (names : List String) : Prop where
  balanced : Balanced text.toList
  split : splitChars text.toList = .ok [text.toList]
  keys : keysOf [text.toList] = .ok names

/-- At-rules around one rule leave it one rule with the same keys. -/
theorem isRule_foldr_braced {wrappers : List AtRule}
    (hpreludes : ∀ wrapper ∈ wrappers, IsPrelude wrapper.prelude.toList) {text : String}
    {names : List String} (h : IsRule text names) :
    IsRule (wrappers.foldr (fun wrapper css => AtomicRule.braced wrapper.prelude css) text)
      names := by
  induction wrappers with
  | nil => exact h
  | cons wrapper rest ih =>
    have hprelude := hpreludes wrapper List.mem_cons_self
    have hhead := head?_prelude wrapper
    obtain ⟨hbalanced, hsplit, hkeys⟩ := ih fun w hw => hpreludes w (List.mem_cons_of_mem _ hw)
    rw [List.foldr_cons]
    constructor
    · rw [toList_braced]
      exact balanced_bracedChars hprelude.inert hbalanced
    · rw [toList_braced]
      exact splitChars_braced hprelude.inert hbalanced hhead (by decide) (by decide)
    · rw [toList_braced, keysOf_atRule hprelude hhead hsplit, hkeys]

/-- A selector with a block has its first class as its key. -/
theorem isRule_braced {selector declaration name : String} {c : Char}
    (hselector : IsPrelude selector.toList) (hdeclaration : Inert declaration.toList)
    (hhead : selector.toList.head? = some c) (hblank : isBlank c = false)
    (hat : selector.toList.head? ≠ some '@') (hslash : selector.toList.head? ≠ some '/')
    (hname : firstClass? selector.toList = some name.toList) :
    IsRule (AtomicRule.braced selector declaration) [name] := by
  have hc : c ≠ '/' := by
    rintro rfl
    exact hslash hhead
  constructor
  · rw [toList_braced]
    exact balanced_bracedChars hselector.inert hdeclaration.balanced
  · rw [toList_braced]
    exact splitChars_braced hselector.inert hdeclaration.balanced hhead hblank hc
  · rw [toList_braced, keysOf_rule hselector hat hname, String.ofList_toList]

theorem IsRule.key_eq {text name : String} {names : List String} (h : IsRule text (name :: names))
    (htrimmed : trimmed text = text) : key text = name := by
  rw [key, htrimmed, keys_of_splitChars h.split, h.keys]

/-- The rule itself, without its at-rules. -/
theorem AtomicRule.ShowsClass.isRule_text {rendering : Rendering} {rule : AtomicRule}
    (hshows : rule.ShowsClass rendering) {salt : String} (h : rule.Emitted salt) :
    IsRule (rule.text rendering) [rule.cssClass rendering.compression] := by
  obtain ⟨c, hhead⟩ : ∃ c, (rule.selector rendering).toList.head? = some c := by
    have hfirst := hshows.first
    cases hchars : (rule.selector rendering).toList with
    | nil =>
      rw [hchars] at hfirst
      cases hfirst
    | cons c rest => exact ⟨c, rfl⟩
  exact isRule_braced hshows.selector hshows.declaration hhead
    (isBlank_of_head?_selector h rendering hhead) hshows.notAt hshows.notSlash hshows.first

/-- The key of a rule that shows its class is that class. -/
theorem key_toCss {salt : String} {rule : AtomicRule} (h : rule.Emitted salt)
    {rendering : Rendering} (hshows : rule.ShowsClass rendering) :
    key (rule.toCss rendering) = rule.cssClass rendering.compression :=
  (isRule_foldr_braced hshows.preludes (hshows.isRule_text h)).key_eq (trimmed_toCss h rendering)

/-! ## Units -/

/-- **Delivery.**  Take a unit whose rule texts are all well-formed.  A manager that starts on an
empty document inserts all of them, each once, iff their keys are distinct.  Where every rule shows
its class, this is the case iff the class names of the rules are distinct. -/
theorem delivery_iff (compiler : Compiler) (unit : SourceUnit) (cache : GroupCache)
    (hcache : cache.Faithful id) (nonce : Option String) (output : CompileOutput)
    (hrun : ((compiler.compile unit).run cache).1 = output)
    (hcheck : ∀ text ∈ output.ruleTexts, RuleText.check text = .ok ()) :
    (Manager.InsertsAll nonce output.ruleTexts ↔ (output.ruleTexts.map RuleText.key).Nodup) ∧
      ((∀ rule ∈ (Sheet.ofGroups compiler.options.sorting output.groups).rules,
          rule.ShowsClass compiler.options.rendering) →
        (Manager.InsertsAll nonce output.ruleTexts ↔
          ((Sheet.ofGroups compiler.options.sorting output.groups).rules.map
            (·.cssClass compiler.options.rendering.compression)).Nodup)) := by
  obtain ⟨hatomized, htexts⟩ := compiler.output_compile unit cache hcache
  rw [hrun] at hatomized htexts
  have hemitted : ∀ rule ∈ (Sheet.ofGroups compiler.options.sorting output.groups).rules,
      rule.Emitted compiler.salt := by
    intro rule hrule
    obtain ⟨g, hg, hmem⟩ := Sheet.exists_group_of_mem_ofGroups hrule
    exact emitted_of_atomized hatomized hg hmem
  have htrimmed : ∀ text ∈ output.ruleTexts, trimmed text = text := by
    intro text htext
    rw [htexts] at htext
    obtain ⟨rule, hrule, rfl⟩ := List.mem_map.mp htext
    exact trimmed_toCss (hemitted rule hrule) compiler.options.rendering
  have hkeys := Manager.insertsAll_iff nonce htrimmed hcheck
  refine ⟨hkeys, fun hshows => ?_⟩
  have hclasses : output.ruleTexts.map RuleText.key =
      (Sheet.ofGroups compiler.options.sorting output.groups).rules.map
        (·.cssClass compiler.options.rendering.compression) := by
    rw [htexts, Sheet.ruleTexts, List.map_map]
    apply List.map_congr_left
    intro rule hrule
    rw [Function.comp_apply]
    exact key_toCss (hemitted rule hrule) (hshows rule hrule)
  rw [hkeys, hclasses]

/-- A unit with one site: a color under a selector, and another one for print. -/
def printedUnit (selector : String) : SourceUnit :=
  { path := "a.js"
    sites := [⟨Span.none, .object Span.none [.named selector (.object Span.none
      [.named "color" (.str Span.none "red"),
        .named "@media print" (.object Span.none [.named "color" (.str Span.none "blue")])])]⟩] }

/-- Two rules of a hovered element show different classes, so both are inserted. -/
theorem delivery_iff_hover :
    let compiler : Compiler := ⟨{}, ⟨Resolver.none, Helpers.none⟩⟩
    let output := ((compiler.compile (printedUnit "&:hover")).run .empty).1
    (∀ text ∈ output.ruleTexts, RuleText.check text = .ok ()) ∧
      (∀ rule ∈ (Sheet.ofGroups compiler.options.sorting output.groups).rules,
        rule.ShowsClass compiler.options.rendering) ∧
      output.ruleTexts.length = 2 ∧ Manager.InsertsAll none output.ruleTexts := by
  intro compiler output
  have hcheck : ∀ text ∈ output.ruleTexts, RuleText.check text = .ok () := by
    decide +kernel
  have hshows : ∀ rule ∈ (Sheet.ofGroups compiler.options.sorting output.groups).rules,
      rule.ShowsClass compiler.options.rendering := by
    decide +kernel
  refine ⟨hcheck, hshows, by decide +kernel, ?_⟩
  apply ((delivery_iff compiler (printedUnit "&:hover") .empty GroupCache.faithful_empty none output
    rfl hcheck).2 hshows).mpr
  decide +kernel

/-- Below an ancestor with a class, the key of every rule is the class of the ancestor, so the
second rule is taken for the first one. -/
theorem below_ancestor_not_delivered :
    let compiler : Compiler := ⟨{}, ⟨Resolver.none, Helpers.none⟩⟩
    let output := ((compiler.compile (printedUnit ".dark &")).run .empty).1
    output.isOk = true ∧ (∀ text ∈ output.ruleTexts, RuleText.check text = .ok ()) ∧
      output.ruleTexts.map RuleText.key = ["dark", "dark"] ∧
        ¬ Manager.InsertsAll none output.ruleTexts := by
  intro compiler output
  have htexts : output.ruleTexts = [AtomicRule.braced ".dark ._1g1r5scu" "color:red",
      AtomicRule.braced (AtRule.prelude ⟨"media", "print"⟩)
        (AtomicRule.braced ".dark ._159u13q2" "color:blue")] := by
    decide +kernel
  have hcheck : ∀ text ∈ output.ruleTexts, RuleText.check text = .ok () := by
    rw [htexts]
    decide +kernel
  have htrimmed : ∀ text ∈ output.ruleTexts, trimmed text = text := by
    rw [htexts]
    decide +kernel
  have hkeys : output.ruleTexts.map RuleText.key = ["dark", "dark"] := by
    have hred : IsRule (AtomicRule.braced ".dark ._1g1r5scu" "color:red") ["dark"] := by
      apply isRule_braced (c := '.') <;> decide +kernel
    have hblue : IsRule (AtomicRule.braced ".dark ._159u13q2" "color:blue") ["dark"] := by
      apply isRule_braced (c := '.') <;> decide +kernel
    have hprint := @isRule_foldr_braced [⟨"media", "print"⟩] (by decide +kernel) _ _ hblue
    rw [List.foldr_cons, List.foldr_nil] at hprint
    rw [htexts] at htrimmed ⊢
    rw [List.map_cons, List.map_cons, List.map_nil, hred.key_eq (htrimmed _ (by simp)),
      hprint.key_eq (htrimmed _ (by simp))]
  refine ⟨by decide +kernel, hcheck, hkeys, ?_⟩
  rw [Manager.insertsAll_iff none htrimmed hcheck, hkeys]
  decide

end AtomicStyle

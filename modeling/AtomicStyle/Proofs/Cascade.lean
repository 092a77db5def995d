import AtomicStyle.Proofs.Bucketing
import AtomicStyle.Proofs.History

/-!
# The cascade in a stylesheet and in a document

A stylesheet has its plain rules sorted, by bucket and then shorthands before what they cover.  A
live document has its rules by bucket only; in a bucket they stand in the order of their arrival.
So two plain rules of one bucket may stand the other way round in the document: if a call brings a
longhand, and a later call the shorthand that covers it.

Results:
1. `Sheet.plainSorted_ofGroups`: the plain rules of a stylesheet are sorted.
2. `Manager.Records.precedes_rules_iff`: the order of two rules in a document.
3. `RuleText.precedes_history_iff`: which of two rules arrives first.
4. `cascade_iff`: when a document has two plain rules in the order of the stylesheet.
-/

namespace AtomicStyle

open AtomicStyle.Text

/-! ## Stylesheets -/

namespace Sheet

theorem exists_placed_of_mem_plain {options : SortOptions} {placed : List Placed}
    {rule : AtomicRule} (h : rule ∈ (plain placed).mergeSort options.ruleLe) :
    ∃ p ∈ placed, p.rule = rule := by
  obtain ⟨p, hp, rfl⟩ := List.mem_map.mp (List.mem_mergeSort.mp h)
  exact ⟨p, (List.mem_filter.mp hp).1, rfl⟩

/-- The rules of an arrangement are rules that were placed. -/
theorem exists_placed_of_mem {options : SortOptions} {depth : Nat} {placed : List Placed}
    {rule : AtomicRule} (h : rule ∈ (arrangeFrom options depth placed).rules) :
    ∃ p ∈ placed, p.rule = rule := by
  induction depth generalizing placed with
  | zero =>
    rw [arrangeFrom, rules_ofRules, rules, List.append_nil] at h
    exact exists_placed_of_mem_plain h
  | succ depth ih =>
    rw [arrangeFrom, rules_ofRules, rules_ofBlocks, List.flatMap_map] at h
    rcases List.mem_append.mp h with h | h
    · exact exists_placed_of_mem_plain h
    · obtain ⟨wrapper, -, hrule⟩ := List.mem_flatMap.mp h
      obtain ⟨p, hp, rfl⟩ := ih hrule
      obtain ⟨q, hq, -, hsame⟩ := around_of_mem_inside hp
      exact ⟨q, hq, hsame⟩

/-- Plain rules stand in sorted order. -/
def PlainSorted (options : SortOptions) (rules : List AtomicRule) : Prop :=
  rules.Pairwise fun a b =>
    a.context.atRules = [] → b.context.atRules = [] → options.ruleLe a b = true

theorem PlainSorted.precedes {options : SortOptions} {rules : List AtomicRule}
    (h : PlainSorted options rules) {a b : AtomicRule} (ha : a ∈ rules) (hb : b ∈ rules)
    (hplain : a.context.atRules = []) (hplain' : b.context.atRules = [])
    (hle : options.ruleLe b a = false) : Precedes rules a b := by
  have hne : a ≠ b := by
    rintro rfl
    have htotal := options.ruleLe_total a a
    rw [hle] at htotal
    cases htotal
  refine (precedes_or_precedes ha hb hne).resolve_right fun hba => ?_
  rw [pairwise_iff_precedes.mp h b a hba hplain' hplain] at hle
  cases hle

theorem plainSorted_arrangeFrom (options : SortOptions) (depth : Nat) {placed : List Placed}
    (haround : ∀ p ∈ placed, p.around = p.rule.context.atRules) :
    PlainSorted options (arrangeFrom options depth placed).rules := by
  have hsorted : PlainSorted options ((plain placed).mergeSort options.ruleLe) :=
    (List.pairwise_mergeSort SortOptions.ruleLe_trans options.ruleLe_total _).imp
      fun hle _ _ => hle
  cases depth with
  | zero =>
    rw [arrangeFrom, rules_ofRules, rules, List.append_nil]
    exact hsorted
  | succ depth =>
    rw [arrangeFrom, rules_ofRules, rules_ofBlocks, List.flatMap_map]
    -- no rule of a block is plain
    have hblocks : ∀ rule ∈ (options.arrangeAtRules (wrappers placed)).flatMap (fun wrapper =>
        (arrangeFrom options depth (inside wrapper placed)).rules), rule.context.atRules ≠ [] := by
      intro rule hrule
      obtain ⟨wrapper, -, hrule⟩ := List.mem_flatMap.mp hrule
      obtain ⟨p, hp, rfl⟩ := exists_placed_of_mem hrule
      obtain ⟨q, hq, hcons, hsame⟩ := around_of_mem_inside hp
      rw [← hsame, ← haround q hq, hcons]
      exact List.cons_ne_nil _ _
    refine List.pairwise_append.mpr ⟨hsorted, ?_, fun a _ b hb _ hplain => ?_⟩
    · exact List.pairwise_iff_forall_sublist.mpr fun {a b} hsub _ hplain =>
        absurd hplain (hblocks b (hsub.subset (by simp)))
    · exact absurd hplain (hblocks b hb)

/-- The plain rules of a stylesheet are sorted. -/
theorem plainSorted_ofGroups (options : SortOptions) (groups : List RuleGroup) :
    PlainSorted options (ofGroups options groups).rules := by
  refine plainSorted_arrangeFrom options _ fun p hp => ?_
  obtain ⟨rule, -, rfl⟩ := List.mem_map.mp hp
  rfl

end Sheet

/-! ## Documents -/

namespace Manager

/-- A rule stands before another one in a document iff its point is lower, or the points are the same
and it was inserted before. -/
theorem Records.precedes_rules_iff {manager : Manager} {known inserted : List String}
    (h : manager.Records known inserted) {a b : String} (ha : a ∈ inserted) (hb : b ∈ inserted) :
    Precedes manager.document.rules a b ↔
      (InsertionPoint.ofRule a).rank < (InsertionPoint.ofRule b).rank ∨
        InsertionPoint.ofRule a = InsertionPoint.ofRule b ∧ Precedes inserted a b := by
  -- every two rules of the document are ordered so
  have hall : manager.document.rules.Pairwise fun a b =>
      (InsertionPoint.ofRule a).rank < (InsertionPoint.ofRule b).rank ∨
        InsertionPoint.ofRule a = InsertionPoint.ofRule b ∧ Precedes inserted a b := by
    rw [Document.rules, h.elements, List.flatMap_map, List.pairwise_flatMap]
    constructor
    · intro point _
      refine pairwise_iff_precedes.mpr fun a b hab => Or.inr ⟨?_, hab.trans List.filter_sublist⟩
      have ha := (List.mem_filter.mp (hab.subset List.mem_cons_self)).2
      have hb := (List.mem_filter.mp (hab.subset (List.mem_cons_of_mem _ List.mem_cons_self))).2
      exact (of_decide_eq_true ha).trans (of_decide_eq_true hb).symm
    · refine h.ascends.imp fun {p q} hlt a ha b hb => Or.inl ?_
      have ha := of_decide_eq_true (List.mem_filter.mp ha).2
      have hb := of_decide_eq_true (List.mem_filter.mp hb).2
      rw [ha, hb]
      exact hlt
  constructor
  · exact pairwise_iff_precedes.mp hall a b
  · intro hab
    have hne : a ≠ b := by
      rintro rfl
      rcases hab with hlt | ⟨-, hself⟩
      · exact Nat.lt_irrefl _ hlt
      · exact hself.asymm h.nodup hself
    have hmem : ∀ css, css ∈ inserted → css ∈ manager.document.rules :=
      fun css => h.rules_perm.mem_iff.mpr
    refine (precedes_or_precedes (hmem a ha) (hmem b hb) hne).resolve_right fun hba => ?_
    rcases hab with hlt | ⟨heq, hab⟩
    · rcases pairwise_iff_precedes.mp hall b a hba with hlt' | ⟨heq, -⟩
      · exact Nat.lt_asymm hlt hlt'
      · rw [heq] at hlt
        exact Nat.lt_irrefl _ hlt
    · rcases pairwise_iff_precedes.mp hall b a hba with hlt | ⟨-, hba⟩
      · rw [heq] at hlt
        exact Nat.lt_irrefl _ hlt
      · exact hab.asymm h.nodup hba

end Manager

/-! ## Arrival -/

namespace RuleText

theorem newRules_sublist (known rules : List String) :
    (newRules known rules).Sublist (rules.map trimmed) := by
  fun_induction newRules known rules with
  | case1 => exact List.Sublist.refl _
  | case2 known rule rest css hkey ih => exact ih.cons _
  | case3 => exact List.nil_sublist _
  | case4 known rule rest css hkey _ hcheck ih => exact ih.cons_cons _

theorem history_append (known : List String) (calls more : List (List String)) :
    ∃ known', history known (calls ++ more) = history known calls ++ history known' more := by
  induction calls generalizing known with
  | nil => exact ⟨known, rfl⟩
  | cons rules calls ih =>
    obtain ⟨known', heq⟩ := ih (known ++ (newRules known rules).map key)
    exact ⟨known', by rw [List.cons_append, history, history, heq, List.append_assoc]⟩

/-- Where no call has a rule before another one, the other one arrives first iff it is there whenever
the rule is. -/
theorem precedes_history_iff {known : List String} {calls : List (List String)} {a b : String}
    (hnodup : (history known calls).Nodup) (ha : a ∈ history known calls)
    (hb : b ∈ history known calls) (hne : a ≠ b)
    (hcalls : ∀ rules ∈ calls, ¬ Precedes (rules.map trimmed) b a) :
    Precedes (history known calls) a b ↔
      ∀ n, b ∈ history known (calls.take n) → a ∈ history known (calls.take n) := by
  constructor
  · intro hab n hbn
    obtain ⟨known', heq⟩ := history_append known (calls.take n) (calls.drop n)
    rw [List.take_append_drop] at heq
    rw [heq] at hab hnodup
    by_contra han
    -- then it arrives after the first calls, and the other one with them
    have ha' : a ∈ history known' (calls.drop n) := by
      rw [heq] at ha
      exact (List.mem_append.mp ha).resolve_left han
    exact hab.asymm hnodup ((List.singleton_sublist.mpr hbn).append (List.singleton_sublist.mpr ha'))
  · intro hstage
    clear hnodup
    induction calls generalizing known with
    | nil => cases ha
    | cons rules calls ih =>
      have hfirst : history known ((rules :: calls).take 1) = newRules known rules :=
        List.append_nil _
      rw [history] at ha hb ⊢
      by_cases hbnew : b ∈ newRules known rules
      · have hanew : a ∈ newRules known rules := by
          have hone := hstage 1
          rw [hfirst] at hone
          exact hone hbnew
        have hab : Precedes (newRules known rules) a b :=
          (precedes_or_precedes hanew hbnew hne).resolve_right fun hba =>
            hcalls rules List.mem_cons_self (hba.trans (newRules_sublist known rules))
        exact hab.trans (List.sublist_append_left _ _)
      · have hblater := (List.mem_append.mp hb).resolve_left hbnew
        by_cases hanew : a ∈ newRules known rules
        · exact (List.singleton_sublist.mpr hanew).append (List.singleton_sublist.mpr hblater)
        · have halater := (List.mem_append.mp ha).resolve_left hanew
          have hlater := ih halater hblater
            (fun others hothers => hcalls others (List.mem_cons_of_mem _ hothers)) fun n hbn => by
              have hnext := hstage (n + 1)
              rw [List.take_succ_cons, history] at hnext
              exact (List.mem_append.mp (hnext (List.mem_append_right _ hbn))).resolve_left hanew
          exact hlater.trans (List.sublist_append_right _ _)

end RuleText

/-! ## Rules by their texts -/

theorem takeWhile_declaration {rule : AtomicRule} (h : ':' ∉ rule.property.toList) :
    rule.declaration.toList.takeWhile (· != ':') = rule.property.toList := by
  rw [AtomicRule.declaration, String.toList_append, String.toList_append, String.toList_append,
    List.append_assoc, List.append_assoc]
  exact takeWhile_bne_append h _

/-- Delimited rules with one text have one place in the cascade. -/
theorem rank_eq_of_toCss_eq {salt : String} {rule other : AtomicRule} {rendering : Rendering}
    (options : SortOptions) (h : rule.Emitted salt) (h' : other.Emitted salt)
    (hdelimited : rule.Delimited rendering) (hdelimited' : other.Delimited rendering)
    (hplain : rule.context.atRules = []) (htext : rule.toCss rendering = other.toCss rendering) :
    other.context.atRules = [] ∧ options.rank rule = options.rank other := by
  have hpoint := ofRule_toCss h hdelimited
  rw [htext, ofRule_toCss h' hdelimited', InsertionPoint.mk.injEq] at hpoint
  obtain ⟨hat, hbucket⟩ := hpoint
  have hplain' : other.context.atRules = [] := by
    simpa [hplain] using hat
  refine ⟨hplain', ?_⟩
  have hproperty : rule.property = other.property := by
    have hchars := congrArg String.toList htext
    rw [AtomicRule.toCss, AtomicRule.toCss, hplain, hplain', List.foldr_nil, List.foldr_nil,
      AtomicRule.text, AtomicRule.text, toList_braced, toList_braced, RuleText.bracedChars,
      RuleText.bracedChars] at hchars
    have hselector := congrArg (List.takeWhile (· != '\x7b')) hchars
    rw [takeWhile_bne_append hdelimited.selector, takeWhile_bne_append hdelimited'.selector]
      at hselector
    rw [hselector] at hchars
    have hdeclaration := List.append_cancel_right (List.cons.inj (List.append_cancel_left hchars)).2
    have hproperty := congrArg (List.takeWhile (· != ':')) hdeclaration
    rw [takeWhile_declaration hdelimited.property, takeWhile_declaration hdelimited'.property]
      at hproperty
    exact String.toList_inj.mp hproperty
  simp only [SortOptions.rank, hproperty, hbucket]

/-! ## Outputs -/

/-- What a compiler gives for a unit, whatever is in its cache. -/
def Compiler.Compiled (compiler : Compiler) (output : CompileOutput) : Prop :=
  ∃ (unit : SourceUnit) (cache : GroupCache),
    cache.Faithful id ∧ ((compiler.compile unit).run cache).1 = output

/-- The document after outputs were handed to a manager one after another. -/
def Document.ofOutputs (nonce : Option String) (outputs : List CompileOutput) : Document :=
  (Manager.after { nonce } (outputs.map CompileOutput.ruleTexts)).document

section Outputs

variable {compiler : Compiler} {output : CompileOutput} {outputs : List CompileOutput}

theorem Compiler.Compiled.emitted (h : compiler.Compiled output) {g : RuleGroup}
    (hg : g ∈ output.groups) {rule : AtomicRule} (hrule : rule ∈ g.rules) :
    rule.Emitted compiler.salt := by
  obtain ⟨unit, cache, hcache, rfl⟩ := h
  exact emitted_of_atomized (compiler.output_compile unit cache hcache).1 hg hrule

theorem Compiler.Compiled.ruleTexts_eq (h : compiler.Compiled output) :
    output.ruleTexts = (Sheet.ofGroups compiler.options.sorting output.groups).rules.map
      (·.toCss compiler.options.rendering) := by
  obtain ⟨unit, cache, hcache, rfl⟩ := h
  exact (compiler.output_compile unit cache hcache).2

theorem Compiler.Compiled.map_trimmed (h : compiler.Compiled output) :
    output.ruleTexts.map trimmed = output.ruleTexts := by
  rw [h.ruleTexts_eq, List.map_map]
  refine List.map_congr_left fun rule hrule => ?_
  obtain ⟨g, hg, hmem⟩ := Sheet.exists_group_of_mem_ofGroups hrule
  exact trimmed_toCss (h.emitted hg hmem) compiler.options.rendering

/-- Every rule of the outputs can be told apart in its text. -/
def Compiler.OutputsDelimited (compiler : Compiler) (outputs : List CompileOutput) : Prop :=
  ∀ output ∈ outputs, ∀ g ∈ output.groups, ∀ rule ∈ g.rules,
    rule.Delimited compiler.options.rendering

theorem records_ofOutputs (nonce : Option String) (outputs : List CompileOutput) :
    (Manager.after { nonce } (outputs.map CompileOutput.ruleTexts)).Records []
      (RuleText.history [] (outputs.map CompileOutput.ruleTexts)) :=
  Manager.records_after (Manager.records_empty nonce) _

theorem mem_rules_ofOutputs {nonce : Option String} {outputs : List CompileOutput} {css : String} :
    css ∈ (Document.ofOutputs nonce outputs).rules ↔
      css ∈ RuleText.history [] (outputs.map CompileOutput.ruleTexts) :=
  (records_ofOutputs nonce outputs).rules_perm.mem_iff

theorem exists_output_of_mem_extract {rule : AtomicRule}
    (h : rule ∈ (compiler.extract outputs).sheet.rules) :
    ∃ output ∈ outputs, ∃ g ∈ output.groups, rule ∈ g.rules := by
  obtain ⟨g, hg, hrule⟩ := Sheet.exists_group_of_mem_ofGroups h
  obtain ⟨output, houtput, hg⟩ := List.mem_flatMap.mp hg
  exact ⟨output, houtput, g, hg, hrule⟩

/-- In the texts of one output, rules of different ranks stand as in any stylesheet, and no call
changes a text. -/
theorem Compiler.Compiled.not_precedes_ruleTexts (h : compiler.Compiled output)
    (hdelimited : ∀ g ∈ output.groups, ∀ rule ∈ g.rules,
      rule.Delimited compiler.options.rendering)
    {first second : AtomicRule} (hfirst : first.Emitted compiler.salt)
    (hsecond : second.Emitted compiler.salt)
    (hfirst' : first.Delimited compiler.options.rendering)
    (hsecond' : second.Delimited compiler.options.rendering)
    (hplain : first.context.atRules = []) (hplain' : second.context.atRules = [])
    (hle : compiler.options.sorting.ruleLe second first = false) :
    ¬ Precedes (output.ruleTexts.map trimmed) (second.toCss compiler.options.rendering)
      (first.toCss compiler.options.rendering) := by
  intro hprecedes
  rw [h.map_trimmed, h.ruleTexts_eq] at hprecedes
  -- the two texts come from rules of the output, which have the same ranks
  obtain ⟨rule, other, hpair, hruleText, hotherText⟩ := exists_precedes_of_map hprecedes
  have hrule : ∀ r ∈ [rule, other], r.Emitted compiler.salt ∧
      r.Delimited compiler.options.rendering := by
    intro r hr
    obtain ⟨g, hg, hmem⟩ := Sheet.exists_group_of_mem_ofGroups (hpair.subset hr)
    exact ⟨h.emitted hg hmem, hdelimited g hg r hmem⟩
  obtain ⟨hruleEmitted, hruleDelimited⟩ := hrule rule (by simp)
  obtain ⟨hotherEmitted, hotherDelimited⟩ := hrule other (by simp)
  obtain ⟨hrulePlain, hruleRank⟩ := rank_eq_of_toCss_eq compiler.options.sorting hsecond
    hruleEmitted hsecond' hruleDelimited hplain' hruleText.symm
  obtain ⟨hotherPlain, hotherRank⟩ := rank_eq_of_toCss_eq compiler.options.sorting hfirst
    hotherEmitted hfirst' hotherDelimited hplain hotherText.symm
  have hsorted := pairwise_iff_precedes.mp
    (Sheet.plainSorted_ofGroups compiler.options.sorting output.groups) rule other hpair
    hrulePlain hotherPlain
  rw [SortOptions.ruleLe_iff, ← hruleRank, ← hotherRank, ← SortOptions.ruleLe_iff, hle] at hsorted
  cases hsorted

/-- **Cascade.**  Take outputs of one compiler that are handed to a manager one after another, and two
plain rules of different ranks that the common stylesheet has in this order.  In the document they
stand in this order iff the point of the first one is lower, or their points are the same and it was
inserted first.  If the parts of all rules can be told apart in their texts, this is the case iff
their buckets are different, or the document never has the second one without the first. -/
theorem cascade_iff (compiler : Compiler) (outputs : List CompileOutput)
    (hcompiled : ∀ output ∈ outputs, compiler.Compiled output) (nonce : Option String)
    (first second : AtomicRule) (hfirst : first.context.atRules = [])
    (hsecond : second.context.atRules = [])
    (hsheet : Precedes (compiler.extract outputs).sheet.rules first second)
    (hrank : compiler.options.sorting.rank first ≠ compiler.options.sorting.rank second)
    (a b : String) (ha : first.toCss compiler.options.rendering = a)
    (hb : second.toCss compiler.options.rendering = b)
    (hinserted : a ∈ (Document.ofOutputs nonce outputs).rules)
    (hinserted' : b ∈ (Document.ofOutputs nonce outputs).rules) :
    (Precedes (Document.ofOutputs nonce outputs).rules a b ↔
        (InsertionPoint.ofRule a).rank < (InsertionPoint.ofRule b).rank ∨
          InsertionPoint.ofRule a = InsertionPoint.ofRule b ∧
            Precedes (RuleText.history [] (outputs.map CompileOutput.ruleTexts)) a b) ∧
      (compiler.OutputsDelimited outputs →
        (Precedes (Document.ofOutputs nonce outputs).rules a b ↔
          first.bucket ≠ second.bucket ∨
            ∀ n, b ∈ (Document.ofOutputs nonce (outputs.take n)).rules →
              a ∈ (Document.ofOutputs nonce (outputs.take n)).rules)) := by
  subst ha hb
  have hrecords := records_ofOutputs nonce outputs
  rw [mem_rules_ofOutputs] at hinserted hinserted'
  have horder := hrecords.precedes_rules_iff hinserted hinserted'
  refine ⟨horder, fun hdelimited => ?_⟩
  obtain ⟨output, houtput, g, hg, hmem⟩ := exists_output_of_mem_extract
    (hsheet.subset List.mem_cons_self)
  obtain ⟨output', houtput', g', hg', hmem'⟩ := exists_output_of_mem_extract
    (hsheet.subset (List.mem_cons_of_mem _ List.mem_cons_self))
  have hemitted := (hcompiled output houtput).emitted hg hmem
  have hemitted' := (hcompiled output' houtput').emitted hg' hmem'
  have hdelim := hdelimited output houtput g hg first hmem
  have hdelim' := hdelimited output' houtput' g' hg' second hmem'
  have hle : compiler.options.sorting.ruleLe first second = true :=
    pairwise_iff_precedes.mp (Sheet.plainSorted_ofGroups _ _) first second hsheet hfirst hsecond
  have hlt := compiler.options.sorting.ruleLe_eq_false_of_rank_ne hle hrank
  refine horder.trans ?_
  rw [ofRule_toCss hemitted hdelim, ofRule_toCss hemitted' hdelim', hfirst, hsecond]
  by_cases hbucket : first.bucket = second.bucket
  · -- in one bucket the order is that of arrival
    have hne : first.toCss compiler.options.rendering ≠ second.toCss compiler.options.rendering :=
      fun htext => hrank
        (rank_eq_of_toCss_eq compiler.options.sorting hemitted hemitted' hdelim hdelim' hfirst htext).2
    have hcalls : ∀ texts ∈ outputs.map CompileOutput.ruleTexts,
        ¬ Precedes (texts.map trimmed) (second.toCss compiler.options.rendering)
          (first.toCss compiler.options.rendering) := by
      intro texts htexts
      obtain ⟨unit, hunit, rfl⟩ := List.mem_map.mp htexts
      exact (hcompiled unit hunit).not_precedes_ruleTexts (hdelimited unit hunit) hemitted hemitted'
        hdelim hdelim' hfirst hsecond hlt
    have harrival := RuleText.precedes_history_iff hrecords.nodup hinserted hinserted' hne hcalls
    simp only [mem_rules_ofOutputs, List.map_take]
    rw [hbucket, ← harrival]
    simp
  · refine iff_of_true (Or.inl ?_) (Or.inl hbucket)
    simpa [InsertionPoint.rank] using SortOptions.bucket_rank_lt hle hbucket

end Outputs

/-! ## A shorthand and a longhand -/

/-- The default compiler, for units without imports. -/
def plainCompiler : Compiler :=
  ⟨{}, ⟨Resolver.none, Helpers.none⟩⟩

/-- What the default compiler gives for a unit that styles one property. -/
def propertyOutput (key value : String) : CompileOutput :=
  let unit : SourceUnit :=
    { path := "a.js"
      sites := [⟨Span.none, .object Span.none [.named key (.str Span.none value)]⟩] }
  ((plainCompiler.compile unit).run .empty).1

theorem compiled_propertyOutput (key value : String) :
    plainCompiler.Compiled (propertyOutput key value) :=
  ⟨_, _, GroupCache.faithful_empty, rfl⟩

def backgroundRule : AtomicRule :=
  ⟨⟨[], "&"⟩, "background", "none", false, "_11q7glyw"⟩

def backgroundColorRule : AtomicRule :=
  ⟨⟨[], "&"⟩, "background-color", "red", false, "_bfhk5scu"⟩

theorem propertyOutput_background :
    (propertyOutput "background" "none").groups = [⟨[backgroundRule], []⟩] ∧
      (propertyOutput "background" "none").ruleTexts = [backgroundRule.toCss {}] := by
  decide +kernel

theorem propertyOutput_backgroundColor :
    (propertyOutput "backgroundColor" "red").groups = [⟨[backgroundColorRule], []⟩] ∧
      (propertyOutput "backgroundColor" "red").ruleTexts = [backgroundColorRule.toCss {}] := by
  decide +kernel

theorem RuleText.history_pair {s t : String} (hs : trimmed s = s) (ht : trimmed t = t)
    (hcheck : check s = .ok ()) (hcheck' : check t = .ok ()) (hkey : key t ≠ key s) :
    history [] [[s], [t]] = [s, t] := by
  simp [history, newRules, hs, ht, hcheck, hcheck', hkey]

theorem precedes_extract_background (outputs : List CompileOutput)
    (h : backgroundRule ∈ Sheet.distinctRules (outputs.flatMap (·.groups)))
    (h' : backgroundColorRule ∈ Sheet.distinctRules (outputs.flatMap (·.groups))) :
    Precedes (plainCompiler.extract outputs).sheet.rules backgroundRule backgroundColorRule :=
  (Sheet.plainSorted_ofGroups _ _).precedes ((Sheet.perm_rules_ofGroups _ _).mem_iff.mpr h)
    ((Sheet.perm_rules_ofGroups _ _).mem_iff.mpr h') rfl rfl (by decide +kernel)

theorem key_background :
    RuleText.key (backgroundRule.toCss {}) ≠ RuleText.key (backgroundColorRule.toCss {}) := by
  have hfirst : backgroundRule.Emitted "" := ⟨by decide +kernel, "&", by decide +kernel⟩
  have hsecond : backgroundColorRule.Emitted "" := ⟨by decide +kernel, "&", by decide +kernel⟩
  rw [key_toCss hfirst (by decide +kernel), key_toCss hsecond (by decide +kernel)]
  decide

/-- The shorthand comes first, so the document has the two rules as the stylesheet has them. -/
theorem cascade_iff_shorthand_first :
    let outputs := [propertyOutput "background" "none", propertyOutput "backgroundColor" "red"]
    let rules := (Document.ofOutputs none outputs).rules
    Precedes (plainCompiler.extract outputs).sheet.rules backgroundRule backgroundColorRule ∧
      plainCompiler.options.sorting.rank backgroundRule ≠
        plainCompiler.options.sorting.rank backgroundColorRule ∧
      backgroundRule.toCss {} ∈ rules ∧ backgroundColorRule.toCss {} ∈ rules ∧
      Precedes rules (backgroundRule.toCss {}) (backgroundColorRule.toCss {}) ∧
      plainCompiler.OutputsDelimited outputs ∧
      ∀ n, backgroundColorRule.toCss {} ∈ (Document.ofOutputs none (outputs.take n)).rules →
        backgroundRule.toCss {} ∈ (Document.ofOutputs none (outputs.take n)).rules := by
  intro outputs rules
  have hcompiled : ∀ output ∈ outputs, plainCompiler.Compiled output := by
    simp [outputs, compiled_propertyOutput]
  have hgroups : outputs.flatMap (·.groups) =
      [⟨[backgroundRule], []⟩, ⟨[backgroundColorRule], []⟩] := by
    simp [outputs, propertyOutput_background, propertyOutput_backgroundColor]
  have hsheet : Precedes (plainCompiler.extract outputs).sheet.rules backgroundRule
      backgroundColorRule := by
    apply precedes_extract_background <;> rw [hgroups] <;> decide +kernel
  have hrank : plainCompiler.options.sorting.rank backgroundRule ≠
      plainCompiler.options.sorting.rank backgroundColorRule := by decide +kernel
  have htexts : outputs.map CompileOutput.ruleTexts =
      [[backgroundRule.toCss {}], [backgroundColorRule.toCss {}]] := by
    simp [outputs, propertyOutput_background, propertyOutput_backgroundColor]
  have hhistory : RuleText.history [] (outputs.map CompileOutput.ruleTexts) =
      [backgroundRule.toCss {}, backgroundColorRule.toCss {}] := by
    rw [htexts]
    exact RuleText.history_pair (by decide +kernel) (by decide +kernel) (by decide +kernel)
      (by decide +kernel) key_background.symm
  have hfirst : backgroundRule.toCss {} ∈ rules := by
    rw [mem_rules_ofOutputs, hhistory]
    exact List.mem_cons_self
  have hsecond : backgroundColorRule.toCss {} ∈ rules := by
    rw [mem_rules_ofOutputs, hhistory]
    exact List.mem_cons_of_mem _ List.mem_cons_self
  have hdelimited : plainCompiler.OutputsDelimited outputs := by
    simp only [Compiler.OutputsDelimited, outputs, List.forall_mem_cons, propertyOutput_background,
      propertyOutput_backgroundColor]
    decide +kernel
  have hcascade := cascade_iff plainCompiler outputs hcompiled none backgroundRule
    backgroundColorRule rfl rfl hsheet hrank _ _ rfl rfl hfirst hsecond
  have hprecedes : Precedes rules (backgroundRule.toCss {}) (backgroundColorRule.toCss {}) := by
    refine hcascade.1.mpr (Or.inr ⟨by decide +kernel, ?_⟩)
    rw [hhistory]
    exact List.Sublist.refl _
  have hstages := ((hcascade.2 hdelimited).mp hprecedes).resolve_left (by decide +kernel)
  exact ⟨hsheet, hrank, hfirst, hsecond, hprecedes, hdelimited, hstages⟩

/-- The longhand comes first, so the document has it before the shorthand, which then hides it. -/
theorem longhand_first_not_kept :
    let outputs := [propertyOutput "backgroundColor" "red", propertyOutput "background" "none"]
    let rules := (Document.ofOutputs none outputs).rules
    plainCompiler.options.sorting.sortShorthand = true ∧
      (∀ output ∈ outputs, output.isOk = true) ∧
      Precedes (plainCompiler.extract outputs).sheet.rules backgroundRule backgroundColorRule ∧
      plainCompiler.options.sorting.rank backgroundRule ≠
        plainCompiler.options.sorting.rank backgroundColorRule ∧
      backgroundRule.toCss {} ∈ rules ∧ backgroundColorRule.toCss {} ∈ rules ∧
      ¬ Precedes rules (backgroundRule.toCss {}) (backgroundColorRule.toCss {}) := by
  intro outputs rules
  have hgroups : outputs.flatMap (·.groups) =
      [⟨[backgroundColorRule], []⟩, ⟨[backgroundRule], []⟩] := by
    simp [outputs, propertyOutput_background, propertyOutput_backgroundColor]
  have hsheet : Precedes (plainCompiler.extract outputs).sheet.rules backgroundRule
      backgroundColorRule := by
    apply precedes_extract_background <;> rw [hgroups] <;> decide +kernel
  have htexts : outputs.map CompileOutput.ruleTexts =
      [[backgroundColorRule.toCss {}], [backgroundRule.toCss {}]] := by
    simp [outputs, propertyOutput_background, propertyOutput_backgroundColor]
  have hhistory : RuleText.history [] (outputs.map CompileOutput.ruleTexts) =
      [backgroundColorRule.toCss {}, backgroundRule.toCss {}] := by
    rw [htexts]
    exact RuleText.history_pair (by decide +kernel) (by decide +kernel) (by decide +kernel)
      (by decide +kernel) key_background
  have hrecords := records_ofOutputs none outputs
  rw [hhistory] at hrecords
  have hmem : ∀ css ∈ [backgroundColorRule.toCss {}, backgroundRule.toCss {}], css ∈ rules :=
    fun css => hrecords.rules_perm.mem_iff.mpr
  refine ⟨by decide +kernel, by decide +kernel, hsheet, by decide +kernel, hmem _ (by simp),
    hmem _ (by simp), fun hprecedes => ?_⟩
  rcases (hrecords.precedes_rules_iff (by simp) (by simp)).mp hprecedes with hlt | ⟨-, hhistory⟩
  · exact absurd hlt (by decide +kernel)
  · exact absurd hhistory (by decide +kernel)

end AtomicStyle

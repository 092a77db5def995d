import AtomicStyle.Proofs.Compressing
import AtomicStyle.Proofs.Delivery
import AtomicStyle.Proofs.Searching
import Mathlib.Data.List.Find

/-!
# The point of a written rule

A live document reads the place of a rule off its text: whether an at-rule is around it, and the
bucket from the selector before the first brace.  The compiler takes the bucket from the selector
before the class name is put into it.  Both come to the same where the texts of the rule hold no
braces of their own (`AtomicRule.Delimited`).

Results:
1. `suffix_renderFrom_iff`: a class name in the place of `&` changes no pseudo-class at the end.
2. `ofSelector_selector`: a rule has the bucket of its written selector.
3. `ofRule_of_selector`: the point of a written rule.
4. `ofRule_toCss_of_mem_atomize`: the same from the texts of the rule before it is written.
-/

namespace AtomicStyle

open AtomicStyle.Text

/-! ## The end of a written selector -/

namespace Selector

/-- A character is kept, or it is the `&` that the class selector takes the place of. -/
theorem renderFrom_cons (text : List Char) (q : Option Char) (c : Char) :
    (∃ q', ∀ rest, renderFrom text q (c :: rest) = c :: renderFrom text q' rest) ∨
      c = '&' ∧ ∀ rest, renderFrom text q (c :: rest) = text ++ renderFrom text none rest := by
  cases q with
  | some q => exact Or.inl ⟨_, fun rest => rfl⟩
  | none =>
    simp only [renderFrom]
    split
    · exact Or.inl ⟨_, fun rest => rfl⟩
    · split
      · next hself => exact Or.inr ⟨beq_iff_eq.mp hself, fun rest => rfl⟩
      · exact Or.inl ⟨_, fun rest => rfl⟩

/-- Where a character of the class selector does not show, nothing was put in. -/
theorem renderFrom_of_not_mem {text : List Char} {d : Char} (htext : d ∈ text) {s : List Char} :
    ∀ q, d ∉ renderFrom text q s → renderFrom text q s = s := by
  induction s with
  | nil => exact fun _ _ => rfl
  | cons c rest ih =>
    intro q h
    rcases renderFrom_cons text q c with ⟨q', hkept⟩ | ⟨-, hput⟩
    · rw [hkept] at h ⊢
      rw [ih q' fun hmem => h (List.mem_cons_of_mem _ hmem)]
    · rw [hput] at h
      exact absurd (List.mem_append_left _ htext) h

theorem renderFrom_of_no_self {text : List Char} {s : List Char} (h : '&' ∉ s) :
    ∀ q, renderFrom text q s = s := by
  induction s with
  | nil => exact fun _ => rfl
  | cons c rest ih =>
    intro q
    rcases renderFrom_cons text q c with ⟨q', hkept⟩ | ⟨rfl, -⟩
    · rw [hkept, ih fun hmem => h (List.mem_cons_of_mem _ hmem)]
    · exact absurd List.mem_cons_self h

theorem mem_or_mem_of_mem_renderFrom {text : List Char} {d : Char} {s : List Char} :
    ∀ {q}, d ∈ renderFrom text q s → d ∈ s ∨ d ∈ text := by
  induction s with
  | nil => exact fun h => Or.inl h
  | cons c rest ih =>
    intro q h
    rcases renderFrom_cons text q c with ⟨q', hkept⟩ | ⟨-, hput⟩
    · rw [hkept] at h
      rcases List.mem_cons.mp h with rfl | h
      · exact Or.inl List.mem_cons_self
      · exact (ih h).imp_left (List.mem_cons_of_mem c)
    · rw [hput] at h
      rcases List.mem_append.mp h with h | h
      · exact Or.inr h
      · exact (ih h).imp_left (List.mem_cons_of_mem c)

/-- What a written selector begins with, the selector or the class selector begins with. -/
theorem head?_of_head?_renderFrom {text : List Char} {d : Char} (htext : text ≠ [])
    (hhead : text.head? ≠ some d) {s : List Char} {q : Option Char}
    (h : (renderFrom text q s).head? = some d) : s.head? = some d := by
  cases s with
  | nil => exact h
  | cons c rest =>
    rcases renderFrom_cons text q c with ⟨q', hkept⟩ | ⟨-, hput⟩
    · rw [hkept] at h
      exact h
    · rw [hput, List.head?_append_of_ne_nil text htext] at h
      exact absurd h hhead

/-- An ending that no end of the class selector can begin is the ending of the written selector iff
it is the ending of the selector. -/
theorem suffix_renderFrom_iff {text ending : List Char} {d : Char} (htext : d ∈ text)
    (hending : d ∉ ending) (hself : '&' ∉ ending)
    (hbegin : ∀ t, t ≠ [] → t <:+ text → ¬ t <+: ending) {s : List Char} :
    ∀ q, ending <:+ renderFrom text q s ↔ ending <:+ s := by
  induction s with
  | nil => exact fun _ => Iff.rfl
  | cons c rest ih =>
    intro q
    rcases renderFrom_cons text q c with ⟨q', hkept⟩ | ⟨rfl, hput⟩
    · rw [hkept, List.suffix_cons_iff, List.suffix_cons_iff, ih q']
      -- an ending that is everything has nothing put in
      have hall : ending = c :: renderFrom text q' rest ↔ ending = c :: rest := by
        constructor
        · intro heq
          rw [heq] at hending
          rw [heq, renderFrom_of_not_mem htext q' fun hmem => hending (List.mem_cons_of_mem _ hmem)]
        · intro heq
          rw [heq] at hself
          rw [heq, renderFrom_of_no_self fun hmem => hself (List.mem_cons_of_mem _ hmem)]
      rw [hall]
    · have hrest : ending <:+ '&' :: rest ↔ ending <:+ rest := by
        rw [List.suffix_cons_iff]
        refine or_iff_right fun heq => hself ?_
        rw [heq]
        exact List.mem_cons_self
      rw [hput, hrest, ← ih none]
      constructor
      · intro h
        rcases List.suffix_or_suffix_of_suffix h (List.suffix_append _ _) with h | ⟨t, rfl⟩
        · exact h
        · -- the ending would begin with an end of the class selector
          obtain ⟨u, heq⟩ := h
          rw [← List.append_assoc] at heq
          cases t with
          | nil => exact List.suffix_refl _
          | cons e t =>
            exact absurd (List.prefix_append _ _)
              (hbegin (e :: t) (List.cons_ne_nil e t) ⟨u, List.append_cancel_right heq⟩)
      · exact fun h => h.trans (List.suffix_append _ _)

/-- The last character of a written selector is that of the selector or of the class selector. -/
theorem getLast?_renderFrom {text : List Char} (htext : text ≠ []) (s : List Char) (c : Char) :
    ∀ q, (renderFrom text q (s ++ [c])).getLast? = some c ∨
      (renderFrom text q (s ++ [c])).getLast? = text.getLast? := by
  induction s with
  | nil =>
    intro q
    rcases renderFrom_cons text q c with ⟨q', hkept⟩ | ⟨-, hput⟩
    · exact Or.inl (by rw [List.nil_append, hkept, renderFrom, List.getLast?_singleton])
    · exact Or.inr (by rw [List.nil_append, hput, renderFrom, List.append_nil])
  | cons d rest ih =>
    -- what follows the first character is not empty, so it has the last one
    have hlast : ∀ (before : List Char) (q : Option Char),
        (before ++ renderFrom text q (rest ++ [c])).getLast? =
          (renderFrom text q (rest ++ [c])).getLast? := by
      intro before q
      have hsome : (renderFrom text q (rest ++ [c])).getLast?.isSome = true := by
        rcases ih q with h | h
        · rw [h]
          rfl
        · rw [h, List.getLast?_isSome]
          exact htext
      rw [List.getLast?_append, Option.or_of_isSome hsome]
    intro q
    rcases renderFrom_cons text q d with ⟨q', hkept⟩ | ⟨-, hput⟩
    · rw [List.cons_append, hkept, ← List.singleton_append, hlast]
      exact ih q'
    · rw [List.cons_append, hput, hlast]
      exact ih none

/-- A character is dropped only if it is blank, and has at most a space put before it. -/
theorem normalizeFrom_step (state : NormalState) (c : Char) :
    (∃ next, isBlank c = true ∧ ∀ rest, normalizeFrom state (c :: rest) = normalizeFrom next rest) ∨
      ∃ before next, ∀ rest,
        normalizeFrom state (c :: rest) = before ++ c :: normalizeFrom next rest := by
  cases hquote : state.quote with
  | some q =>
    refine Or.inr ⟨[], { state with quote := if c == q then none else some q }, fun rest => ?_⟩
    simp only [normalizeFrom, hquote, List.nil_append]
  | none =>
    simp only [normalizeFrom, hquote]
    split
    · exact Or.inr ⟨[], _, fun rest => rfl⟩
    · split
      · next hblank => exact Or.inl ⟨_, hblank, fun rest => rfl⟩
      · split
        · exact Or.inr ⟨[], _, fun rest => rfl⟩
        · split
          · exact Or.inr ⟨[' '], _, fun rest => rfl⟩
          · exact Or.inr ⟨[], _, fun rest => rfl⟩

theorem getLast?_normalizeFrom {c : Char} (hc : isBlank c = false) (s : List Char) :
    ∀ state, (normalizeFrom state (s ++ [c])).getLast? = some c := by
  induction s with
  | nil =>
    intro state
    rcases normalizeFrom_step state c with ⟨next, hblank, -⟩ | ⟨before, next, hkept⟩
    · rw [hc] at hblank
      cases hblank
    · rw [List.nil_append, hkept, normalizeFrom, List.getLast?_append, List.getLast?_singleton]
      rfl
  | cons d rest ih =>
    intro state
    rcases normalizeFrom_step state d with ⟨next, -, hdropped⟩ | ⟨before, next, hkept⟩
    · rw [List.cons_append, hdropped]
      exact ih next
    · rw [List.cons_append, hkept, List.getLast?_append, List.getLast?_cons, ih next]
      rfl

theorem isBlank_of_getLast?_normalize {selector : String} {c : Char}
    (h : (normalize selector).toList.getLast? = some c) : isBlank c = false := by
  rw [normalize, String.toList_ofList, normalizeChars] at h
  rcases List.eq_nil_or_concat (trim selector.toList) with hnil | ⟨s, d, hchars⟩
  · rw [hnil] at h
    cases h
  · have hd : isBlank d = false := isBlank_of_getLast?_trim (by rw [hchars]; simp)
    rw [hchars, List.concat_eq_append, getLast?_normalizeFrom hd] at h
    rw [← Option.some.inj h]
    exact hd

/-- What a class selector is taken to be: it shows a dot, ends with a character that is not blank, and
none of its ends looks like the begin of a pseudo-class. -/
structure IsClassSelector (text : List Char) : Prop where
  dot : '.' ∈ text
  last : ∀ c, text.getLast? = some c → isBlank c = false
  ends : ∀ t, t ≠ [] → t <:+ text → t.head? = some ':' → ')' ∈ t

theorem trim_normalize (selector : String) :
    trim (normalize selector).toList = (normalize selector).toList :=
  trim_eq_self (fun _ => isBlank_of_head?_normalize) fun _ => isBlank_of_getLast?_normalize

theorem isBlank_of_getLast?_render {text : String} (htext : IsClassSelector text.toList)
    {selector : String} {c : Char}
    (h : (render (normalize selector) text).toList.getLast? = some c) : isBlank c = false := by
  rw [render, String.toList_ofList] at h
  rcases List.eq_nil_or_concat (normalize selector).toList with hnil | ⟨s, d, hchars⟩
  · rw [hnil] at h
    cases h
  · rw [List.concat_eq_append] at hchars
    rw [hchars] at h
    rcases getLast?_renderFrom (List.ne_nil_of_mem htext.dot) s d none with hlast | hlast
    · rw [hlast] at h
      rw [← Option.some.inj h]
      exact isBlank_of_getLast?_normalize (by rw [hchars, List.getLast?_append]; rfl)
    · rw [hlast] at h
      exact htext.last c h

end Selector

/-! ## The bucket of a written selector -/

/-- The bucket depends on the pseudo-class at the end only. -/
theorem Bucket.ofSelector_congr {selector written : String}
    (hselector : trim selector.toList = selector.toList)
    (hwritten : trim written.toList = written.toList)
    (h : ∀ entry ∈ pseudoClasses,
      entry.1.toList <:+ written.toList ↔ entry.1.toList <:+ selector.toList) :
    ofSelector written = ofSelector selector := by
  have hfind : pseudoClasses.find? (fun entry => entry.1.toList.isSuffixOf written.toList) =
      pseudoClasses.find? (fun entry => entry.1.toList.isSuffixOf selector.toList) := by
    refine List.find?_congr fun entry hentry => ?_
    rw [Bool.eq_iff_iff, List.isSuffixOf_iff_suffix, List.isSuffixOf_iff_suffix]
    exact h entry hentry
  simp only [ofSelector, hselector, hwritten, hfind]

/-- The class selector of an identifier, alone. -/
theorem isClassSelector_dot {name : String} (h : ClassName.isIdentifier name = true) :
    Selector.IsClassSelector ('.' :: name.toList) := by
  refine ⟨List.mem_cons_self, fun c hc => ?_, fun t ht hsuffix hhead => ?_⟩
  · rw [List.getLast?_cons] at hc
    cases hlast : name.toList.getLast? with
    | none =>
      rw [ClassName.isIdentifier, List.getLast?_eq_none_iff.mp hlast] at h
      cases h
    | some d =>
      rw [hlast] at hc
      rw [← Option.some.inj hc]
      exact ClassName.isBlank_of_mem_isIdentifier h (List.mem_of_getLast? hlast)
  · rcases List.suffix_cons_iff.mp hsuffix with rfl | hsuffix
    · cases hhead
    · exact absurd (hsuffix.mem (List.mem_of_mem_head? hhead))
        (ClassName.colon_not_mem_of_isIdentifier h)

/-- A class selector that ends with a parenthesis. -/
theorem isClassSelector_paren {text : List Char} (hdot : '.' ∈ text)
    (hlast : text.getLast? = some ')') : Selector.IsClassSelector text := by
  refine ⟨hdot, fun c hc => ?_, fun t ht hsuffix _ => ?_⟩
  · rw [hlast] at hc
    rw [← Option.some.inj hc]
    decide
  · obtain ⟨before, rfl⟩ := hsuffix
    rw [List.getLast?_append, Option.or_of_isSome (List.getLast?_isSome.mpr ht)] at hlast
    exact List.mem_of_getLast? hlast

section Written

variable {salt : String} {rule : AtomicRule} {rendering : Rendering}

/-- The selector of the class of a rule, boosted where that is asked for. -/
def AtomicRule.classSelector (rule : AtomicRule) (rendering : Rendering) : String :=
  "." ++ rule.cssClass rendering.compression ++
    (if rendering.increaseSpecificity then AtomicRule.specificityBoost else "")

theorem AtomicRule.toList_selector (rule : AtomicRule) (rendering : Rendering) :
    (rule.selector rendering).toList =
      Selector.renderFrom (rule.classSelector rendering).toList none rule.context.selector.toList :=
  String.toList_ofList

theorem toList_classSelector (rule : AtomicRule) (rendering : Rendering) :
    (rule.classSelector rendering).toList = '.' :: ((rule.cssClass rendering.compression).toList ++
      if rendering.increaseSpecificity then AtomicRule.specificityBoost.toList else []) := by
  rw [AtomicRule.classSelector, String.toList_append, String.toList_append]
  split
  · rfl
  · rfl

theorem isClassSelector_rule
    (h : ClassName.isIdentifier (rule.cssClass rendering.compression) = true) :
    Selector.IsClassSelector (rule.classSelector rendering).toList := by
  rw [toList_classSelector]
  cases rendering.increaseSpecificity with
  | true =>
    rw [if_pos rfl, ← List.cons_append]
    exact isClassSelector_paren List.mem_cons_self (by rw [List.getLast?_append]; rfl)
  | false =>
    rw [if_neg (by decide), List.append_nil]
    exact isClassSelector_dot h

/-- A rule has the bucket of its written selector. -/
theorem ofSelector_selector (h : rule.Emitted salt)
    (hclass : ClassName.isIdentifier (rule.cssClass rendering.compression) = true) :
    Bucket.ofSelector (rule.selector rendering) = rule.bucket := by
  have hpseudo : ∀ entry ∈ Bucket.pseudoClasses, entry.1.toList.head? = some ':' ∧
      '.' ∉ entry.1.toList ∧ '&' ∉ entry.1.toList ∧ ')' ∉ entry.1.toList := by decide
  have htext := isClassSelector_rule hclass
  obtain ⟨selector, hselector⟩ := h.normalized
  have htrim : trim (rule.selector rendering).toList = (rule.selector rendering).toList := by
    refine trim_eq_self (fun c hc => isBlank_of_head?_selector h rendering hc) fun c hc => ?_
    rw [AtomicRule.selector, Context.render, hselector] at hc
    exact Selector.isBlank_of_getLast?_render htext hc
  refine Bucket.ofSelector_congr (by rw [hselector]; exact Selector.trim_normalize selector) htrim ?_
  intro entry hentry
  obtain ⟨hcolon, hdot, hself, hparen⟩ := hpseudo entry hentry
  rw [AtomicRule.selector, Context.render, Selector.render, String.toList_ofList]
  refine Selector.suffix_renderFrom_iff htext.dot hdot hself ?_ none
  rintro t ht hsuffix ⟨after, happend⟩
  cases t with
  | nil => exact ht rfl
  | cons c t =>
    have hhead : (c :: t).head? = some ':' := by
      rw [← hcolon, ← happend]
      rfl
    refine hparen ?_
    rw [← happend]
    exact List.mem_append_left _ (htext.ends _ ht hsuffix hhead)

end Written

/-! ## The point -/

/-- A rule whose parts can be told apart in its text: no brace or leading `@` gets in the way, the
class is an identifier, and the property has no colon. -/
structure AtomicRule.Delimited (rendering : Rendering) (rule : AtomicRule) : Prop where
  preludes : ∀ wrapper ∈ rule.context.atRules, '\x7b' ∉ wrapper.prelude.toList
  selector : '\x7b' ∉ (rule.selector rendering).toList
  notAt : (rule.selector rendering).toList.head? ≠ some '@'
  identifier : ClassName.isIdentifier (rule.cssClass rendering.compression) = true
  property : ':' ∉ rule.property.toList

instance (rendering : Rendering) (rule : AtomicRule) : Decidable (rule.Delimited rendering) :=
  decidable_of_iff
    ((∀ wrapper ∈ rule.context.atRules, '\x7b' ∉ wrapper.prelude.toList) ∧
      '\x7b' ∉ (rule.selector rendering).toList ∧
      (rule.selector rendering).toList.head? ≠ some '@' ∧
      ClassName.isIdentifier (rule.cssClass rendering.compression) = true ∧
      ':' ∉ rule.property.toList)
    ⟨fun ⟨h₁, h₂, h₃, h₄, h₅⟩ => ⟨h₁, h₂, h₃, h₄, h₅⟩,
      fun ⟨h₁, h₂, h₃, h₄, h₅⟩ => ⟨h₁, h₂, h₃, h₄, h₅⟩⟩

namespace InsertionPoint

theorem afterBrace?_brace {before : List Char} (h : '\x7b' ∉ before) (after : List Char) :
    afterBrace? (before ++ '\x7b' :: after) = some after := by
  have hne : ∀ c ∈ before, (c != '\x7b') = true :=
    fun c hc => bne_iff_ne.mpr (ne_of_mem_of_not_mem hc h)
  rw [afterBrace?, List.dropWhile_append_of_pos hne, List.dropWhile_cons_of_neg (by decide)]

/-- Taking off the at-rules leads to the selector. -/
theorem takeWhile_innermost {selector : String} (body : String)
    (hblank : ∀ c, selector.toList.head? = some c → isBlank c = false)
    (hbrace : '\x7b' ∉ selector.toList) (hat : selector.toList.head? ≠ some '@')
    {wrappers : List AtRule} (hpreludes : ∀ wrapper ∈ wrappers, '\x7b' ∉ wrapper.prelude.toList) :
    ∀ fuel tail, wrappers.length ≤ fuel →
      (innermost fuel ((wrappers.foldr (fun wrapper css => AtomicRule.braced wrapper.prelude css)
        (AtomicRule.braced selector body)).toList ++ tail)).takeWhile (· != '\x7b') =
          selector.toList := by
  induction wrappers with
  | nil =>
    intro fuel tail _
    rw [List.foldr_nil, toList_braced, RuleText.bracedChars, List.append_assoc, List.cons_append]
    have hsame : ∀ css : List Char, css.head? ≠ some '@' → innermost fuel css = css := by
      intro css hcss
      cases fuel with
      | zero => rfl
      | succ fuel => exact if_neg (by simpa using hcss)
    rw [hsame, takeWhile_bne_append hbrace]
    rw [List.head?_append]
    cases hhead : selector.toList.head? with
    | none => exact fun h => absurd (Option.some.inj h) (by decide)
    | some c =>
      rw [hhead] at hat
      exact hat
  | cons wrapper rest ih =>
    intro fuel tail hfuel
    cases fuel with
    | zero => exact absurd hfuel (Nat.not_succ_le_zero _)
    | succ fuel =>
      have hprelude := hpreludes wrapper List.mem_cons_self
      have hrest := ih (fun w hw => hpreludes w (List.mem_cons_of_mem _ hw)) fuel ('\x7d' :: tail)
        (Nat.le_of_succ_le_succ hfuel)
      rw [List.foldr_cons, toList_braced, RuleText.bracedChars, List.append_assoc, List.cons_append,
        List.append_assoc, List.singleton_append, innermost, if_pos, afterBrace?_brace hprelude]
      · simp only
        rw [trimStart_eq_self, hrest]
        -- what is left begins with a sign or with the selector
        intro c hc
        rw [List.head?_append] at hc
        cases hhead : (rest.foldr (fun wrapper css => AtomicRule.braced wrapper.prelude css)
            (AtomicRule.braced selector body)).toList.head? with
        | none =>
          rw [hhead] at hc
          rw [← Option.some.inj hc]
          decide
        | some d =>
          rw [hhead] at hc
          rw [← Option.some.inj hc]
          exact isBlank_of_head?_wrapped rest (fun _ => isBlank_of_head?_braced hblank) hhead
      · rw [List.head?_append, head?_prelude]
        rfl

end InsertionPoint

theorem length_le_length_wrapped (wrappers : List AtRule) (text : String) :
    wrappers.length ≤ (wrappers.foldr (fun wrapper css => AtomicRule.braced wrapper.prelude css)
      text).toList.length := by
  induction wrappers with
  | nil => exact Nat.zero_le _
  | cons wrapper rest ih =>
    rw [List.foldr_cons, toList_braced, RuleText.bracedChars]
    simp only [List.length_append, List.length_cons]
    omega

/-- Only at-rules put an `@` at the begin of a written rule. -/
theorem head?_toCss {rule : AtomicRule} {rendering : Rendering}
    (hat : (rule.selector rendering).toList.head? ≠ some '@') :
    (rule.toCss rendering).toList.head? = some '@' ↔ rule.context.atRules ≠ [] := by
  unfold AtomicRule.toCss
  cases rule.context.atRules with
  | nil =>
    refine iff_of_false (fun hhead => ?_) (fun h => h rfl)
    rw [List.foldr_nil, AtomicRule.text, toList_braced, RuleText.bracedChars, List.head?_append] at hhead
    cases hselector : (rule.selector rendering).toList.head? with
    | none =>
      rw [hselector] at hhead
      exact absurd (Option.some.inj hhead) (by decide)
    | some c =>
      rw [hselector] at hhead hat
      exact hat hhead
  | cons wrapper rest =>
    refine iff_of_true ?_ (List.cons_ne_nil _ _)
    rw [List.foldr_cons, toList_braced, RuleText.bracedChars, List.head?_append, head?_prelude]
    rfl

section Point

variable {salt : String} {rule : AtomicRule} {rendering : Rendering}

/-- The point of a written rule: whether at-rules are around it, and its bucket. -/
theorem ofRule_of_selector (h : rule.Emitted salt)
    (hclass : ClassName.isIdentifier (rule.cssClass rendering.compression) = true)
    (hpreludes : ∀ wrapper ∈ rule.context.atRules, '\x7b' ∉ wrapper.prelude.toList)
    (hbrace : '\x7b' ∉ (rule.selector rendering).toList)
    (hat : (rule.selector rendering).toList.head? ≠ some '@') :
    InsertionPoint.ofRule (rule.toCss rendering) = ⟨rule.context.atRules ≠ [], rule.bucket⟩ := by
  have hblank : ∀ c, (rule.selector rendering).toList.head? = some c → isBlank c = false :=
    fun _ => isBlank_of_head?_selector h rendering
  have hstart : trimStart (rule.toCss rendering).toList = (rule.toCss rendering).toList :=
    trimStart_eq_self fun _ => isBlank_of_head?_wrapped rule.context.atRules
      fun _ => isBlank_of_head?_braced hblank
  have hselector := InsertionPoint.takeWhile_innermost rule.declaration hblank hbrace hat hpreludes
    (rule.toCss rendering).toList.length [] (length_le_length_wrapped _ _)
  rw [List.append_nil] at hselector
  have hbucket := ofSelector_selector h hclass
  simp only [InsertionPoint.ofRule, hstart]
  rw [InsertionPoint.mk.injEq]
  constructor
  · rw [Bool.eq_iff_iff, beq_iff_eq, decide_eq_true_eq]
    exact head?_toCss hat
  · rw [← hbucket]
    exact congrArg Bucket.ofSelector ((congrArg String.ofList hselector).trans String.ofList_toList)

theorem ofRule_toCss (h : rule.Emitted salt) (hdelimited : rule.Delimited rendering) :
    InsertionPoint.ofRule (rule.toCss rendering) = ⟨rule.context.atRules ≠ [], rule.bucket⟩ :=
  ofRule_of_selector h hdelimited.identifier hdelimited.preludes hdelimited.selector
    hdelimited.notAt

/-- Neither the class nor the boost has a brace or an asterisk. -/
theorem not_mem_classSelector
    (h : ClassName.isIdentifier (rule.cssClass rendering.compression) = true) {d : Char}
    (hd : d ∈ ['\x7b', '\x7d', '*']) : d ∉ (rule.classSelector rendering).toList := by
  have hname : d ∉ (rule.cssClass rendering.compression).toList := by
    intro hmem
    have hrange := ClassName.toNat_of_mem_isIdentifier h hmem
    have hnat : d.toNat ∈ [123, 125, 42] := List.mem_map_of_mem hd
    simp only [List.mem_cons, List.not_mem_nil, or_false] at hnat
    omega
  have hboost : d ∉ '.' :: AtomicRule.specificityBoost.toList := by
    simp only [List.mem_cons, List.not_mem_nil, or_false] at hd
    rcases hd with rfl | rfl | rfl <;> decide
  rw [List.mem_cons, not_or] at hboost
  rw [toList_classSelector, List.mem_cons, List.mem_append, not_or, not_or]
  refine ⟨hboost.1, hname, ?_⟩
  split
  · exact hboost.2
  · exact List.not_mem_nil

theorem brace_not_mem_prelude {wrapper : AtRule} (hname : '\x7b' ∉ wrapper.name.toList)
    (hparams : '\x7b' ∉ wrapper.params.toList) : '\x7b' ∉ wrapper.prelude.toList := by
  unfold AtRule.prelude
  split
  · simp [hname]
  · simp [hname, hparams]

/-- **The point of an emitted rule.**  A rule as atomizing gives it is written with any map as it is
supplied, boosted or not.  If no text of it has an opening brace and its selector is no at-rule, a live
document reads off the written rule whether at-rules are around it, and the bucket that the rule got
from its selector before a class name stood in it. -/
theorem ofRule_toCss_of_mem_atomize {block : Block} (hrule : rule ∈ (block.atomize salt).rules)
    (hmap : ∀ map, rendering.compression = some map → map.Supplied)
    (hselector : '\x7b' ∉ rule.context.selector.toList)
    (hat : rule.context.selector.toList.head? ≠ some '@')
    (hwrappers : ∀ wrapper ∈ rule.context.atRules,
      '\x7b' ∉ wrapper.name.toList ∧ '\x7b' ∉ wrapper.params.toList) :
    InsertionPoint.ofRule (rule.toCss rendering) =
      ⟨!rule.context.atRules.isEmpty, rule.bucket⟩ := by
  have hemitted := emitted_of_mem_atomize hrule
  have hclass := isIdentifier_cssClass hemitted hmap
  have hpoint := ofRule_of_selector hemitted hclass
    (fun wrapper hwrapper => brace_not_mem_prelude (hwrappers wrapper hwrapper).1
      (hwrappers wrapper hwrapper).2)
    (fun hmem => ?_) (fun hhead => hat ?_)
  · rw [hpoint]
    cases rule.context.atRules with
    | nil => rfl
    | cons => rfl
  · rw [AtomicRule.toList_selector] at hmem
    rcases Selector.mem_or_mem_of_mem_renderFrom hmem with hmem | hmem
    · exact hselector hmem
    · exact not_mem_classSelector hclass List.mem_cons_self hmem
  · rw [AtomicRule.toList_selector] at hhead
    rw [toList_classSelector] at hhead
    exact Selector.head?_of_head?_renderFrom (List.cons_ne_nil _ _) (by simp) hhead

/-- A rule for a hovered sibling inside two at-rules, with a token for its class and boosted. -/
theorem ofRule_toCss_of_mem_atomize_hover :
    let block : Block := .atRule "media" "(min-width: 20em)" (.atRule "supports" "(color: red)"
      (.rule ["& + &:hover"] (.declaration ⟨"color", [.text "red"], false⟩ .nil) .nil) .nil) .nil
    let rule : AtomicRule := ⟨⟨[⟨"media", "(min-width: 20em)"⟩, ⟨"supports", "(color: red)"⟩],
      "&+&:hover"⟩, "color", "red", false, "_z2of5scu"⟩
    let map := CompressionMap.ofEntries [("z2of5scu", "a")]
    rule ∈ (block.atomize "").rules ∧ map.Supplied ∧
      (rule.selector ⟨true, some map⟩, rule.bucket) =
        (".a:not(#\\#)+.a:not(#\\#):hover", .hover) ∧
      InsertionPoint.ofRule (rule.toCss ⟨true, some map⟩) = ⟨true, rule.bucket⟩ := by
  intro block rule map
  have hrule : rule ∈ (block.atomize "").rules := by decide +kernel
  have hmap : map.Supplied := .entries _
  refine ⟨hrule, hmap, by decide +kernel, ?_⟩
  exact ofRule_toCss_of_mem_atomize hrule (fun other hother => Option.some.inj hother ▸ hmap)
    (by decide +kernel) (by decide +kernel) (by decide +kernel)

end Point

end AtomicStyle

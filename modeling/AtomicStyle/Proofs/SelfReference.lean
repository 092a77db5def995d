import AtomicStyle.Proofs.Bucketing

/-!
# Self references

Nesting puts the parent in the place of `&` outside brackets and quotes, rendering puts a class
selector in the place of every `&` outside quotes.  The two agree on a child iff it has no `&` inside
brackets; or else the parent is `&` itself, so that it makes no difference which ones are replaced.

A selector is read as its characters, each of which may be a self reference at the top level or one
inside brackets (`references`).

Results:
1. `renderFrom_eq_flatMap`, `renderFrom_replaceSelf`: rendering and nesting, character by character.
2. `refers_normalizeChars`: normalizing keeps the references.
3. `eq_self_of_length`: the only selector that is as long as the class selector in its place.
4. `forall_flatMap_iff`, `exists_descendant_ne`: a child with references at the top level, and one
   without.
5. `render_nest_iff`: when nesting and rendering agree.
-/

namespace AtomicStyle.Selector

open AtomicStyle.Text

/-! ## Reading a selector -/

/-- The open quote after a character. -/
def quoteNext (quote : Option Char) (c : Char) : Option Char :=
  match quote with
  | some q => if c == q then none else some q
  | none => if isQuote c then some c else none

/-- The bracket depth after a character. -/
def depthNext (depth : Int) (quote : Option Char) (c : Char) : Int :=
  if quote.isSome then depth
  else if isOpening c then depth + 1
  else if isClosing c then depth - 1
  else depth

/-- Whether a character is a self reference. -/
def isSelf (quote : Option Char) (c : Char) : Bool :=
  quote.isNone && c == '&'

theorem eq_self_of_isSelf {quote : Option Char} {c : Char} (h : isSelf quote c = true) :
    quote = none ∧ c = '&' := by
  simpa [isSelf] using h

/-- The characters of a selector, a self reference with whether it stands at the top level. -/
def references (depth : Int) (quote : Option Char) : List Char → List (Char × Option Bool)
  | [] => []
  | c :: rest =>
    (c, if isSelf quote c then some (depth == 0) else none) ::
      references (depthNext depth quote c) (quoteNext quote c) rest

/-- The self references of a selector in order: whether each stands at the top level. -/
def selves (s : List Char) : List Bool :=
  (references 0 none s).filterMap Prod.snd

/-- No quote is left open. -/
def QuotesClosed (s : List Char) : Prop :=
  s.foldl quoteNext none = none

instance (s : List Char) : Decidable (QuotesClosed s) :=
  inferInstanceAs (Decidable (_ = _))

theorem renderFrom_step (text : List Char) (quote : Option Char) (c : Char) (rest : List Char) :
    renderFrom text quote (c :: rest) =
      (if isSelf quote c then text else [c]) ++ renderFrom text (quoteNext quote c) rest := by
  cases quote with
  | some q => rfl
  | none =>
    by_cases hquote : isQuote c = true
    · have hself : isSelf none c = false := by
        simp only [isQuote, Bool.or_eq_true, beq_iff_eq] at hquote
        rcases hquote with rfl | rfl <;> rfl
      simp [renderFrom, quoteNext, hquote, hself]
    · by_cases hself : c = '&'
      · simp [renderFrom, quoteNext, hself, isSelf, isQuote]
      · simp [renderFrom, quoteNext, hquote, hself, isSelf]

theorem renderFrom_append (text s t : List Char) (quote : Option Char) :
    renderFrom text quote (s ++ t) =
      renderFrom text quote s ++ renderFrom text (s.foldl quoteNext quote) t := by
  induction s generalizing quote with
  | nil => rfl
  | cons c s ih => rw [List.cons_append, renderFrom_step, ih, renderFrom_step, List.foldl_cons,
      List.append_assoc]

/-- What takes the place of a character: one text for a self reference at the top level, another one
for a self reference inside brackets. -/
def fill (outer inner : List Char) : Char × Option Bool → List Char
  | (c, none) => [c]
  | (_, some true) => outer
  | (_, some false) => inner

theorem fill_self (outer inner : List Char) (quote : Option Char) (c : Char) (top : Bool) :
    fill outer inner (c, if isSelf quote c then some top else none) =
      if isSelf quote c then (if top then outer else inner) else [c] := by
  cases isSelf quote c <;> cases top <;> rfl

/-- Rendering replaces every self reference. -/
theorem renderFrom_eq_flatMap (text : List Char) (depth : Int) (quote : Option Char) (s : List Char) :
    renderFrom text quote s = (references depth quote s).flatMap (fill text text) := by
  induction s generalizing depth quote with
  | nil => rfl
  | cons c s ih =>
    rw [renderFrom_step, references, List.flatMap_cons, ih (depthNext depth quote c), fill_self,
      ite_self]

/-- A self reference is marked iff it stands at the top level. -/
theorem markFrom_step (depth : Int) (quote : Option Char) (c : Char) (rest : List Char) :
    ∃ top, markFrom depth quote (c :: rest) =
        (c, top) :: markFrom (depthNext depth quote c) (quoteNext quote c) rest ∧
      ((c, top) = ('&', true) ↔ isSelf quote c = true ∧ depth = 0) := by
  cases quote with
  | some q => exact ⟨false, rfl, by simp [isSelf]⟩
  | none =>
    by_cases hself : c = '&'
    · subst hself
      exact ⟨depth == 0, rfl, by simp [isSelf]⟩
    · have hiff : ∀ top, (c, top) = ('&', true) ↔ isSelf none c = true ∧ depth = 0 := by
        intro top
        simp [isSelf, hself]
      simp only [markFrom, depthNext, quoteNext, Option.isSome_none, Bool.false_eq_true, if_false]
      by_cases hquote : isQuote c = true
      · have hopening : isOpening c = false := by
          simp only [isQuote, Bool.or_eq_true, beq_iff_eq] at hquote
          rcases hquote with rfl | rfl <;> rfl
        have hclosing : isClosing c = false := by
          simp only [isQuote, Bool.or_eq_true, beq_iff_eq] at hquote
          rcases hquote with rfl | rfl <;> rfl
        exact ⟨false, by simp [hquote, hopening, hclosing], hiff false⟩
      · simp only [hquote, Bool.false_eq_true, if_false]
        split
        · exact ⟨false, rfl, hiff false⟩
        · split
          · exact ⟨false, rfl, hiff false⟩
          · exact ⟨depth == 0, rfl, hiff _⟩

/-- Nesting replaces the self references at the top level. -/
theorem flatMap_markFrom (parent : List Char) (depth : Int) (quote : Option Char) (s : List Char) :
    ((markFrom depth quote s).flatMap fun entry =>
        if entry == ('&', true) then parent else [entry.1]) =
      (references depth quote s).flatMap (fill parent ['&']) := by
  induction s generalizing depth quote with
  | nil => rfl
  | cons c s ih =>
    obtain ⟨top, hmark, htop⟩ := markFrom_step depth quote c s
    rw [hmark, references, List.flatMap_cons, List.flatMap_cons, ih, fill_self]
    congr 1
    simp only [beq_iff_eq, htop]
    by_cases hself : isSelf quote c = true
    · have hc : [c] = ['&'] := by rw [(eq_self_of_isSelf hself).2]
      simp only [hself, true_and, if_true, hc]
    · simp only [hself, Bool.false_eq_true, false_and, if_false]

theorem mem_markFrom_iff (depth : Int) (quote : Option Char) (s : List Char) :
    ('&', true) ∈ markFrom depth quote s ↔
      true ∈ (references depth quote s).filterMap Prod.snd := by
  induction s generalizing depth quote with
  | nil => exact iff_of_false List.not_mem_nil List.not_mem_nil
  | cons c s ih =>
    obtain ⟨top, hmark, htop⟩ := markFrom_step depth quote c s
    rw [hmark, references, List.mem_cons, ih, eq_comm, htop]
    by_cases hself : isSelf quote c = true
    · simp [hself]
    · simp [hself]

theorem hasSelf_iff (s : List Char) : hasSelf s = true ↔ true ∈ selves s := by
  rw [hasSelf, List.contains_iff_mem]
  exact mem_markFrom_iff 0 none s

section Nested

variable {parent : List Char}

/-- Where the parent leaves no quote open, the parent in the place of a self reference is rendered as
it is on its own. -/
theorem renderFrom_flatMap_fill (hparent : QuotesClosed parent) (text : List Char) (depth : Int)
    (quote : Option Char) (s : List Char) :
    renderFrom text quote ((references depth quote s).flatMap (fill parent ['&'])) =
      (references depth quote s).flatMap (fill (renderFrom text none parent) text) := by
  induction s generalizing depth quote with
  | nil => rfl
  | cons c s ih =>
    rw [references, List.flatMap_cons, List.flatMap_cons, fill_self, fill_self]
    by_cases hself : isSelf quote c = true
    · obtain ⟨rfl, rfl⟩ := eq_self_of_isSelf hself
      rw [if_pos hself, if_pos hself]
      split
      · rw [renderFrom_append, hparent]
        exact congrArg _ (ih _ none)
      · rw [List.singleton_append, renderFrom_step, if_pos hself, ih]
    · rw [if_neg hself, if_neg hself, List.singleton_append, renderFrom_step, if_neg hself, ih]

/-- Rendering a selector that was nested at its top level. -/
theorem renderFrom_replaceSelf (hparent : QuotesClosed parent) (text s : List Char) :
    renderFrom text none (replaceSelf s parent) =
      (references 0 none s).flatMap (fill (renderFrom text none parent) text) := by
  rw [replaceSelf, mark, flatMap_markFrom, renderFrom_flatMap_fill hparent]

end Nested

/-! ## Lengths -/

/-- How much longer or shorter a selector gets if other texts take the place of the self references
inside brackets. -/
theorem length_flatMap_fill (outer inner : List Char) (entries : List (Char × Option Bool)) :
    (entries.flatMap (fill outer inner)).length +
        (entries.filterMap Prod.snd).count false * outer.length =
      (entries.flatMap (fill outer outer)).length +
        (entries.filterMap Prod.snd).count false * inner.length := by
  induction entries with
  | nil => simp
  | cons entry entries ih =>
    rw [List.flatMap_cons, List.flatMap_cons, List.length_append, List.length_append]
    obtain ⟨c, self⟩ := entry
    cases self with
    | none =>
      rw [List.filterMap_cons_none rfl]
      simp only [fill]
      omega
    | some top =>
      have hcons : ((c, some top) :: entries).filterMap Prod.snd =
          top :: entries.filterMap Prod.snd := rfl
      rw [hcons]
      cases top with
      | true =>
        rw [List.count_cons_of_ne (by decide)]
        simp only [fill]
        omega
      | false =>
        rw [List.count_cons_self]
        simp only [fill, Nat.add_mul]
        omega

/-- A character in the place of every self reference makes a selector neither longer nor shorter. -/
theorem length_renderFrom_singleton (d : Char) (quote : Option Char) (s : List Char) :
    (renderFrom [d] quote s).length = s.length := by
  induction s generalizing quote with
  | nil => rfl
  | cons c s ih =>
    rw [renderFrom_step, List.length_append, ih]
    split <;> simp [Nat.add_comm]

/-- The only selector that is always as long as the class selector in it is `&`. -/
theorem eq_self_of_length {s : List Char}
    (h : ∀ text, (renderFrom text none s).length = text.length) : s = ['&'] := by
  have hone := h ['a']
  rw [length_renderFrom_singleton] at hone
  obtain ⟨c, rfl⟩ := List.length_eq_one_iff.mp hone
  have hnone := h []
  rw [renderFrom_step] at hnone
  by_cases hself : isSelf none c = true
  · rw [(eq_self_of_isSelf hself).2]
  · simp [hself, renderFrom] at hnone

/-! ## Selectors with a self reference -/

/-- Whether a selector has a self reference. -/
def refers (quote : Option Char) : List Char → Bool
  | [] => false
  | c :: rest => isSelf quote c || refers (quoteNext quote c) rest

theorem filterMap_references_ne_nil_iff (depth : Int) (quote : Option Char) (s : List Char) :
    (references depth quote s).filterMap Prod.snd ≠ [] ↔ refers quote s = true := by
  induction s generalizing depth quote with
  | nil => exact iff_of_false (fun h => h rfl) Bool.false_ne_true
  | cons c s ih =>
    rw [references, refers]
    by_cases hself : isSelf quote c = true
    · simp [hself]
    · simpa [hself] using ih (depthNext depth quote c) (quoteNext quote c)

theorem refers_append (quote : Option Char) (s t : List Char) :
    refers quote (s ++ t) = (refers quote s || refers (s.foldl quoteNext quote) t) := by
  induction s generalizing quote with
  | nil => rfl
  | cons c s ih => rw [List.cons_append, refers, ih, refers, List.foldl_cons, Bool.or_assoc]

theorem refers_of_not_mem {s : List Char} (h : '&' ∉ s) (quote : Option Char) :
    refers quote s = false := by
  induction s generalizing quote with
  | nil => rfl
  | cons c s ih =>
    obtain ⟨hc, hs⟩ := not_or.mp (fun hmem => h (List.mem_cons.mpr hmem))
    rw [refers, ih hs, Bool.or_false, isSelf, beq_false_of_ne (Ne.symm hc), Bool.and_false]

/-- The first self reference: what comes before it stays as it is. -/
theorem exists_first_self {quote : Option Char} {s : List Char} (h : refers quote s = true) :
    ∃ before after, s = before ++ '&' :: after ∧
      ∀ text, renderFrom text quote s = before ++ (text ++ renderFrom text none after) := by
  induction s generalizing quote with
  | nil => cases h
  | cons c s ih =>
    by_cases hself : isSelf quote c = true
    · obtain ⟨rfl, rfl⟩ := eq_self_of_isSelf hself
      exact ⟨[], s, rfl, fun text => by rw [renderFrom_step, if_pos hself]; rfl⟩
    · rw [refers, Bool.eq_false_iff.mpr hself, Bool.false_or] at h
      obtain ⟨before, after, rfl, hrender⟩ := ih h
      refine ⟨c :: before, after, rfl, fun text => ?_⟩
      rw [renderFrom_step, if_neg hself, hrender]
      rfl

theorem renderFrom_of_not_refers {quote : Option Char} {s : List Char} (h : refers quote s = false)
    (text : List Char) : renderFrom text quote s = s := by
  induction s generalizing quote with
  | nil => rfl
  | cons c s ih =>
    obtain ⟨hself, hrest⟩ := Bool.or_eq_false_iff.mp h
    rw [renderFrom_step, hself, ih hrest]
    rfl

/-! ### Normal forms -/

theorem quoteNext_of_isBlank {c : Char} (h : isBlank c = true) : quoteNext none c = none := by
  have hquote : isQuote c = false := by
    rw [Bool.eq_false_iff]
    intro hquote
    simp only [isQuote, Bool.or_eq_true, beq_iff_eq] at hquote
    rcases hquote with rfl | rfl
    · exact absurd h (by decide)
    · exact absurd h (by decide)
  simp [quoteNext, hquote]

theorem isSelf_of_isBlank {c : Char} (h : isBlank c = true) (quote : Option Char) :
    isSelf quote c = false := by
  rw [isSelf, beq_false_of_ne (Css.ne_of_isBlank h (by decide)), Bool.and_false]

theorem quote_enter {state : NormalState} (h : state.quote = none) (c : Char) :
    (state.enter c).quote = quoteNext none c := by
  unfold NormalState.enter quoteNext
  split
  · next hopening =>
    simp only [isOpening, Bool.or_eq_true, beq_iff_eq] at hopening
    rcases hopening with rfl | rfl <;> simpa [isQuote] using h
  · split
    · next hclosing =>
      simp only [isClosing, Bool.or_eq_true, beq_iff_eq] at hclosing
      rcases hclosing with rfl | rfl <;> simpa [isQuote] using h
    · split
      · rfl
      · next hquote => simpa [hquote] using h

/-- Normalizing keeps the self references. -/
theorem refers_normalizeFrom (state : NormalState) (s : List Char) :
    refers state.quote (normalizeFrom state s) = refers state.quote s := by
  induction s generalizing state with
  | nil => rfl
  | cons c s ih =>
    cases hquote : state.quote with
    | some q =>
      have hnext := ih { state with quote := if c == q then none else some q }
      simp only [normalizeFrom, hquote, refers, quoteNext] at hnext ⊢
      rw [hnext]
    | none =>
      simp only [normalizeFrom, hquote]
      split
      · rw [refers, refers, ← quote_enter hquote, ih]
      · split
        · next hblank =>
          have hnext := ih { state with gap := true }
          simp only [hquote] at hnext
          rw [hnext, refers, isSelf_of_isBlank hblank, quoteNext_of_isBlank hblank, Bool.false_or]
        · split
          · next hcombinator =>
            have hnext := ih { started := true, afterCombinator := true }
            have hnone : quoteNext none c = none := by
              simp only [isCombinator, Bool.or_eq_true, beq_iff_eq] at hcombinator
              rcases hcombinator with (rfl | rfl) | rfl <;> rfl
            rw [refers, refers, hnone, hnext]
          · have hnext := ih (NormalState.enter { started := true } c)
            rw [quote_enter rfl] at hnext
            split
            · rw [refers, isSelf_of_isBlank (by decide), quoteNext_of_isBlank (by decide),
                Bool.false_or, refers, refers, hnext]
            · rw [refers, refers, hnext]

theorem foldl_quoteNext_of_blank {s : List Char} (h : ∀ c ∈ s, isBlank c = true) :
    s.foldl quoteNext none = none := by
  induction s with
  | nil => rfl
  | cons c s ih =>
    rw [List.foldl_cons, quoteNext_of_isBlank (h c List.mem_cons_self)]
    exact ih fun d hd => h d (List.mem_cons_of_mem c hd)

theorem refers_normalizeChars (s : List Char) :
    refers none (normalizeChars s) = refers none s := by
  obtain ⟨before, after, hs, hbefore, hafter⟩ := exists_eq_trim s
  have hself : ∀ {t : List Char}, (∀ c ∈ t, isBlank c = true) → '&' ∉ t :=
    fun ht hmem => absurd (ht '&' hmem) (by decide)
  have htrim : refers none s = refers none (trim s) := by
    conv => lhs; rw [hs]
    rw [refers_append, refers_append, refers_of_not_mem (hself hbefore),
      foldl_quoteNext_of_blank hbefore, refers_of_not_mem (hself hafter), Bool.false_or,
      Bool.or_false]
  rw [normalizeChars, htrim]
  exact refers_normalizeFrom {} (trim s)

/-! ## Agreement -/

/-- A child with a self reference at the top level: the references inside brackets must not count. -/
theorem forall_flatMap_iff {parent child : List Char} :
    (∀ text, (references 0 none child).flatMap (fill (renderFrom text none parent) text) =
        renderFrom (renderFrom text none parent) none child) ↔
      false ∉ selves child ∨ parent = ['&'] := by
  simp only [renderFrom_eq_flatMap _ 0 none child]
  constructor
  · intro hall
    by_cases hnested : false ∈ selves child
    · refine .inr (eq_self_of_length fun text => ?_)
      have hlength := length_flatMap_fill (renderFrom text none parent) text (references 0 none child)
      rw [hall text] at hlength
      exact Nat.eq_of_mul_eq_mul_left (List.count_pos_iff.mpr hnested) (Nat.add_left_cancel hlength)
    · exact .inl hnested
  · rintro (hnested | rfl) text
    · refine List.flatMap_congr fun entry hentry => ?_
      obtain ⟨c, self⟩ := entry
      cases self with
      | none => rfl
      | some top =>
        cases top with
        | true => rfl
        | false => exact (hnested (List.mem_filterMap.mpr ⟨(c, some false), hentry, rfl⟩)).elim
    · have hself : renderFrom text none ['&'] = text := List.append_nil text
      rw [hself]

/-- A child without a self reference at the top level: what it becomes below its parent begins with
the parent, what it should become begins with its own text. -/
theorem exists_descendant_ne (parent : List Char) {child : List Char}
    (hself : refers none child = true) (htop : true ∉ selves child) (between : List Char) :
    ∃ text, renderFrom text none parent ++ (between ++ renderFrom text none child) ≠
      renderFrom (renderFrom text none parent) none child := by
  obtain ⟨before, after, hchild, hrender⟩ := exists_first_self hself
  by_contra hall
  simp only [not_exists, not_not, hrender] at hall
  cases before with
  | nil =>
    rw [hchild] at htop
    exact htop List.mem_cons_self
  | cons d before =>
    cases hparent : refers none parent with
    | false =>
      -- the parent stays as it is, so only one of the two sides has the class selector in it
      have ha := hall ['a']
      have hb := hall ['b']
      simp only [renderFrom_of_not_refers hparent] at ha hb
      have hab := ha.trans hb.symm
      simp at hab
    | true =>
      -- the class selector stands after the parent's own first characters on the left, later on the
      -- right
      obtain ⟨lead, trail, -, hlead⟩ := exists_first_self hparent
      have hplace : ∀ c : Char, (d :: (before ++ lead))[lead.length]? = some c := by
        intro c
        have h := hall [c]
        simp only [hlead, List.append_assoc, List.cons_append] at h
        have hleft := congrArg (fun s : List Char => s[lead.length]?) h
        have hlength : lead.length < (d :: (before ++ lead)).length := by
          simp only [List.length_cons, List.length_append]
          omega
        rw [List.getElem?_append_right (Nat.le_refl _), Nat.sub_self, List.getElem?_cons_zero,
          ← List.append_assoc, ← List.cons_append, List.getElem?_append_left hlength] at hleft
        exact hleft.symm
      have hab := (hplace 'a').symm.trans (hplace 'b')
      simp at hab

theorem toList_render (selector classSelector : String) :
    (render selector classSelector).toList = renderFrom classSelector.toList none selector.toList :=
  String.toList_ofList

theorem toList_normalize (selector : String) :
    (normalize selector).toList = normalizeChars selector.toList :=
  String.toList_ofList

theorem toList_nest_of_hasSelf {parent child : String}
    (h : hasSelf (normalizeChars child.toList) = true) :
    (nest parent child).toList = replaceSelf (normalizeChars child.toList) parent.toList := by
  rw [nest, if_pos h, String.toList_ofList]

/-- Below its parent, a child without a self reference at the top level follows the parent. -/
theorem exists_toList_nest {parent child : String}
    (h : ¬ hasSelf (normalizeChars child.toList) = true) :
    ∃ between, (∀ text rest, renderFrom text none (between ++ rest) =
        between ++ renderFrom text none rest) ∧
      (nest parent child).toList =
        parent.toList ++ (between ++ normalizeChars child.toList) := by
  have hnest : nest parent child = parent ++ String.ofList (normalizeChars child.toList) ∨
      nest parent child = parent ++ " " ++ String.ofList (normalizeChars child.toList) := by
    rw [nest, if_neg h]
    exact ite_eq_or_eq _ _ _
  rcases hnest with hnest | hnest
  · exact ⟨[], fun _ _ => rfl, by simp [hnest]⟩
  · exact ⟨[' '], fun _ _ => rfl, by simp [hnest]⟩

/-- Below a parent that leaves no quote open, a child with a self reference is rendered with the
rendered parent for each of its self references iff none of them stands inside brackets; or else one
of them stands outside and the parent is `&` itself. -/
theorem render_nest_iff {parent child : String} (hparent : QuotesClosed parent.toList)
    (hchild : selves child.toList ≠ []) :
    (∀ classSelector, render (nest parent child) classSelector =
        render (normalize child) (render parent classSelector)) ↔
      false ∉ selves (normalize child).toList ∨
        parent = "&" ∧ true ∈ selves (normalize child).toList := by
  have hrefers : refers none (normalizeChars child.toList) = true := by
    rw [refers_normalizeChars]
    exact (filterMap_references_ne_nil_iff 0 none child.toList).mp hchild
  have hchars : (∀ classSelector, render (nest parent child) classSelector =
        render (normalize child) (render parent classSelector)) ↔
      ∀ text, renderFrom text none (nest parent child).toList =
        renderFrom (renderFrom text none parent.toList) none (normalizeChars child.toList) := by
    simp only [← String.toList_inj, toList_render, toList_normalize]
    exact ⟨fun h text => by simpa using h (String.ofList text), fun h text => h text.toList⟩
  rw [hchars, toList_normalize]
  by_cases hself : hasSelf (normalizeChars child.toList) = true
  · have htop := (hasSelf_iff _).mp hself
    have hamp : parent = "&" ↔ parent.toList = ['&'] := by
      rw [← String.toList_inj]
      rfl
    simp only [toList_nest_of_hasSelf hself, renderFrom_replaceSelf hparent, htop, and_true, hamp]
    exact forall_flatMap_iff
  · have htop := mt (hasSelf_iff _).mpr hself
    obtain ⟨between, hbetween, hnest⟩ := @exists_toList_nest parent child hself
    refine iff_of_false (fun hall => ?_) ?_
    · obtain ⟨text, hne⟩ := exists_descendant_ne parent.toList hrefers htop between
      rw [hnest] at hall
      refine hne (Eq.trans ?_ (hall text))
      rw [renderFrom_append, hparent, hbetween]
    · rintro (hnested | ⟨-, hmem⟩)
      · obtain ⟨top, hmem⟩ := List.exists_mem_of_ne_nil _
          ((filterMap_references_ne_nil_iff 0 none _).mpr hrefers)
        cases top with
        | true => exact htop hmem
        | false => exact hnested hmem
      · exact htop hmem

/-- A child with self references next to a combinator and to brackets, below a hovered element. -/
theorem render_nest_iff_hover :
    QuotesClosed "&:hover".toList ∧ selves "& > [title='&']:is(.a) + &".toList = [true, true] ∧
      ∀ classSelector, render (nest "&:hover" "& > [title='&']:is(.a) + &") classSelector =
        render (normalize "& > [title='&']:is(.a) + &") (render "&:hover" classSelector) := by
  have hparent : QuotesClosed "&:hover".toList := by decide
  have hselves : selves "& > [title='&']:is(.a) + &".toList = [true, true] := by decide
  refine ⟨hparent, hselves, (render_nest_iff hparent (by rw [hselves]; simp)).mpr (.inl ?_)⟩
  decide

/-- Inside brackets, a self reference is left for the class selector: below a hovered element,
`&:not(&)` is the hovered element that is not the element. -/
theorem reference_in_brackets_not_nested :
    QuotesClosed (Context.of [] "&:hover").selector.toList ∧
      selves "&:not(&)".toList = [true, false] ∧
      render (nest (Context.of [] "&:hover").selector "&:not(&)") "._a" = "._a:hover:not(._a)" ∧
      render (normalize "&:not(&)") ((Context.of [] "&:hover").render "._a") =
        "._a:hover:not(._a:hover)" := by
  decide +kernel

end AtomicStyle.Selector

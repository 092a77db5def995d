import AtomicStyle.Proofs.RuleKeys

/-!
# Rules in a row

The reader of rules keeps nothing of a rule that has ended but its text.  So the rules of a text that
ends where a rule ends are followed by those of the text after it.

Results:
1. `Yields.append`, `keysOf_append`, `keysOf_map`: the rules of texts in a row, and their keys.
2. `yields_of_splitChars`: a text that is one whole rule ends where this rule ends.
3. `splitChars_of_trim`: blanks around a whole rule do not count.
-/

namespace AtomicStyle.RuleText

open AtomicStyle.Css AtomicStyle.Text

/-! ## One lexeme -/

theorem getLast?_trim_brace (s : List Char) :
    (trim (s ++ ['\x7d'])).getLast? = some '\x7d' := by
  obtain ⟨before, after, hsplit, hbefore, hafter⟩ := exists_eq_trim (s ++ ['\x7d'])
  have hlast : (before ++ (trim (s ++ ['\x7d']) ++ after)).getLast? = some '\x7d' := by
    rw [← hsplit, List.getLast?_concat]
  rw [List.getLast?_append, List.getLast?_append] at hlast
  -- a brace is no blank, so it is the last character of what is left
  rcases Option.or_eq_some_iff.mp hlast with hlast | ⟨-, hlast⟩
  · rcases Option.or_eq_some_iff.mp hlast with hlast | ⟨-, hlast⟩
    · exact absurd (hafter _ (List.mem_of_getLast? hlast)) (by decide)
    · exact hlast
  · exact absurd (hbefore _ (List.mem_of_getLast? hlast)) (by decide)

namespace Splitting

/-- What reading a lexeme does. -/
inductive Outcome (s : Splitting) (lexeme : Lexeme) : Splitting → Prop where
  /-- It stands between rules and does not count. -/
  | leftOut (h : s.current = []) : Outcome s lexeme s
  /-- It becomes part of the rule, as it would of any rule that has begun. -/
  | kept (depth : Nat) (h : ∀ other : Splitting, other.depth = s.depth → other.current ≠ [] →
      other.step lexeme = .ok { other.extend lexeme.text with depth }) :
      Outcome s lexeme { s.extend lexeme.text with depth }
  /-- It ends the rule. -/
  | ended (hlexeme : lexeme = .plain '\x7d') (hdepth : s.depth = 1) :
      Outcome s lexeme { rules := s.rules ++ [trim (s.current ++ ['\x7d'])] }

theorem outcome_extend {lexeme : Lexeme}
    (h : ∀ other : Splitting, other.step lexeme = .ok (other.extend lexeme.text)) (s : Splitting) :
    Outcome s lexeme (s.extend lexeme.text) := by
  refine .kept s.depth fun other hdepth _ => ?_
  rw [h, ← hdepth]
  rfl

theorem outcome_extendBegun {lexeme : Lexeme}
    (h : ∀ other : Splitting, other.step lexeme = .ok (other.extendBegun lexeme.text))
    (s : Splitting) : Outcome s lexeme (s.extendBegun lexeme.text) := by
  by_cases hcurrent : s.current = []
  · have hsame : s.extendBegun lexeme.text = s := if_pos (List.isEmpty_iff.mpr hcurrent)
    rw [hsame]
    exact .leftOut hcurrent
  · rw [extendBegun_of_begun hcurrent]
    refine .kept s.depth fun other hdepth hother => ?_
    rw [h, extendBegun_of_begun hother, ← hdepth]
    rfl

theorem outcome_of_step {s next : Splitting} {lexeme : Lexeme} (h : s.step lexeme = .ok next) :
    Outcome s lexeme next := by
  cases lexeme with
  | openComment body => cases h
  | openQuote quote body => cases h
  | comment body =>
    cases h
    exact outcome_extendBegun (fun _ => rfl) s
  | escape c =>
    cases h
    exact outcome_extend (fun _ => rfl) s
  | loneEscape =>
    cases h
    exact outcome_extend (fun _ => rfl) s
  | quoted quote body =>
    cases h
    exact outcome_extend (fun _ => rfl) s
  | plain c =>
    by_cases hopen : c = '\x7b'
    · subst hopen
      cases h
      exact .kept (s.depth + 1) fun other hdepth _ => by rw [← hdepth]; rfl
    by_cases hclose : c = '\x7d'
    · subst hclose
      have hstep : ∀ other : Splitting, other.step (.plain '\x7d') = other.close := fun _ => rfl
      rcases hdepth : s.depth with _ | _ | depth
      · rw [hstep, close, hdepth] at h
        cases h
      · rw [hstep, close, hdepth] at h
        cases h
        exact .ended rfl hdepth
      · rw [hstep, close, hdepth] at h
        cases h
        refine .kept (depth + 1) fun other hother _ => ?_
        rw [hstep, close, hother, hdepth]
        rfl
    have hstep := step_plain hopen hclose
    rw [hstep] at h
    cases h
    by_cases hblank : isCssBlank c = true
    · simp only [if_pos hblank] at hstep ⊢
      exact outcome_extendBegun hstep s
    · simp only [if_neg hblank] at hstep ⊢
      exact outcome_extend hstep s

/-- The same place of reading, after some more rules. -/
def afterRules (rules : List (List Char)) (s : Splitting) : Splitting :=
  { s with rules := rules ++ s.rules }

theorem step_afterRules (rules : List (List Char)) (s : Splitting) (lexeme : Lexeme) :
    (s.afterRules rules).step lexeme = (s.step lexeme).map (afterRules rules) := by
  have hbegun : ∀ text, (s.afterRules rules).extendBegun text =
      (s.extendBegun text).afterRules rules := by
    intro text
    show (if s.current.isEmpty then _ else _) = afterRules rules (if s.current.isEmpty then _ else _)
    split
    · rfl
    · rfl
  have hclose : (s.afterRules rules).close = s.close.map (afterRules rules) := by
    obtain ⟨_ | _ | depth, current, earlier⟩ := s
    · rfl
    · simp [close, afterRules, Except.map]
    · rfl
  cases lexeme with
  | comment body => exact congrArg Except.ok (hbegun _)
  | plain c =>
    simp only [step]
    split
    · rfl
    · split
      · exact hclose
      · split
        · exact congrArg Except.ok (hbegun _)
        · rfl
  | _ => rfl

/-- What was read before makes no difference to what is read next. -/
theorem foldlM_afterRules (rules : List (List Char)) (lexemes : List Lexeme) (s : Splitting) :
    lexemes.foldlM step (s.afterRules rules) = (lexemes.foldlM step s).map (afterRules rules) := by
  induction lexemes generalizing s with
  | nil => rfl
  | cons lexeme rest ih =>
    rw [List.foldlM_cons, List.foldlM_cons, step_afterRules]
    cases s.step lexeme with
    | error fault => rfl
    | ok next => exact ih next

theorem exists_of_foldlM_cons {lexeme : Lexeme} {rest : List Lexeme} {s last : Splitting}
    (h : (lexeme :: rest).foldlM step s = .ok last) :
    ∃ next, s.step lexeme = .ok next ∧ rest.foldlM step next = .ok last := by
  rw [List.foldlM_cons] at h
  cases hstep : s.step lexeme with
  | error fault =>
    rw [hstep] at h
    cases h
  | ok next =>
    rw [hstep] at h
    exact ⟨next, rfl, h⟩

/-- The rules that have been read stay. -/
theorem exists_rules_of_foldlM {lexemes : List Lexeme} {s last : Splitting}
    (h : lexemes.foldlM step s = .ok last) : ∃ more, last.rules = s.rules ++ more := by
  induction lexemes generalizing s with
  | nil =>
    cases h
    exact ⟨[], (List.append_nil _).symm⟩
  | cons lexeme rest ih =>
    obtain ⟨next, hstep, hrest⟩ := exists_of_foldlM_cons h
    obtain ⟨more, hmore⟩ := ih hrest
    cases outcome_of_step hstep with
    | leftOut => exact ⟨more, hmore⟩
    | kept => exact ⟨more, hmore⟩
    | ended => exact ⟨_ :: more, by rw [hmore, List.append_assoc]; rfl⟩

/-- Every rule ends with a brace. -/
theorem getLast?_of_foldlM {lexemes : List Lexeme} {s last : Splitting}
    (h : lexemes.foldlM step s = .ok last) (hs : ∀ rule ∈ s.rules, rule.getLast? = some '\x7d') :
    ∀ rule ∈ last.rules, rule.getLast? = some '\x7d' := by
  induction lexemes generalizing s with
  | nil =>
    cases h
    exact hs
  | cons lexeme rest ih =>
    obtain ⟨next, hstep, hrest⟩ := exists_of_foldlM_cons h
    refine ih hrest ?_
    cases outcome_of_step hstep with
    | leftOut => exact hs
    | kept => exact hs
    | ended =>
      intro rule hrule
      rcases List.mem_append.mp hrule with hrule | hrule
      · exact hs rule hrule
      · rw [List.mem_singleton.mp hrule]
        exact getLast?_trim_brace s.current

/-- Comments and quoted texts that never end are not read. -/
theorem isClosed_of_foldlM {lexemes : List Lexeme} {s last : Splitting}
    (h : lexemes.foldlM step s = .ok last) :
    ∀ lexeme ∈ lexemes, lexeme = .loneEscape ∨ lexeme.isClosed = true := by
  induction lexemes generalizing s with
  | nil => exact fun _ hmem => absurd hmem List.not_mem_nil
  | cons lexeme rest ih =>
    obtain ⟨next, hstep, hrest⟩ := exists_of_foldlM_cons h
    intro other hother
    rcases List.mem_cons.mp hother with rfl | hother
    · cases other with
      | loneEscape => exact Or.inl rfl
      | openComment body => cases hstep
      | openQuote quote body => cases hstep
      | _ => exact Or.inr rfl
    · exact ih hrest other hother

end Splitting

/-! ## Texts that end with a rule -/

/-- A text is read as some rules and leaves nothing behind. -/
structure Yields (s : List Char) (rules : List (List Char)) : Prop where
  closed : Closed false s
  /-- Nothing after the text can make a comment of its end. -/
  last : s.getLast? ≠ some '/'
  run : (lex false s).foldlM Splitting.step {} = .ok { rules }

theorem yields_nil : Yields [] [] :=
  ⟨fun _ h => (nomatch h), fun h => (nomatch h), rfl⟩

theorem Yields.splitChars_eq {s : List Char} {rules : List (List Char)} (h : Yields s rules) :
    splitChars s = .ok rules := by
  rw [splitChars, h.run]
  rfl

/-- The rules of two texts in a row are those of the one and then those of the other. -/
theorem Yields.append {s t : List Char} {rules others : List (List Char)} (hs : Yields s rules)
    (ht : Yields t others) : Yields (s ++ t) (rules ++ others) := by
  have hlex := lex_append_of_getLast? hs.closed hs.last t
  refine ⟨fun lexeme hmem => ?_, fun hlast => ?_, ?_⟩
  · rw [hlex] at hmem
    rcases List.mem_append.mp hmem with hmem | hmem
    · exact hs.closed lexeme hmem
    · exact ht.closed lexeme hmem
  · rw [List.getLast?_append] at hlast
    rcases Option.or_eq_some_iff.mp hlast with hlast | ⟨-, hlast⟩
    · exact ht.last hlast
    · exact hs.last hlast
  · have hafter : ({ rules } : Splitting) = ({} : Splitting).afterRules rules := by
      simp [Splitting.afterRules]
    rw [hlex, List.foldlM_append, hs.run]
    show (lex false t).foldlM Splitting.step { rules } = _
    rw [hafter, Splitting.foldlM_afterRules, ht.run]
    rfl

/-! ## Keys in a row -/

theorem keysOf_cons (rule : List Char) (rest : List (List Char)) :
    keysOf (rule :: rest) = (keysOf [rule]).bind fun first => (keysOf rest).map (first ++ ·) := by
  by_cases hbrace : '\x7b' ∈ rule
  · by_cases hat : rule.head? = some '@'
    · rw [keysOf_at hbrace hat, keysOf_at hbrace hat, keysOf_nil]
      cases splitChars (blockText rule) with
      | error fault => rfl
      | ok children =>
        show (keysOf children).bind _ = Except.bind ((keysOf children).bind _) _
        cases keysOf children with
        | error fault => rfl
        | ok inner =>
          show _ = (keysOf rest).map (inner ++ [] ++ ·)
          rw [List.append_nil]
          rfl
    · rw [keysOf, dif_pos hbrace, if_neg hat, keysOf, dif_pos hbrace, if_neg hat, keysOf_nil]
      cases keysOf rest with
      | error fault => rfl
      | ok others => rfl
  · rw [keysOf, dif_neg hbrace, keysOf, dif_neg hbrace]
    rfl

/-- The keys of rules in a row. -/
theorem keysOf_append (rules others : List (List Char)) :
    keysOf (rules ++ others) =
      (keysOf rules).bind fun first => (keysOf others).map (first ++ ·) := by
  induction rules with
  | nil =>
    rw [keysOf_nil, List.nil_append]
    cases keysOf others with
    | error fault => rfl
    | ok keys => rfl
  | cons rule rest ih =>
    rw [List.cons_append, keysOf_cons, ih, keysOf_cons rule rest]
    cases keysOf [rule] with
    | error fault => rfl
    | ok first =>
      cases keysOf rest with
      | error fault => rfl
      | ok second =>
        cases keysOf others with
        | error fault => rfl
        | ok third => exact congrArg Except.ok (List.append_assoc _ _ _).symm

theorem Yields.keys_eq {css : String} {rules : List (List Char)} (h : Yields css.toList rules) :
    keys css = keysOf rules :=
  keys_eq_keysOf h.splitChars_eq

/-- The keys of texts that are each read as one rule. -/
theorem keysOf_map {α : Type} {items : List α} {text : α → String} {read : α → List Char}
    (h : ∀ item ∈ items, keys (text item) = keysOf [read item]) :
    keysOf (items.map read) = ((items.map text).mapM keys).map List.flatten := by
  induction items with
  | nil => exact keysOf_nil
  | cons item rest ih =>
    rw [List.map_cons, List.map_cons, keysOf_cons, List.mapM_cons, ← h item List.mem_cons_self,
      ih fun other hother => h other (List.mem_cons_of_mem item hother)]
    cases keys (text item) with
    | error fault => rfl
    | ok first =>
      show Except.map _ (Except.map _ ((rest.map text).mapM keys)) =
        Except.map _ (((rest.map text).mapM keys).bind _)
      cases (rest.map text).mapM keys with
      | error fault => rfl
      | ok others => rfl

theorem mapM_keys {texts : List String} (h : ∀ text ∈ texts, keys text = .ok [key text]) :
    (texts.mapM keys).map List.flatten = .ok (texts.map key) := by
  induction texts with
  | nil => rfl
  | cons text rest ih =>
    have hrest := ih fun other hother => h other (List.mem_cons_of_mem text hother)
    rw [List.mapM_cons, h text List.mem_cons_self]
    show Except.map List.flatten ((rest.mapM keys).bind _) = _
    cases hread : rest.mapM keys with
    | error fault =>
      rw [hread] at hrest
      cases hrest
    | ok names =>
      rw [hread] at hrest
      exact congrArg (fun others => Except.ok (key text :: others)) (Except.ok.inj hrest)

/-! ## Whole rules -/

theorem exists_of_splitChars {css : List Char} {rules : List (List Char)}
    (h : splitChars css = .ok rules) :
    ∃ rest, (lex false css).foldlM Splitting.step {} = .ok { current := rest, rules } ∧
      trim rest = [] := by
  rw [splitChars] at h
  cases hrun : (lex false css).foldlM Splitting.step {} with
  | error fault =>
    rw [hrun] at h
    cases h
  | ok last =>
    rw [hrun] at h
    obtain ⟨depth, current, found⟩ := last
    replace h : Splitting.finish ⟨depth, current, found⟩ = .ok rules := h
    unfold Splitting.finish at h
    split at h
    · cases h
    · next hdepth =>
      split at h
      · cases h
      · next htrim =>
        cases h
        refine ⟨current, ?_, by simpa using htrim⟩
        have hzero : depth = 0 := by simpa using hdepth
        rw [hzero]

theorem getLast?_of_splitChars {css : List Char} {rules : List (List Char)}
    (h : splitChars css = .ok rules) : ∀ rule ∈ rules, rule.getLast? = some '\x7d' := by
  obtain ⟨rest, hrun, -⟩ := exists_of_splitChars h
  exact Splitting.getLast?_of_foldlM hrun fun _ hrule => absurd hrule List.not_mem_nil

/-- A text that is one whole rule leaves nothing behind. -/
theorem yields_of_splitChars {css : List Char} (h : splitChars css = .ok [css]) :
    Yields css [css] := by
  obtain ⟨rest, hrun, -⟩ := exists_of_splitChars h
  have hsize := Splitting.size_foldlM_le hrun
  rw [flatMap_text_lex] at hsize
  -- the rule is as long as the text
  have hrest : rest = [] := by
    simp only [Splitting.size, List.flatten_cons, List.flatten_nil, List.append_nil,
      List.length_nil] at hsize
    exact List.eq_nil_of_length_eq_zero (by omega)
  have hlast := getLast?_of_splitChars h css List.mem_cons_self
  refine ⟨fun lexeme hmem => ?_, by rw [hlast]; decide, by rw [hrun, hrest]⟩
  rcases Splitting.isClosed_of_foldlM hrun lexeme hmem with rfl | hclosed
  · rw [getLast?_of_loneEscape_mem hmem] at hlast
    cases hlast
  · exact hclosed

/-- Where a whole rule is read after some text, all of it is added to that text. -/
theorem Splitting.foldlM_of_kept {lexemes : List Lexeme} {s last : Splitting} {rule before : List Char}
    (hrun : lexemes.foldlM step s = .ok last) (hs : s.rules = []) (hlast : last.rules = [rule])
    (hsize : s.current.length + (lexemes.flatMap Lexeme.text).length ≤ rule.length)
    (hbefore : before ≠ []) :
    lexemes.foldlM step { s with current := before ++ s.current } =
      .ok { rules := [trim (before ++ (s.current ++ lexemes.flatMap Lexeme.text))] } := by
  induction lexemes generalizing s with
  | nil =>
    cases hrun
    rw [hs] at hlast
    cases hlast
  | cons lexeme rest ih =>
    obtain ⟨next, hstep, hrest⟩ := exists_of_foldlM_cons hrun
    rw [List.flatMap_cons, List.length_append] at hsize
    cases outcome_of_step hstep with
    | leftOut hnil =>
      -- what is left out is missing in the end
      have hbound := size_foldlM_le hrest
      have hpos := List.length_pos_iff.mpr (text_ne_nil lexeme)
      simp only [size, hs, hnil, hlast, List.flatten_cons, List.flatten_nil, List.append_nil,
        List.length_nil] at hbound
      omega
    | kept depth hkept =>
      have hother := hkept { s with current := before ++ s.current } rfl (by simp [hbefore])
      have hnext := ih hrest hs (by simp only [extend, List.length_append]; omega)
      rw [List.foldlM_cons, hother]
      simp only [extend, List.append_assoc, List.flatMap_cons] at hnext ⊢
      exact hnext
    | ended hlexeme hdepth =>
      -- nothing comes after the end
      obtain ⟨more, hmore⟩ := exists_rules_of_foldlM hrest
      rw [hlast, hs, List.nil_append, List.singleton_append] at hmore
      obtain ⟨rfl, -⟩ := List.cons.inj hmore
      have hbound := length_trim_le (s.current ++ ['\x7d'])
      have hnil : rest.flatMap Lexeme.text = [] := by
        rw [hlexeme] at hsize
        simp only [Lexeme.text, List.length_append, List.length_singleton] at hsize hbound
        exact List.eq_nil_of_length_eq_zero (by omega)
      have hdone : rest = [] := by
        cases rest with
        | nil => rfl
        | cons other rest => exact absurd (List.append_eq_nil_iff.mp hnil).1 (text_ne_nil other)
      subst hdone hlexeme
      rw [List.foldlM_cons]
      show close _ >>= _ = _
      rw [close, hdepth, hs]
      simp [Lexeme.text]

/-! ## Blanks around a rule -/

theorem lex_blanks_append {blanks : List Char} (h : ∀ c ∈ blanks, isBlank c = true)
    (t : List Char) : lex false (blanks ++ t) = blanks.map .plain ++ lex false t := by
  induction blanks with
  | nil => rfl
  | cons c rest ih =>
    have hc := h c List.mem_cons_self
    rw [List.cons_append, List.map_cons, List.cons_append, ← ih fun d hd => h d
      (List.mem_cons_of_mem c hd)]
    exact lexFrom_blank false hc (rest ++ t)

theorem Splitting.extendBegun_or_extend (s : Splitting) (c : Char) :
    (if isCssBlank c then s.extendBegun [c] else s.extend [c]) = s ∨
      (if isCssBlank c then s.extendBegun [c] else s.extend [c]) = s.extend [c] := by
  unfold extendBegun
  split
  · split
    · exact Or.inl rfl
    · exact Or.inr rfl
  · exact Or.inr rfl

/-- Blanks are left out, or begin a rule with nothing but blanks. -/
theorem Splitting.foldlM_blanks {blanks : List Char} (h : ∀ c ∈ blanks, isBlank c = true)
    (s : Splitting) : ∃ kept, (blanks.map Lexeme.plain).foldlM step s = .ok (s.extend kept) ∧
      ∀ c ∈ kept, isBlank c = true := by
  induction blanks generalizing s with
  | nil => exact ⟨[], by simp [extend, pure, Except.pure], fun _ hc => absurd hc List.not_mem_nil⟩
  | cons c rest ih =>
    have hc := h c List.mem_cons_self
    have hrest := ih fun d hd => h d (List.mem_cons_of_mem c hd)
    have hstep := step_plain (ne_of_isBlank hc (by decide)) (ne_of_isBlank hc (by decide)) s
    rw [List.map_cons, List.foldlM_cons, hstep]
    show ∃ kept, (rest.map Lexeme.plain).foldlM step (if isCssBlank c then _ else _) = _ ∧ _
    rcases extendBegun_or_extend s c with hnext | hnext
    · rw [hnext]
      exact hrest s
    · rw [hnext]
      obtain ⟨kept, hkept, hblanks⟩ := hrest (s.extend [c])
      rw [extend_extend] at hkept
      exact ⟨[c] ++ kept, hkept, List.forall_mem_cons.mpr ⟨hc, hblanks⟩⟩

theorem trim_append_of_blanks {blanks : List Char} (h : ∀ c ∈ blanks, isBlank c = true)
    (s : List Char) : trim (blanks ++ s) = trim s := by
  rw [trim, trim, trimStart, List.dropWhile_append_of_pos h, trimStart]

/-- Blanks around a whole rule do not count. -/
theorem splitChars_of_trim {css : List Char} (h : splitChars (trim css) = .ok [trim css]) :
    splitChars css = .ok [trim css] := by
  obtain ⟨before, after, hsplit, hbefore, hafter⟩ := exists_eq_trim css
  have hyields := yields_of_splitChars h
  obtain ⟨first, hfirst, hblank⟩ := Splitting.foldlM_blanks hbefore {}
  obtain ⟨left, hleft, hblanks⟩ := Splitting.foldlM_blanks hafter { rules := [trim css] }
  have hrule : (lex false (trim css)).foldlM Splitting.step (({} : Splitting).extend first) =
      .ok { rules := [trim css] } := by
    cases first with
    | nil => exact hyields.run
    | cons c first =>
      have hkept := Splitting.foldlM_of_kept hyields.run rfl rfl (by rw [flatMap_text_lex]; simp)
        (List.cons_ne_nil c first)
      rw [flatMap_text_lex, List.nil_append, trim_append_of_blanks hblank, trim_trim,
        List.append_nil] at hkept
      exact hkept
  have hlex : lex false css = before.map .plain ++ (lex false (trim css) ++ after.map .plain) := by
    have hend : lex false (after ++ []) = after.map .plain ++ [] := lex_blanks_append hafter []
    rw [List.append_nil, List.append_nil] at hend
    conv => lhs; rw [hsplit]
    rw [lex_blanks_append hbefore, lex_append_of_getLast? hyields.closed hyields.last, hend]
  rw [splitChars, hlex, List.foldlM_append, hfirst]
  show (List.foldlM Splitting.step _ _ >>= _) = _
  rw [List.foldlM_append, hrule]
  show (List.foldlM Splitting.step _ _ >>= _) = _
  rw [hleft]
  have hnil : trim left = [] := by
    have hempty := trim_append_of_blanks hblanks []
    rw [List.append_nil] at hempty
    exact hempty
  show Splitting.finish { current := left, rules := [trim css] } = _
  rw [Splitting.finish, hnil]
  rfl

end AtomicStyle.RuleText

import AtomicStyle.Proofs.Hydration
import Mathlib.Data.List.Forall2

/-!
# Runs that end alike

Callers ask for rules in any order, more than once and in calls of any size, and style elements are
created when the first rule for them arrives.  Where a key stands for one text only, none of this can
be seen afterwards, apart from the order of the rules inside an element.

Results:
1. `RuleText.history_eq_newRules`: how the rules are divided into calls makes no difference.
2. `RuleText.mem_newRules_iff`: the rules that are inserted are those whose key was not known.
3. `Manager.filled_after`: every style element was created for a rule.
4. `Manager.Records.alike`: what was inserted decides on the document but for the order in elements.
5. `Manager.order_independent`: two runs for the same rules end alike, and repeating a call does
   nothing.
-/

namespace AtomicStyle

open AtomicStyle.Text

/-! ## Rules of a run -/

namespace RuleText

theorem trimmed_trimmed (rule : String) : trimmed (trimmed rule) = trimmed rule := by
  rw [trimmed, trimmed, String.toList_ofList, trim_trim]

theorem key_trimmed (rule : String) : key (trimmed rule) = key rule := by
  rw [key, key, trimmed_trimmed]

theorem key_of_keys {rule name : String} {names : List String}
    (h : keys (trimmed rule) = .ok (name :: names)) : key rule = name := by
  rw [key, h]

/-- Blanks around a rule do not make it malformed. -/
theorem check_trimmed {rule : String} (h : check rule = .ok ()) : check (trimmed rule) = .ok () := by
  unfold check at h ⊢
  rw [trimmed_trimmed]
  simp only at h ⊢
  split at h
  · cases h
  · next hempty =>
    rw [if_neg hempty]
    cases hsplit : split (trimmed rule) with
    | error fault =>
      rw [hsplit] at h
      cases h
    | ok rules =>
      rw [hsplit] at h
      change (if rules = [trimmed rule] then _ else _) = _ at h
      show (if rules = [trimmed rule] then _ else _) = _
      split at h
      · next heq => rw [if_pos heq]
      · cases h

/-- The texts that a run of calls asks for. -/
def texts (calls : List (List String)) : List String :=
  calls.flatten.map trimmed

theorem newRules_append {rules : List String} (hcheck : ∀ rule ∈ rules, check (trimmed rule) = .ok ())
    (known more : List String) :
    newRules known (rules ++ more) =
      newRules known rules ++ newRules (known ++ (newRules known rules).map key) more := by
  induction rules generalizing known with
  | nil => rw [newRules, List.map_nil, List.append_nil, List.nil_append, List.nil_append]
  | cons rule rest ih =>
    have hrest := ih fun other hother => hcheck other (List.mem_cons_of_mem rule hother)
    rw [List.cons_append, newRules, newRules]
    by_cases hkey : key (trimmed rule) ∈ known
    · simp only [if_pos hkey]
      exact hrest known
    · simp only [if_neg hkey, hcheck rule List.mem_cons_self]
      rw [hrest, List.map_cons, List.append_assoc]
      rfl

/-- Well-formed rules are inserted as if they came in one call. -/
theorem history_eq_newRules {calls : List (List String)}
    (hcheck : ∀ rule ∈ calls.flatten, check (trimmed rule) = .ok ()) (known : List String) :
    history known calls = newRules known calls.flatten := by
  induction calls generalizing known with
  | nil => rfl
  | cons rules calls ih =>
    rw [List.flatten_cons, List.forall_mem_append] at hcheck
    rw [history, List.flatten_cons, newRules_append hcheck.1, ih hcheck.2]

/-- Where a key stands for one text, the texts with a new key are inserted. -/
theorem mem_newRules_iff {rules : List String}
    (hcheck : ∀ rule ∈ rules, check (trimmed rule) = .ok ())
    (hkey : ∀ rule ∈ rules, ∀ other ∈ rules, key rule = key other → trimmed rule = trimmed other)
    (known : List String) (css : String) :
    css ∈ newRules known rules ↔ css ∈ rules.map trimmed ∧ key css ∉ known := by
  induction rules generalizing known with
  | nil => simp [newRules]
  | cons rule rest ih =>
    have hrest := ih (fun other hother => hcheck other (List.mem_cons_of_mem rule hother))
      (fun one hone other hother =>
        hkey one (List.mem_cons_of_mem rule hone) other (List.mem_cons_of_mem rule hother))
    rw [newRules, List.map_cons, List.mem_cons]
    by_cases hknown : key (trimmed rule) ∈ known
    · simp only [if_pos hknown]
      rw [hrest]
      constructor
      · exact fun h => ⟨Or.inr h.1, h.2⟩
      · rintro ⟨rfl | hmem, hnew⟩
        · exact absurd hknown hnew
        · exact ⟨hmem, hnew⟩
    · simp only [if_neg hknown, hcheck rule List.mem_cons_self]
      rw [List.mem_cons, hrest, List.mem_append, List.mem_singleton, not_or]
      constructor
      · rintro (rfl | ⟨hmem, hnew, -⟩)
        · exact ⟨Or.inl rfl, hknown⟩
        · exact ⟨Or.inr hmem, hnew⟩
      · rintro ⟨rfl | hmem, hnew⟩
        · exact Or.inl rfl
        · -- a later text with the key of this one is this one
          obtain ⟨other, hother, rfl⟩ := List.mem_map.mp hmem
          by_cases hsame : key (trimmed other) = key (trimmed rule)
          · rw [key_trimmed, key_trimmed] at hsame
            exact Or.inl (hkey other (List.mem_cons_of_mem rule hother) rule List.mem_cons_self hsame)
          · exact Or.inr ⟨hmem, hnew, hsame⟩

end RuleText

namespace Manager

/-! ## Outcomes -/

/-- The outcomes of a run of calls, in order. -/
def outcomes (manager : Manager) : List (List String) → List (Except SheetFault Nat)
  | [] => []
  | rules :: calls =>
    (manager.ensureInserted rules).1 :: (manager.ensureInserted rules).2.outcomes calls

/-- What calls report together: the sum of their numbers, or the first fault. -/
def total : List (Except SheetFault Nat) → Except SheetFault Nat
  | [] => .ok 0
  | outcome :: rest => do
    let count ← outcome
    let others ← total rest
    .ok (count + others)

section Runs

variable {manager : Manager} {known inserted : List String}

/-- A call with well-formed rules gives the number of the new ones. -/
theorem ensureInserted_of_check (h : manager.Records known inserted) {rules : List String}
    (hcheck : ∀ rule ∈ rules, RuleText.check (trimmed rule) = .ok ()) :
    (manager.ensureInserted rules).1 =
      .ok (RuleText.newRules manager.state.keys rules).length := by
  cases hrun : manager.ensureInserted rules with
  | mk result last =>
    cases result with
    | error fault =>
      obtain ⟨before, rule, after, -, rfl, -, -, hfault⟩ := exists_of_ensureInserted_error h hrun
      rw [hcheck rule (List.mem_append_right _ List.mem_cons_self)] at hfault
      cases hfault
    | ok count => rw [(records_ensureInserted h rules).2 count (by rw [hrun])]

/-- The calls of a run with well-formed rules succeed, and they report the rules inserted. -/
theorem total_outcomes_of_check (h : manager.Records known inserted) {calls : List (List String)}
    (hcheck : ∀ rule ∈ calls.flatten, RuleText.check (trimmed rule) = .ok ()) :
    total (manager.outcomes calls) =
      .ok (RuleText.history manager.state.keys calls).length := by
  induction calls generalizing manager inserted with
  | nil => rfl
  | cons rules calls ih =>
    rw [List.flatten_cons, List.forall_mem_append] at hcheck
    obtain ⟨hnext, -⟩ := records_ensureInserted h rules
    have hkeys : (manager.ensureInserted rules).2.state.keys =
        manager.state.keys ++ (RuleText.newRules manager.state.keys rules).map RuleText.key := by
      rw [hnext.keys, h.keys, List.map_append, List.append_assoc]
    rw [outcomes, total, ensureInserted_of_check h hcheck.1, ih hnext hcheck.2, hkeys,
      RuleText.history, List.length_append]
    rfl

/-! ## Style elements are created for rules -/

/-- Every point of a manager has a rule among those that were inserted. -/
def Filled (manager : Manager) (inserted : List String) : Prop :=
  ∀ point ∈ manager.state.points, ∃ css ∈ inserted, InsertionPoint.ofRule css = point

theorem mem_points_ensurePoint {point other : InsertionPoint}
    (h : other ∈ (manager.ensurePoint point).state.points) :
    other = point ∨ other ∈ manager.state.points := by
  unfold ensurePoint at h
  split at h
  · exact Or.inr h
  · have hpoint := InsertionState.hasPoint_addPoint manager.state point other
    rw [InsertionState.hasPoint, List.contains_iff_mem.mpr h] at hpoint
    simpa [InsertionState.hasPoint] using hpoint.symm

theorem filled_withRule (hfilled : manager.Filled inserted) (css : String) :
    (manager.withRule css).Filled (inserted ++ [css]) := by
  intro point hpoint
  have hready : point ∈ (manager.ensurePoint (InsertionPoint.ofRule css)).state.points := by
    change point ∈ (InsertionState.record _ _).points at hpoint
    unfold InsertionState.record at hpoint
    split at hpoint
    · exact hpoint
    · exact hpoint
  rcases mem_points_ensurePoint hready with rfl | hpoint
  · exact ⟨css, List.mem_append_right _ List.mem_cons_self, rfl⟩
  · obtain ⟨other, hother, heq⟩ := hfilled point hpoint
    exact ⟨other, List.mem_append_left _ hother, heq⟩

theorem filled_ensureInserted (h : manager.Records known inserted) (hfilled : manager.Filled inserted)
    (rules : List String) :
    (manager.ensureInserted rules).2.Filled
      (inserted ++ RuleText.newRules manager.state.keys rules) := by
  induction rules generalizing manager inserted with
  | nil =>
    rw [RuleText.newRules, List.append_nil]
    exact hfilled
  | cons rule rest ih =>
    rw [RuleText.newRules]
    by_cases hkey : RuleText.key (trimmed rule) ∈ manager.state.keys
    · rw [ensureInserted_of_mem h hkey]
      simp only [if_pos hkey]
      exact ih h hfilled
    · simp only [if_neg hkey]
      cases hcheck : RuleText.check (trimmed rule) with
      | error fault =>
        rw [ensureInserted_of_error h hkey hcheck, List.append_nil]
        exact hfilled
      | ok _ =>
        have hnext := records_withRule h hkey
        have hlast := ih hnext (filled_withRule hfilled (trimmed rule))
        rw [hnext.keys, List.map_append, ← List.append_assoc, ← h.keys, List.append_assoc] at hlast
        rw [ensureInserted_of_ok h hkey hcheck]
        exact hlast

theorem filled_after (h : manager.Records known inserted) (hfilled : manager.Filled inserted)
    (calls : List (List String)) :
    (manager.after calls).Filled (inserted ++ RuleText.history manager.state.keys calls) := by
  unfold after
  induction calls generalizing manager inserted with
  | nil =>
    rw [RuleText.history, List.append_nil]
    exact hfilled
  | cons rules calls ih =>
    obtain ⟨hnext, -⟩ := records_ensureInserted h rules
    have hlast := ih hnext (filled_ensureInserted h hfilled rules)
    rw [hnext.keys, List.map_append, ← List.append_assoc, ← h.keys, List.append_assoc] at hlast
    exact hlast

/-- The points of a manager are those of the rules that were inserted. -/
theorem Records.mem_points_iff (h : manager.Records known inserted) (hfilled : manager.Filled inserted)
    {point : InsertionPoint} :
    point ∈ manager.state.points ↔ ∃ css ∈ inserted, InsertionPoint.ofRule css = point := by
  constructor
  · exact hfilled point
  · rintro ⟨css, hcss, rfl⟩
    exact h.placed css hcss

end Runs

/-! ## Managers that are alike -/

/-- Two managers that differ at most in the order of the rules inside an element and in the order in
which the keys were recorded. -/
structure Alike (first second : Manager) : Prop where
  points : first.state.points = second.state.points
  elements : List.Forall₂ (fun a b => a.point = b.point ∧ a.nonce = b.nonce ∧ a.rules.Perm b.rules)
    first.document.elements second.document.elements
  keys : first.state.keys.Perm second.state.keys

theorem Records.alike {first second : Manager} {known known' inserted inserted' : List String}
    (h : first.Records known inserted) (h' : second.Records known' inserted')
    (hfilled : first.Filled inserted) (hfilled' : second.Filled inserted')
    (hnonce : first.nonce = second.nonce) (hknown : known.Perm known')
    (hinserted : inserted.Perm inserted') : first.Alike second := by
  have hpoints : first.state.points = second.state.points := by
    refine List.Perm.eq_of_pairwise (fun a b _ _ hlt hlt' => absurd hlt' (Nat.lt_asymm hlt))
      h.ascends h'.ascends ?_
    rw [List.perm_ext_iff_of_nodup h.ascends.nodup h'.ascends.nodup]
    intro point
    rw [h.mem_points_iff hfilled, h'.mem_points_iff hfilled']
    simp only [hinserted.mem_iff]
  refine ⟨hpoints, ?_, ?_⟩
  · rw [h.elements, h'.elements, hpoints, List.forall₂_map_left_iff, List.forall₂_map_right_iff,
      List.forall₂_same]
    exact fun point _ => ⟨rfl, hnonce, hinserted.filter _⟩
  · rw [h.keys, h'.keys]
    exact hknown.append (hinserted.map RuleText.key)

/-- What a run inserts that starts on an empty document. -/
theorem records_run {initial : InsertionState} (h : initial.Clean) (nonce : Option String)
    (calls : List (List String)) :
    (after { state := initial, nonce } calls).Records initial.keys
        (RuleText.history initial.keys calls) ∧
      (after { state := initial, nonce } calls).Filled (RuleText.history initial.keys calls) := by
  have hfresh := records_fresh h.points h.keys nonce
  refine ⟨records_after hfresh calls, filled_after hfresh (fun point hpoint => ?_) calls⟩
  rw [h.points] at hpoint
  exact absurd hpoint List.not_mem_nil

section Texts

variable {calls : List (List String)}
  (hcheck : ∀ rule ∈ calls.flatten, RuleText.check (trimmed rule) = .ok ())
  (hkey : ∀ rule ∈ calls.flatten, ∀ other ∈ calls.flatten,
    RuleText.key rule = RuleText.key other → trimmed rule = trimmed other)

include hcheck hkey

theorem mem_history_iff (known : List String) (css : String) :
    css ∈ RuleText.history known calls ↔ css ∈ RuleText.texts calls ∧ RuleText.key css ∉ known := by
  rw [RuleText.history_eq_newRules hcheck]
  exact RuleText.mem_newRules_iff hcheck hkey known css

/-- After a run, all its texts are known. -/
theorem ensureInserted_again {initial : InsertionState} (h : initial.Clean) (nonce : Option String)
    {rules : List String} (hrules : ∀ rule ∈ rules, trimmed rule ∈ RuleText.texts calls) :
    (after { state := initial, nonce } calls).ensureInserted rules =
      (.ok 0, after { state := initial, nonce } calls) := by
  refine ensureInserted_of_known fun rule hrule => ?_
  rw [(records_run h nonce calls).1.keys, List.mem_append]
  by_cases hknown : RuleText.key (trimmed rule) ∈ initial.keys
  · exact Or.inl hknown
  · exact Or.inr (List.mem_map_of_mem
      ((mem_history_iff hcheck hkey initial.keys _).mpr ⟨hrules rule hrule, hknown⟩))

end Texts

/-- **Order independence.**  Two runs start on empty documents with the same known keys.  If all rules
are well-formed, a key stands for one text, and both runs ask for the same texts, in whatever order,
calls and numbers, then they end alike; all calls succeed, and they count the same rules in total; and
asking again for any of the texts does nothing. -/
theorem order_independent {initial initial' : InsertionState} (h : initial.Clean) (h' : initial'.Clean)
    (hknown : ∀ key, key ∈ initial.keys ↔ key ∈ initial'.keys) (nonce : Option String)
    {first second : List (List String)}
    (hcheck : ∀ rule ∈ first.flatten ++ second.flatten, RuleText.check rule = .ok ())
    (hkey : ∀ rule ∈ first.flatten ++ second.flatten, ∀ other ∈ first.flatten ++ second.flatten,
      RuleText.key rule = RuleText.key other → trimmed rule = trimmed other)
    (htexts : ∀ css, css ∈ RuleText.texts first ↔ css ∈ RuleText.texts second) :
    let last := after { state := initial, nonce } first
    let last' := after { state := initial', nonce } second
    last.Alike last' ∧
      (∃ count, total (outcomes { state := initial, nonce } first) = .ok count ∧
        total (outcomes { state := initial', nonce } second) = .ok count) ∧
      ∀ rules : List String, (∀ rule ∈ rules, trimmed rule ∈ RuleText.texts first) →
        last.ensureInserted rules = (.ok 0, last) ∧ last'.ensureInserted rules = (.ok 0, last') := by
  intro last last'
  rw [List.forall_mem_append] at hcheck
  have hcheckFirst := fun rule hrule => RuleText.check_trimmed (hcheck.1 rule hrule)
  have hcheckSecond := fun rule hrule => RuleText.check_trimmed (hcheck.2 rule hrule)
  have hkeyFirst : ∀ rule ∈ first.flatten, ∀ other ∈ first.flatten,
      RuleText.key rule = RuleText.key other → trimmed rule = trimmed other :=
    fun rule hrule other hother =>
      hkey rule (List.mem_append_left _ hrule) other (List.mem_append_left _ hother)
  have hkeySecond : ∀ rule ∈ second.flatten, ∀ other ∈ second.flatten,
      RuleText.key rule = RuleText.key other → trimmed rule = trimmed other :=
    fun rule hrule other hother =>
      hkey rule (List.mem_append_right _ hrule) other (List.mem_append_right _ hother)
  obtain ⟨hrecords, hfilled⟩ := records_run h nonce first
  obtain ⟨hrecords', hfilled'⟩ := records_run h' nonce second
  -- both runs insert the texts with a new key, each once
  have hinserted : (RuleText.history initial.keys first).Perm
      (RuleText.history initial'.keys second) := by
    rw [List.perm_ext_iff_of_nodup hrecords.nodup hrecords'.nodup]
    intro css
    rw [mem_history_iff hcheckFirst hkeyFirst, mem_history_iff hcheckSecond hkeySecond, htexts,
      hknown]
  have hfresh := records_fresh h.points h.keys nonce
  have hfresh' := records_fresh h'.points h'.keys nonce
  refine ⟨?_, ?_, fun rules hrules => ⟨?_, ?_⟩⟩
  · have hnonce : last.nonce = last'.nonce :=
      (nonce_after hfresh first).trans (nonce_after hfresh' second).symm
    exact hrecords.alike hrecords' hfilled hfilled' hnonce
      ((List.perm_ext_iff_of_nodup h.keys h'.keys).mpr hknown) hinserted
  · refine ⟨_, total_outcomes_of_check hfresh hcheckFirst, ?_⟩
    rw [total_outcomes_of_check hfresh' hcheckSecond]
    exact congrArg Except.ok hinserted.length_eq.symm
  · exact ensureInserted_again hcheckFirst hkeyFirst h nonce hrules
  · exact ensureInserted_again hcheckSecond hkeySecond h' nonce
      fun rule hrule => (htexts _).mp (hrules rule hrule)

/-- Two callers ask for a red text, a rule for hovered elements with blanks around it, one for print and
one whose key the server has written; served one after the other, and the other way round in other
calls. -/
theorem order_independent_print :
    let served : InsertionState := ⟨["_1e0c1txw"], []⟩
    let red := "._syaz5scu\x7bcolor:red\x7d"
    let hover := " ._30l313q2:hover\x7bcolor:blue\x7d\n"
    let print := "@media print\x7b._1ttz13q2\x7bcolor:blue\x7d\x7d"
    let flex := "._1e0c1txw\x7bdisplay:flex\x7d"
    let first := [[red, hover], [print, flex, red]]
    let second := [[print], [], [flex, trimmed hover, hover], [red]]
    (∀ rule ∈ first.flatten ++ second.flatten, RuleText.check rule = .ok ()) ∧
      (after { state := served } first).Alike (after { state := served } second) ∧
      (after { state := served } second).ensureInserted [red, hover] =
        (.ok 0, after { state := served } second) := by
  intro served red hover print flex first second
  have hchecked : ∀ rule ∈ [red, hover, print, flex], RuleText.check rule = .ok () := by
    decide +kernel
  have hcheck : ∀ rule ∈ first.flatten ++ second.flatten, RuleText.check rule = .ok () := by
    simp only [List.forall_mem_cons] at hchecked
    obtain ⟨hred, hhover, hprint, hflex, -⟩ := hchecked
    simp [first, second, hred, hhover, hprint, hflex, RuleText.check_trimmed hhover]
  have hred : RuleText.keys (trimmed red) = .ok ["_syaz5scu"] :=
    @RuleText.keys_of_rule _ "._syaz5scu" "color:red" _ (by decide +kernel) (by decide +kernel)
      (by decide +kernel) (by decide +kernel)
  have hhover : RuleText.keys (trimmed hover) = .ok ["_30l313q2"] :=
    @RuleText.keys_of_rule _ "._30l313q2:hover" "color:blue" _ (by decide +kernel)
      (by decide +kernel) (by decide +kernel) (by decide +kernel)
  have hflex : RuleText.keys (trimmed flex) = .ok ["_1e0c1txw"] :=
    @RuleText.keys_of_rule _ "._1e0c1txw" "display:flex" _ (by decide +kernel) (by decide +kernel)
      (by decide +kernel) (by decide +kernel)
  have hprint : RuleText.keys (trimmed print) = .ok ["_1ttz13q2"] := by
    have hchars : (trimmed print).toList = RuleText.bracedChars "@media print".toList
        (RuleText.bracedChars "._1ttz13q2".toList "color:blue".toList) := by decide +kernel
    have hclass : RuleText.firstClass? "._1ttz13q2".toList = some "_1ttz13q2".toList := by
      decide +kernel
    rw [RuleText.keys_of_splitChars (by decide +kernel), hchars,
      RuleText.keysOf_atRule (by decide +kernel) (by decide +kernel) (by decide +kernel),
      RuleText.keysOf_rule (by decide +kernel) (by decide) hclass, String.ofList_toList]
  -- a key tells which of the four texts it is the key of
  have hlookup : ∀ rule ∈ first.flatten ++ second.flatten,
      [("_syaz5scu", trimmed red), ("_30l313q2", trimmed hover), ("_1ttz13q2", trimmed print),
        ("_1e0c1txw", trimmed flex)].lookup (RuleText.key rule) = some (trimmed rule) := by
    have hspaced : RuleText.key (trimmed hover) = "_30l313q2" :=
      (RuleText.key_trimmed hover).trans (RuleText.key_of_keys hhover)
    simp [first, second, List.lookup_cons, hspaced, RuleText.trimmed_trimmed,
      RuleText.key_of_keys hred, RuleText.key_of_keys hhover, RuleText.key_of_keys hprint,
      RuleText.key_of_keys hflex]
  have hkey : ∀ rule ∈ first.flatten ++ second.flatten, ∀ other ∈ first.flatten ++ second.flatten,
      RuleText.key rule = RuleText.key other → trimmed rule = trimmed other := by
    intro rule hrule other hother heq
    have hsame := hlookup rule hrule
    rw [heq, hlookup other hother] at hsame
    exact (Option.some.inj hsame).symm
  have htexts : ∀ css, css ∈ RuleText.texts first ↔ css ∈ RuleText.texts second := by
    intro css
    generalize hspaced : trimmed hover = spaced
    have hagain : trimmed spaced = spaced := hspaced ▸ RuleText.trimmed_trimmed hover
    simp only [RuleText.texts, first, second, List.flatten_cons, List.flatten_nil, List.map_append,
      List.map_cons, List.map_nil, List.mem_append, List.mem_cons, hspaced, hagain]
    generalize trimmed red = r, trimmed print = p, trimmed flex = f
    grind
  have hclean : served.Clean := ⟨rfl, by decide⟩
  obtain ⟨halike, -, hagain⟩ :=
    order_independent hclean hclean (fun _ => Iff.rfl) none hcheck hkey htexts
  exact ⟨hcheck, halike, (hagain [red, hover] (by simp [RuleText.texts, first])).2⟩

end Manager

end AtomicStyle

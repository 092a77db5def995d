import AtomicStyle.Proofs.Convergence
import AtomicStyle.Proofs.Scanning

/-!
# Malformed rules that are reported

A manager looks at the key of a text before it looks at the text itself, so a malformed text is
reported only where its key is new.  A run can also end earlier, at a text whose point the state
knows although the document has no element for it.

Results:
1. `insertRule_of_mem`, `insertRule_of_not_mem`: what one text does, in any state of a manager.
2. `lacks_withRule`: an insertion neither loses nor finds an element that is missing.
3. `reports_iff`: a run reports a malformed text iff it gets to one whose key is new.
4. `Records.not_lacks`: a manager with a history gets to every text before the first one that it
   reports.
-/

namespace AtomicStyle

open AtomicStyle.Text

/-! ## Elements that are missing -/

namespace Document

theorem appendTo?_eq_none_iff {point : InsertionPoint} {css : String}
    {elements : List StyleElement} :
    appendTo? point css elements = none ↔ point ∉ elements.map StyleElement.point := by
  induction elements with
  | nil => simp [appendTo?]
  | cons element rest ih =>
    rw [appendTo?, List.map_cons, List.mem_cons, not_or]
    by_cases heq : element.point = point
    · simp [heq]
    · rw [if_neg heq, Option.map_eq_none_iff, ih]
      exact (and_iff_right (Ne.symm heq)).symm

/-- A rule is added to an element that is there. -/
theorem map_point_of_appendTo? {point : InsertionPoint} {css : String}
    {elements changed : List StyleElement} (h : appendTo? point css elements = some changed) :
    changed.map StyleElement.point = elements.map StyleElement.point := by
  induction elements generalizing changed with
  | nil => cases h
  | cons element rest ih =>
    rw [appendTo?] at h
    split at h
    · obtain rfl := Option.some.inj h
      rfl
    · obtain ⟨others, hothers, rfl⟩ := Option.map_eq_some_iff.mp h
      rw [List.map_cons, List.map_cons, ih hothers]

theorem mem_points_create {document : Document} {point other : InsertionPoint} {position : Nat}
    {nonce : Option String} :
    other ∈ (document.create point position nonce).elements.map StyleElement.point ↔
      other = point ∨ other ∈ document.elements.map StyleElement.point := by
  have hsplit : document.elements.map StyleElement.point =
      (document.elements.take position).map StyleElement.point ++
        (document.elements.drop position).map StyleElement.point := by
    rw [← List.map_append, List.take_append_drop]
  rw [hsplit, create, List.map_append, List.map_cons, List.mem_append, List.mem_cons,
    List.mem_append]
  exact or_left_comm

end Document

namespace Manager

/-- The state knows a point, but the document has no element for it. -/
def Lacks (manager : Manager) (point : InsertionPoint) : Prop :=
  manager.state.hasPoint point = true ∧
    point ∉ manager.document.elements.map StyleElement.point

/-- Asking for a point finds or creates its element, unless the element is missing. -/
theorem mem_points_ensurePoint_iff (manager : Manager) (point : InsertionPoint) :
    point ∈ (manager.ensurePoint point).document.elements.map StyleElement.point ↔
      ¬ manager.Lacks point := by
  unfold ensurePoint Lacks
  split
  · next hpoint => simp [hpoint]
  · next hpoint => simp [hpoint, Document.mem_points_create]

theorem lacks_ensurePoint (manager : Manager) (point other : InsertionPoint) :
    (manager.ensurePoint point).Lacks other ↔ manager.Lacks other := by
  unfold ensurePoint
  split
  · rfl
  · next hpoint =>
    simp only [Lacks, InsertionState.hasPoint_addPoint, Document.mem_points_create,
      Bool.or_eq_true, beq_iff_eq, not_or]
    by_cases heq : other = point
    · simp [heq, hpoint]
    · simp [heq]

theorem keys_ensurePoint (manager : Manager) (point : InsertionPoint) :
    (manager.ensurePoint point).state.keys = manager.state.keys := by
  unfold ensurePoint
  split
  · rfl
  · next hpoint => rw [InsertionState.addPoint_of_not_hasPoint hpoint]

variable {manager : Manager}

theorem exists_appendTo? {css : String} (h : ¬ manager.Lacks (InsertionPoint.ofRule css)) :
    ∃ changed, Document.appendTo? (InsertionPoint.ofRule css) css
      (manager.ensurePoint (InsertionPoint.ofRule css)).document.elements = some changed := by
  rw [← Option.ne_none_iff_exists', Ne, Document.appendTo?_eq_none_iff, not_not]
  exact (mem_points_ensurePoint_iff manager _).mpr h

/-- An insertion neither loses nor finds an element that is missing. -/
theorem lacks_withRule {css : String} (h : ¬ manager.Lacks (InsertionPoint.ofRule css))
    (point : InsertionPoint) : (manager.withRule css).Lacks point ↔ manager.Lacks point := by
  obtain ⟨changed, hchanged⟩ := exists_appendTo? h
  have hstate : ∀ state : InsertionState,
      (state.record (RuleText.key css)).hasPoint point = state.hasPoint point := by
    intro state
    unfold InsertionState.record
    split <;> rfl
  rw [← lacks_ensurePoint manager (InsertionPoint.ofRule css), Lacks, Lacks, withRule, hchanged,
    hstate]
  simp only [Option.getD_some, Document.map_point_of_appendTo? hchanged]

theorem keys_withRule {rule : String} (h : RuleText.key rule ∉ manager.state.keys) :
    (manager.withRule (trimmed rule)).state.keys = manager.state.keys ++ [RuleText.key rule] := by
  have hready := keys_ensurePoint manager (InsertionPoint.ofRule (trimmed rule))
  rw [← RuleText.key_trimmed, ← hready] at h ⊢
  exact congrArg InsertionState.keys (InsertionState.record_of_not_mem h)

/-! ## One text -/

section Steps

variable {rule : String}

theorem insertRule_of_mem (h : RuleText.key rule ∈ manager.state.keys) :
    manager.insertRule rule = .ok (manager, false) := by
  rw [← RuleText.key_trimmed] at h
  exact if_pos (List.contains_iff_mem.mpr h)

/-- A text with a new key is checked before its element is looked for. -/
theorem insertRule_of_not_mem (h : RuleText.key rule ∉ manager.state.keys) :
    manager.insertRule rule = (RuleText.check (trimmed rule)).bind fun _ =>
      (Document.appendTo? (InsertionPoint.ofRule (trimmed rule)) (trimmed rule)
        (manager.ensurePoint (InsertionPoint.ofRule (trimmed rule))).document.elements).elim
        (.error (.missingPoint (InsertionPoint.ofRule (trimmed rule))))
        fun _ => .ok (manager.withRule (trimmed rule), true) := by
  rw [← RuleText.key_trimmed] at h
  have hif : manager.insertRule rule = _ := if_neg (mt List.contains_iff_mem.mp h)
  rw [hif]
  congr 1
  funext _
  show (Document.insert _ _ _ >>= _) = _
  rw [Document.insert, withRule]
  cases Document.appendTo? (InsertionPoint.ofRule (trimmed rule)) (trimmed rule)
      (manager.ensurePoint (InsertionPoint.ofRule (trimmed rule))).document.elements with
  | some changed => rfl
  | none => rfl

theorem insertRule_of_lacks (h : RuleText.key rule ∉ manager.state.keys)
    (hcheck : RuleText.check (trimmed rule) = .ok ())
    (hlacks : manager.Lacks (InsertionPoint.ofRule (trimmed rule))) :
    manager.insertRule rule = .error (.missingPoint (InsertionPoint.ofRule (trimmed rule))) := by
  have hnone : Document.appendTo? (InsertionPoint.ofRule (trimmed rule)) (trimmed rule)
      (manager.ensurePoint (InsertionPoint.ofRule (trimmed rule))).document.elements = none :=
    Document.appendTo?_eq_none_iff.mpr fun hmem => (mem_points_ensurePoint_iff manager _).mp hmem hlacks
  rw [insertRule_of_not_mem h, hcheck, hnone]
  rfl

theorem insertRule_of_not_lacks (h : RuleText.key rule ∉ manager.state.keys)
    (hcheck : RuleText.check (trimmed rule) = .ok ())
    (hlacks : ¬ manager.Lacks (InsertionPoint.ofRule (trimmed rule))) :
    manager.insertRule rule = .ok (manager.withRule (trimmed rule), true) := by
  obtain ⟨changed, hchanged⟩ := exists_appendTo? hlacks
  rw [insertRule_of_not_mem h, hcheck, hchanged]
  rfl

end Steps

end Manager

/-! ## Runs -/

/-- A text has a new key: one that is not known and that no earlier text has. -/
def RuleText.IsNew (known before : List String) (text : String) : Prop :=
  key text ∉ known ∧ ∀ other ∈ before, key other ≠ key text

namespace RuleText

variable {known before : List String} {first text : String}

theorem isNew_nil : IsNew known [] text ↔ key text ∉ known :=
  and_iff_left fun _ hother => absurd hother List.not_mem_nil

theorem isNew_cons : IsNew known (first :: before) text ↔ IsNew (known ++ [key first]) before text := by
  simp only [IsNew, List.forall_mem_cons, List.mem_append, List.mem_singleton, not_or, and_assoc,
    ne_comm]

/-- A text whose key is known takes no key from those after it. -/
theorem isNew_cons_of_mem (h : key first ∈ known) :
    IsNew known (first :: before) text ↔ IsNew known before text := by
  refine ⟨fun hnew => ⟨hnew.1, fun other hother => hnew.2 other (List.mem_cons_of_mem _ hother)⟩,
    fun hnew => ⟨hnew.1, List.forall_mem_cons.mpr ⟨?_, hnew.2⟩⟩⟩
  exact fun heq => hnew.1 (heq ▸ h)

end RuleText

namespace Manager

/-- A run ends with the report of a malformed text. -/
def Reports (manager : Manager) (texts : List String) : Prop :=
  ∃ text reason, (manager.ensureInserted texts).1 = .error (.malformedRule text reason)

/-- A run gets past the given texts, unless one of them is reported: no text with a new key lacks the
element of its point. -/
def Passes (manager : Manager) (texts : List String) : Prop :=
  ∀ before text after, texts = before ++ text :: after →
    RuleText.IsNew manager.state.keys before text →
      ¬ manager.Lacks (InsertionPoint.ofRule (trimmed text))

section Runs

variable {manager : Manager} {rule : String}

theorem not_reports_nil : ¬ manager.Reports [] := by
  rintro ⟨text, reason, h⟩
  cases h

/-- Where the first text is no obstacle, the rest of the run decides. -/
theorem reports_cons_of_ok {next : Manager} {inserted : Bool}
    (h : manager.insertRule rule = .ok (next, inserted)) (rest : List String) :
    manager.Reports (rule :: rest) ↔ next.Reports rest := by
  have hrun : (manager.ensureInserted (rule :: rest)).1 =
      (next.ensureInserted rest).1.map (· + if inserted then 1 else 0) := by
    rw [ensureInserted, h]
  unfold Reports
  rw [hrun]
  cases (next.ensureInserted rest).1 <;> simp [Except.map]

theorem reports_cons_of_error {fault : SheetFault} (h : manager.insertRule rule = .error fault)
    (rest : List String) :
    manager.Reports (rule :: rest) ↔ ∃ text reason, fault = .malformedRule text reason := by
  unfold Reports
  rw [ensureInserted, h]
  simp only [Except.error.injEq]

theorem passes_nil : manager.Passes [] := by
  intro before text after h
  simp at h

theorem passes_cons_of_mem (h : RuleText.key rule ∈ manager.state.keys) {texts : List String} :
    manager.Passes (rule :: texts) ↔ manager.Passes texts := by
  constructor
  · rintro hpasses before text after rfl hnew
    exact hpasses (rule :: before) text after rfl ((RuleText.isNew_cons_of_mem h).mpr hnew)
  · intro hpasses before text after heq hnew
    cases before with
    | nil =>
      obtain ⟨rfl, -⟩ := List.cons.inj heq
      exact absurd h (RuleText.isNew_nil.mp hnew)
    | cons other before =>
      obtain ⟨rfl, rfl⟩ := List.cons.inj heq
      exact hpasses before text after rfl ((RuleText.isNew_cons_of_mem h).mp hnew)

/-- A text that is inserted changes neither which keys are new after it nor which elements are
missing. -/
theorem passes_cons_of_not_lacks (h : RuleText.key rule ∉ manager.state.keys)
    (hlacks : ¬ manager.Lacks (InsertionPoint.ofRule (trimmed rule))) {texts : List String} :
    manager.Passes (rule :: texts) ↔ (manager.withRule (trimmed rule)).Passes texts := by
  constructor
  · rintro hpasses before text after rfl hnew
    rw [keys_withRule h, ← RuleText.isNew_cons] at hnew
    rw [lacks_withRule hlacks]
    exact hpasses (rule :: before) text after rfl hnew
  · intro hpasses before text after heq hnew
    cases before with
    | nil =>
      obtain ⟨rfl, -⟩ := List.cons.inj heq
      exact hlacks
    | cons other before =>
      obtain ⟨rfl, rfl⟩ := List.cons.inj heq
      rw [← lacks_withRule hlacks]
      rw [RuleText.isNew_cons, ← keys_withRule h] at hnew
      exact hpasses before text after rfl hnew

end Runs

/-- What holds somewhere in a list holds at its head or further on. -/
theorem exists_split_cons {α : Type} {p : List α → α → Prop} {first : α} {rest : List α} :
    (∃ before item after, first :: rest = before ++ item :: after ∧ p before item) ↔
      p [] first ∨ ∃ before item after, rest = before ++ item :: after ∧ p (first :: before) item := by
  constructor
  · rintro ⟨before, item, after, heq, h⟩
    cases before with
    | nil =>
      obtain ⟨rfl, -⟩ := List.cons.inj heq
      exact .inl h
    | cons other before =>
      obtain ⟨rfl, rfl⟩ := List.cons.inj heq
      exact .inr ⟨before, item, after, rfl, h⟩
  · rintro (h | ⟨before, item, after, rfl, h⟩)
    · exact ⟨[], first, rest, rfl, h⟩
    · exact ⟨first :: before, item, after, rfl, h⟩

/-- A run reports a malformed text iff it gets to one whose key is new. -/
theorem reports_iff (manager : Manager) (texts : List String) :
    manager.Reports texts ↔
      ∃ before text after, texts = before ++ text :: after ∧ manager.Passes before ∧
        RuleText.IsNew manager.state.keys before text ∧ RuleText.check (trimmed text) ≠ .ok () := by
  induction texts generalizing manager with
  | nil => simp [not_reports_nil]
  | cons rule rest ih =>
    rw [exists_split_cons, RuleText.isNew_nil, and_iff_right passes_nil]
    by_cases hkey : RuleText.key rule ∈ manager.state.keys
    · rw [reports_cons_of_ok (insertRule_of_mem hkey), ih]
      simp only [passes_cons_of_mem hkey, RuleText.isNew_cons_of_mem hkey, hkey, not_true_eq_false,
        false_and, false_or]
    · cases hcheck : RuleText.check (trimmed rule) with
      | error fault =>
        have hinsert : manager.insertRule rule = .error fault := by
          rw [insertRule_of_not_mem hkey, hcheck]
          rfl
        rw [reports_cons_of_error hinsert]
        exact iff_of_true (RuleText.exists_of_check_error hcheck) (.inl ⟨hkey, by simp⟩)
      | ok _ =>
        simp only [ne_eq, not_true_eq_false, and_false, false_or]
        by_cases hlacks : manager.Lacks (InsertionPoint.ofRule (trimmed rule))
        · rw [reports_cons_of_error (insertRule_of_lacks hkey hcheck hlacks)]
          refine iff_of_false (by simp) ?_
          rintro ⟨before, text, after, -, hpasses, -⟩
          exact hpasses [] rule before rfl (RuleText.isNew_nil.mpr hkey) hlacks
        · rw [reports_cons_of_ok (insertRule_of_not_lacks hkey hcheck hlacks), ih]
          simp only [passes_cons_of_not_lacks hkey hlacks, RuleText.isNew_cons, keys_withRule hkey,
            ne_eq]

/-- A manager with a history lacks nothing. -/
theorem Records.not_lacks {manager : Manager} {known inserted : List String}
    (h : manager.Records known inserted) (point : InsertionPoint) : ¬ manager.Lacks point := by
  rintro ⟨hpoint, hmissing⟩
  rw [h.elements, List.map_map] at hmissing
  refine hmissing (List.mem_map.mpr ⟨point, List.contains_iff_mem.mp hpoint, rfl⟩)

/-- A run reports a malformed text iff it gets to one whose key is new.  On a document that was empty
at the start, it gets to every text before the first one that it reports. -/
theorem malformed_reported_iff (manager : Manager) (texts : List String) :
    (manager.Reports texts ↔
      ∃ before text after, texts = before ++ text :: after ∧ manager.Passes before ∧
        RuleText.IsNew manager.state.keys before text ∧
        RuleText.check (trimmed text) ≠ .ok ()) ∧
    ∀ (initial : InsertionState) (nonce : Option String) (calls : List (List String)),
      initial.Initial → manager = after { state := initial, nonce } calls →
        (manager.Reports texts ↔
          ∃ before text after, texts = before ++ text :: after ∧
            RuleText.IsNew manager.state.keys before text ∧
            RuleText.check (trimmed text) ≠ .ok ()) := by
  refine ⟨reports_iff manager texts, ?_⟩
  rintro initial nonce calls h rfl
  have hrecords := records_after (records_fresh h.clean.points h.clean.keys nonce) calls
  have hpasses : ∀ before, (after { state := initial, nonce } calls).Passes before :=
    fun _ _ text _ _ _ => hrecords.not_lacks (InsertionPoint.ofRule (trimmed text))
  rw [reports_iff]
  simp only [hpasses, true_and]

/-! ## Texts that are not reported -/

/-- The two texts of the examples: a rule, and the rule with another one behind it. -/
def redRule : String := "._a\x7bcolor:red\x7d"

def redAndBlue : String := "._a\x7bcolor:red\x7d._b\x7bcolor:blue\x7d"

theorem key_redRule : RuleText.key redRule = "_a" := by
  have hsplit : RuleText.splitChars redRule.toList =
      .ok [RuleText.bracedChars "._a".toList "color:red".toList] := by decide +kernel
  have hkeys : RuleText.keys redRule = .ok ["_a"] :=
    RuleText.keys_of_rule hsplit (by decide +kernel) (by decide) (by decide)
  exact RuleText.key_of_keys (by rw [show trimmed redRule = redRule by decide +kernel, hkeys])

theorem key_redAndBlue : RuleText.key redAndBlue = "_a" := by
  have hsplit : RuleText.splitChars redAndBlue.toList =
      .ok [RuleText.bracedChars "._a".toList "color:red".toList,
        RuleText.bracedChars "._b".toList "color:blue".toList] := by decide +kernel
  have hkeys : RuleText.keys redAndBlue = .ok ["_a", "_b"] := by
    rw [RuleText.keys_eq_keysOf hsplit, RuleText.keysOf_cons,
      RuleText.keysOf_bracedChars (by decide) (by decide),
      RuleText.keysOf_bracedChars (by decide) (by decide)]
    decide
  exact RuleText.key_of_keys (by rw [show trimmed redAndBlue = redAndBlue by decide +kernel, hkeys])

theorem keys_after_redRule : (after {} [[redRule]]).state.keys = ["_a"] := by
  have hkey : RuleText.key redRule ∉ ({} : Manager).state.keys := List.not_mem_nil
  have hlacks : ¬ ({} : Manager).Lacks (InsertionPoint.ofRule (trimmed redRule)) :=
    (records_empty none).not_lacks _
  have hinsert := insertRule_of_not_lacks hkey (by decide +kernel) hlacks
  have hlast : after {} [[redRule]] = ({} : Manager).withRule (trimmed redRule) := by
    show (ensureInserted _ [redRule]).2 = _
    rw [ensureInserted, hinsert]
    rfl
  rw [hlast, keys_withRule hkey, key_redRule]
  rfl

/-- The second text is passed over, the third one is reported. -/
theorem malformed_reported_iff_third :
    InsertionState.empty.Initial ∧ RuleText.check (trimmed "color:red") ≠ .ok () ∧
      (after {} [[redRule]]).Reports [redAndBlue, "color:red"] := by
  have hcheck : RuleText.check (trimmed "color:red") ≠ .ok () := by decide +kernel
  have hkey : RuleText.key "color:red" = "color:red" := by decide +kernel
  refine ⟨.empty, hcheck, ?_⟩
  refine ((malformed_reported_iff _ _).2 .empty none [[redRule]] .empty rfl).mpr
    ⟨[redAndBlue], "color:red", [], rfl, ⟨?_, ?_⟩, hcheck⟩
  · rw [keys_after_redRule, hkey]
    decide
  · intro other hother
    rw [List.mem_singleton.mp hother, key_redAndBlue, hkey]
    decide

/-- A text of two rules is malformed, but where the class of the first one is known it is passed over,
and the second rule with it. -/
theorem known_class_not_reported :
    RuleText.check (trimmed redAndBlue) = .error (.malformedRule redAndBlue .notOneRule) ∧
      ((after {} [[redRule]]).ensureInserted [redAndBlue]).1 = .ok 0 ∧
      ¬ ∀ (manager : Manager) (texts : List String),
        manager.Reports texts ↔ ∃ text ∈ texts, RuleText.check (trimmed text) ≠ .ok () := by
  have hcheck : RuleText.check (trimmed redAndBlue) =
      .error (.malformedRule redAndBlue .notOneRule) := by decide +kernel
  have hkey : RuleText.key redAndBlue ∈ (after {} [[redRule]]).state.keys := by
    rw [keys_after_redRule, key_redAndBlue]
    decide
  have hrun : ((after {} [[redRule]]).ensureInserted [redAndBlue]).1 = .ok 0 := by
    rw [ensureInserted, insertRule_of_mem hkey]
    rfl
  refine ⟨hcheck, hrun, fun hclaim => ?_⟩
  have hmalformed : RuleText.check (trimmed redAndBlue) ≠ .ok () := by
    rw [hcheck]
    simp
  obtain ⟨text, reason, hreport⟩ :=
    (hclaim (after {} [[redRule]]) [redAndBlue]).mpr ⟨redAndBlue, by simp, hmalformed⟩
  rw [hrun] at hreport
  cases hreport

end Manager

end AtomicStyle

import AtomicStyle.Proofs.Insertion
import AtomicStyle.Proofs.RuleKeys

/-!
# The history of a document

What a manager inserts, and in which order, is decided by the keys that it knows at the start and by
the texts of its calls (`RuleText.history`).  A call that fails is part of the history up to the rule
that it fails on.

Results:
1. `InsertionState.Initial.clean`: a state starts without points, and knows no key twice.
2. `Manager.records_after`: a run of calls inserts its history.
3. `Manager.consistent_after`: what holds of document and state after any run of calls, and what the
   next call does.
-/

namespace AtomicStyle

open AtomicStyle.Text

/-! ## Initial states -/

namespace InsertionState

/-- A state that no rule was inserted into: an empty one, or one that takes over what a server has
written. -/
inductive Initial : InsertionState → Prop where
  | empty : Initial empty
  | classNames (names : List String) : Initial (ofClassNames names)
  | css {text : String} {state : InsertionState} (h : ofCss text = .ok state) : Initial state
  | html {page : String} {state : InsertionState} (h : ofHtml page = .ok state) : Initial state

/-- A state without points that knows no key twice. -/
structure Clean (state : InsertionState) : Prop where
  points : state.points = []
  keys : state.keys.Nodup

theorem clean_empty : Clean empty :=
  ⟨rfl, List.nodup_nil⟩

theorem clean_record {state : InsertionState} (h : state.Clean) (key : String) :
    (state.record key).Clean := by
  by_cases hkey : key ∈ state.keys
  · have hsame : state.record key = state := if_pos (List.contains_iff_mem.mpr hkey)
    rw [hsame]
    exact h
  · rw [record_of_not_mem hkey]
    exact ⟨h.points, List.nodup_append.mpr ⟨h.keys, List.nodup_singleton key, by grind⟩⟩

theorem clean_recordAll {state : InsertionState} (h : state.Clean) (keys : List String) :
    (state.recordAll keys).Clean := by
  unfold recordAll
  induction keys generalizing state with
  | nil => exact h
  | cons key rest ih => exact ih (clean_record h key)

theorem clean_ofHtml {page : String} {state : InsertionState} (h : ofHtml page = .ok state) :
    state.Clean := by
  unfold ofHtml at h
  suffices hall : ∀ (contents : List String) (start : InsertionState), start.Clean →
      contents.foldlM (fun state css => (RuleText.keys css).map state.recordAll) start = .ok state →
      state.Clean from hall _ _ clean_empty h
  intro contents
  induction contents with
  | nil =>
    rintro start hstart hrun
    rw [← Except.ok.inj hrun]
    exact hstart
  | cons css rest ih =>
    intro start hstart hrun
    rw [List.foldlM_cons] at hrun
    cases hkeys : RuleText.keys css with
    | error fault =>
      rw [hkeys] at hrun
      cases hrun
    | ok keys =>
      rw [hkeys] at hrun
      exact ih _ (clean_recordAll hstart keys) hrun

theorem Initial.clean {state : InsertionState} (h : state.Initial) : state.Clean := by
  cases h with
  | empty => exact clean_empty
  | classNames names => exact clean_recordAll clean_empty names
  | @css text _ h =>
    unfold ofCss at h
    cases hkeys : RuleText.keys text with
    | error fault =>
      rw [hkeys] at h
      cases h
    | ok keys =>
      rw [hkeys] at h
      rw [← Except.ok.inj h]
      exact clean_recordAll clean_empty keys
  | html h => exact clean_ofHtml h

end InsertionState

/-! ## Runs of calls -/

/-- What a run of calls inserts, in order, where some keys are known. -/
def RuleText.history (known : List String) : List (List String) → List String
  | [] => []
  | rules :: calls =>
    newRules known rules ++ history (known ++ (newRules known rules).map key) calls

namespace Manager

/-- The manager after some calls, which may have failed. -/
def after (manager : Manager) (calls : List (List String)) : Manager :=
  calls.foldl (fun manager rules => (manager.ensureInserted rules).2) manager

/-- A run of calls inserts its history. -/
theorem records_after {manager : Manager} {known inserted : List String}
    (h : manager.Records known inserted) (calls : List (List String)) :
    (manager.after calls).Records known
      (inserted ++ RuleText.history manager.state.keys calls) := by
  unfold after
  induction calls generalizing manager inserted with
  | nil =>
    rw [RuleText.history, List.append_nil]
    exact h
  | cons rules calls ih =>
    obtain ⟨hnext, -⟩ := records_ensureInserted h rules
    have hkeys : (manager.ensureInserted rules).2.state.keys =
        manager.state.keys ++ (RuleText.newRules manager.state.keys rules).map RuleText.key := by
      rw [hnext.keys, h.keys, List.map_append, List.append_assoc]
    have hlast := ih hnext
    rw [hkeys, List.append_assoc] at hlast
    exact hlast

/-- What holds of document and state at any time. -/
structure Consistent (manager : Manager) (initial : InsertionState) : Prop where
  /-- The style elements ascend. -/
  ascending : manager.document.elements.Pairwise fun a b => a.point.rank < b.point.rank
  /-- The points of the elements are those of the state. -/
  points : manager.document.elements.map StyleElement.point = manager.state.points
  /-- Every rule stands in the element of its point. -/
  placed : ∀ element ∈ manager.document.elements, ∀ css ∈ element.rules,
    InsertionPoint.ofRule css = element.point
  /-- No two rules of the document have one key. -/
  distinct : (manager.document.rules.map RuleText.key).Nodup
  /-- The keys are the initial ones and those of the document, each once. -/
  keys : manager.state.keys.Perm (initial.keys ++ manager.document.rules.map RuleText.key)
  nodup : manager.state.keys.Nodup

theorem Records.consistent {manager : Manager} {initial : InsertionState} {inserted : List String}
    (h : manager.Records initial.keys inserted) : manager.Consistent initial := by
  have hperm := (h.rules_perm.map RuleText.key).append_left initial.keys
  rw [← h.keys] at hperm
  refine ⟨?_, ?_, ?_, ?_, hperm.symm, h.distinct⟩
  · rw [h.elements, List.pairwise_map]
    exact h.ascends
  · rw [h.elements, List.map_map]
    exact List.map_id' _
  · rw [h.elements]
    intro element helement css hcss
    obtain ⟨point, -, rfl⟩ := List.mem_map.mp helement
    exact of_decide_eq_true (List.mem_filter.mp hcss).2
  · exact (List.nodup_append.mp (hperm.nodup_iff.mpr h.distinct)).2.1

end Manager

/-! ## Calls -/

theorem RuleText.exists_of_check_error {css : String} {fault : SheetFault}
    (h : check css = .error fault) : ∃ text reason, fault = .malformedRule text reason := by
  unfold check at h
  simp only at h
  split at h
  · exact ⟨_, _, (Except.error.inj h).symm⟩
  · unfold split at h
    split at h
    · change (if _ then _ else _) = _ at h
      split at h
      · cases h
      · exact ⟨_, _, (Except.error.inj h).symm⟩
    · exact ⟨_, _, (Except.error.inj h).symm⟩

namespace Manager

/-- What the outcome of a call says about the document. -/
structure Accounts (manager : Manager) (rules : List String) : Prop where
  /-- A number is the number of rules that have come. -/
  growth : ∀ count last, manager.ensureInserted rules = (.ok count, last) →
    last.document.rules.length = manager.document.rules.length + count
  /-- A fault is that of a new rule, and the rules before this one were inserted. -/
  failure : ∀ fault last, manager.ensureInserted rules = (.error fault, last) →
    ∃ before rule after count, rules = before ++ rule :: after ∧
      manager.ensureInserted before = (.ok count, last) ∧
      RuleText.key (trimmed rule) ∉ last.state.keys ∧
      RuleText.check (trimmed rule) = .error fault
  /-- No element is missing. -/
  found : ∀ point, (manager.ensureInserted rules).1 ≠ .error (.missingPoint point)

theorem Records.accounts {manager : Manager} {known inserted : List String}
    (h : manager.Records known inserted) (rules : List String) : manager.Accounts rules := by
  obtain ⟨hlast, hcount⟩ := records_ensureInserted h rules
  refine ⟨?_, fun fault last => exists_of_ensureInserted_error h, ?_⟩
  · intro count last hrun
    rw [hrun] at hlast hcount
    rw [hlast.rules_perm.length_eq, h.rules_perm.length_eq, List.length_append, hcount count rfl]
  · intro point hmissing
    obtain ⟨_, _, _, _, -, -, -, hcheck⟩ :=
      exists_of_ensureInserted_error h (Prod.ext hmissing rfl)
    obtain ⟨text, reason, hfault⟩ := RuleText.exists_of_check_error hcheck
    cases hfault

/-- On a document that was empty at the start, document and state agree after any run of calls, some
of which may have failed, and the outcome of the next call says what it has done. -/
theorem consistent_after {initial : InsertionState} (h : initial.Initial) (nonce : Option String)
    (calls : List (List String)) :
    (after { state := initial, nonce } calls).Consistent initial ∧
      ∀ rules, (after { state := initial, nonce } calls).Accounts rules := by
  have hrecords := records_after (records_fresh h.clean.points h.clean.keys nonce) calls
  exact ⟨hrecords.consistent, hrecords.accounts⟩

/-- The page of a server is taken over, and a call fails on its third rule. -/
theorem consistent_after_served :
    let served : InsertionState := ⟨["_1e0c1txw"], []⟩
    let call := ["._30l313q2:hover\x7bcolor:blue\x7d", "._syaz5scu\x7bcolor:red\x7d", "color:red"]
    InsertionState.ofHtml "<style data-cmpld=\"c\">._1e0c1txw\x7bdisplay:flex\x7d</style>" =
        .ok served ∧
      RuleText.check "color:red" = .error (.malformedRule "color:red" .trailingText) ∧
      (after { state := served } [call]).Consistent served ∧
      ∀ rules, (after { state := served } [call]).Accounts rules := by
  intro served call
  have hcontents : Markup.styleContents
      "<style data-cmpld=\"c\">._1e0c1txw\x7bdisplay:flex\x7d</style>" =
        ["._1e0c1txw\x7bdisplay:flex\x7d"] := by decide +kernel
  have hkeys : RuleText.keys "._1e0c1txw\x7bdisplay:flex\x7d" = .ok ["_1e0c1txw"] := by
    have hchars : "._1e0c1txw\x7bdisplay:flex\x7d".toList =
        RuleText.bracedChars "._1e0c1txw".toList "display:flex".toList := by decide +kernel
    have hclass : RuleText.firstClass? "._1e0c1txw".toList = some "_1e0c1txw".toList := by
      decide +kernel
    rw [RuleText.keys_of_splitChars (by decide +kernel), hchars,
      RuleText.keysOf_rule (by decide +kernel) (by decide) hclass, String.ofList_toList]
  have hpage : InsertionState.ofHtml
      "<style data-cmpld=\"c\">._1e0c1txw\x7bdisplay:flex\x7d</style>" = .ok served := by
    rw [InsertionState.ofHtml, hcontents, List.foldlM_cons, hkeys]
    rfl
  exact ⟨hpage, by decide +kernel, consistent_after (.html hpage) none [call]⟩

end Manager

end AtomicStyle

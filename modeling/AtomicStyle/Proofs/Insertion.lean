import AtomicStyle.Live.Manager
import AtomicStyle.Proofs.Distinct

/-!
# Insertion into a document

A document is what was inserted into it, sorted by point: its style elements ascend, and each one
holds the rules of its point in the order of their insertion (`Manager.Records`).

Results:
1. `ascends_addPoint`: points that ascend do so after one more was added.
2. `insertRule_eq`, `records_withRule`: what one insertion does.
3. `records_ensureInserted`: a run inserts the rules that are new (`RuleText.newRules`).
4. `ensureInserted_fresh`, `insertsAll_iff`: what a run over well-formed rules inserts, and when it
   inserts all of them.
-/

namespace AtomicStyle

open AtomicStyle.Text

/-! ## The order of points -/

theorem Bucket.rank_lt (bucket : Bucket) : bucket.rank < 8 := by
  cases bucket <;> decide

theorem InsertionPoint.rank_inj {a b : InsertionPoint} : a.rank = b.rank ↔ a = b := by
  obtain ⟨inAtRule, bucket⟩ := a
  obtain ⟨inAtRule', bucket'⟩ := b
  have h := bucket.rank_lt
  have h' := bucket'.rank_lt
  rw [InsertionPoint.mk.injEq, ← Bucket.rank_inj]
  cases inAtRule <;> cases inAtRule' <;> simp [rank] <;> omega

/-- Where a property holds of a first part of a list only, the list is what has it and then what has
it not. -/
theorem filter_append_filter_not {α : Type} {p : α → Bool} {items : List α}
    (h : items.Pairwise fun a b => p b = true → p a = true) :
    items.filter p ++ items.filter (fun item => !p item) = items := by
  induction items with
  | nil => rfl
  | cons item rest ih =>
    obtain ⟨hitem, hrest⟩ := List.pairwise_cons.mp h
    cases hp : p item with
    | true =>
      rw [List.filter_cons_of_pos hp, List.filter_cons_of_neg (by simp [hp]), List.cons_append,
        ih hrest]
    | false =>
      -- nothing after the item has the property
      have hnone : ∀ other ∈ item :: rest, p other = false := by
        intro other hother
        rcases List.mem_cons.mp hother with rfl | hother
        · exact hp
        · rw [Bool.eq_false_iff]
          intro hother'
          rw [hitem other hother hother'] at hp
          cases hp
      have hfirst : (item :: rest).filter p = [] :=
        List.filter_eq_nil_iff.mpr fun other hother => by simp [hnone other hother]
      have hsecond : (item :: rest).filter (fun item => !p item) = item :: rest :=
        List.filter_eq_self.mpr fun other hother => by simp [hnone other hother]
      rw [hfirst, hsecond, List.nil_append]

namespace InsertionState

/-- Points in ascending order. -/
def Ascends (points : List InsertionPoint) : Prop :=
  points.Pairwise fun a b => a.rank < b.rank

theorem Ascends.nodup {points : List InsertionPoint} (h : Ascends points) : points.Nodup := by
  refine h.imp fun hlt heq => ?_
  rw [heq] at hlt
  exact Nat.lt_irrefl _ hlt

/-- A point that is not known yet is added at its position. -/
theorem addPoint_of_not_hasPoint {state : InsertionState} {point : InsertionPoint}
    (h : ¬ state.hasPoint point = true) :
    state.addPoint point = { state with
      points := state.points.take (state.position point) ++
        point :: state.points.drop (state.position point) } :=
  if_neg h

theorem record_of_not_mem {state : InsertionState} {key : String} (h : key ∉ state.keys) :
    state.record key = { state with keys := state.keys ++ [key] } :=
  if_neg fun hcontains => h (List.contains_iff_mem.mp hcontains)

/-- The points before the position of a point are the lower ones. -/
theorem take_drop_position {state : InsertionState} (h : Ascends state.points)
    (point : InsertionPoint) :
    state.points.take (state.position point) = state.points.filter (·.rank < point.rank) ∧
      state.points.drop (state.position point) =
        state.points.filter (fun other => !decide (other.rank < point.rank)) := by
  have hsplit := filter_append_filter_not (p := fun other => decide (other.rank < point.rank))
    (h.imp fun hlt hb => by
      rw [decide_eq_true_eq] at hb ⊢
      exact Nat.lt_trans hlt hb)
  have hcount : (state.points.filter (·.rank < point.rank)).length = state.position point :=
    List.countP_eq_length_filter.symm
  constructor
  · conv => lhs; rw [← hsplit]
    exact List.take_left' hcount
  · conv => lhs; rw [← hsplit]
    exact List.drop_left' hcount

/-- Points that ascend do so after one more was added. -/
theorem ascends_addPoint {state : InsertionState} (h : Ascends state.points)
    {point : InsertionPoint} (hnew : ¬ state.hasPoint point = true) :
    Ascends (state.addPoint point).points := by
  have hne : ∀ other ∈ state.points, other.rank ≠ point.rank := by
    intro other hother heq
    rw [InsertionPoint.rank_inj] at heq
    rw [heq] at hother
    exact hnew (List.contains_iff_mem.mpr hother)
  obtain ⟨htake, hdrop⟩ := take_drop_position h point
  rw [addPoint_of_not_hasPoint hnew, Ascends, htake, hdrop, List.pairwise_append,
    List.pairwise_cons]
  refine ⟨h.sublist List.filter_sublist, ⟨?_, h.sublist List.filter_sublist⟩, ?_⟩
  · intro other hother
    obtain ⟨hmem, hge⟩ := List.mem_filter.mp hother
    have := hne other hmem
    simp only [Bool.not_eq_true', decide_eq_false_iff_not] at hge
    omega
  · intro lower hlower other hother
    have hlt : lower.rank < point.rank := by simpa using (List.mem_filter.mp hlower).2
    rcases List.mem_cons.mp hother with rfl | hother
    · exact hlt
    · have hge := (List.mem_filter.mp hother).2
      simp only [Bool.not_eq_true', decide_eq_false_iff_not] at hge
      omega

end InsertionState

/-! ## What a document holds -/

/-- The style element of a point after some insertions. -/
def StyleElement.holding (nonce : Option String) (inserted : List String)
    (point : InsertionPoint) : StyleElement :=
  ⟨point, nonce, inserted.filter (InsertionPoint.ofRule · = point)⟩

theorem StyleElement.holding_append (nonce : Option String) (inserted : List String) (css : String)
    (point : InsertionPoint) :
    holding nonce (inserted ++ [css]) point =
      if point = InsertionPoint.ofRule css then (holding nonce inserted point).append css
      else holding nonce inserted point := by
  rw [holding, List.filter_append]
  by_cases hpoint : point = InsertionPoint.ofRule css
  · rw [if_pos hpoint, List.filter_cons_of_pos (by simp [hpoint])]
    rfl
  · rw [if_neg hpoint, List.filter_cons_of_neg (by simpa using Ne.symm hpoint), List.filter_nil,
      List.append_nil]
    rfl

/-- A rule is appended to the element of its point, and nothing else changes. -/
theorem Document.appendTo?_holding (nonce : Option String) (inserted : List String) {css : String}
    {points : List InsertionPoint} (hnodup : points.Nodup)
    (hpoint : InsertionPoint.ofRule css ∈ points) :
    appendTo? (InsertionPoint.ofRule css) css (points.map (StyleElement.holding nonce inserted)) =
      some (points.map (StyleElement.holding nonce (inserted ++ [css]))) := by
  induction points with
  | nil => exact absurd hpoint List.not_mem_nil
  | cons point rest ih =>
    obtain ⟨hnot, hrest⟩ := List.nodup_cons.mp hnodup
    rw [List.map_cons, List.map_cons, appendTo?, StyleElement.holding_append]
    by_cases heq : point = InsertionPoint.ofRule css
    · have hsame : rest.map (StyleElement.holding nonce (inserted ++ [css])) =
          rest.map (StyleElement.holding nonce inserted) := by
        refine List.map_congr_left fun other hother => ?_
        rw [StyleElement.holding_append, if_neg]
        rintro rfl
        exact hnot (heq ▸ hother)
      rw [if_pos heq, hsame]
      exact if_pos heq
    · rw [if_neg heq, ih hrest ((List.mem_cons.mp hpoint).resolve_left (Ne.symm heq))]
      exact if_neg heq

/-- A manager that knew some keys at the start and has inserted some rules since. -/
structure Manager.Records (manager : Manager) (known inserted : List String) : Prop where
  ascends : InsertionState.Ascends manager.state.points
  placed : ∀ css ∈ inserted, InsertionPoint.ofRule css ∈ manager.state.points
  elements : manager.document.elements =
    manager.state.points.map (StyleElement.holding manager.nonce inserted)
  keys : manager.state.keys = known ++ inserted.map RuleText.key
  distinct : manager.state.keys.Nodup

namespace Manager

theorem records_fresh {state : InsertionState} (hpoints : state.points = [])
    (hkeys : state.keys.Nodup) (nonce : Option String) :
    ({ state, nonce } : Manager).Records state.keys [] where
  ascends := by
    rw [hpoints]
    exact List.Pairwise.nil
  placed := fun _ hcss => absurd hcss List.not_mem_nil
  elements := by
    rw [hpoints]
    rfl
  keys := (List.append_nil _).symm
  distinct := hkeys

theorem records_empty (nonce : Option String) : ({ nonce } : Manager).Records [] [] :=
  records_fresh rfl List.nodup_nil nonce

section Steps

variable {manager : Manager} {known inserted : List String}

/-- The rules of a document are those that were inserted. -/
theorem Records.rules_perm (h : manager.Records known inserted) :
    manager.document.rules.Perm inserted := by
  rw [Document.rules, h.elements, List.flatMap_map]
  exact perm_flatMap_filter h.ascends.nodup h.placed

theorem Records.nodup (h : manager.Records known inserted) : inserted.Nodup := by
  have hkeys := h.distinct
  rw [h.keys] at hkeys
  exact ((List.nodup_append.mp hkeys).2.1).of_map RuleText.key

/-- Asking for a point only adds its element. -/
theorem records_ensurePoint (h : manager.Records known inserted) (point : InsertionPoint) :
    (manager.ensurePoint point).Records known inserted ∧
      point ∈ (manager.ensurePoint point).state.points := by
  unfold ensurePoint
  split
  · next hpoint => exact ⟨h, List.contains_iff_mem.mp hpoint⟩
  · next hpoint =>
    have hascends := InsertionState.ascends_addPoint h.ascends hpoint
    rw [InsertionState.addPoint_of_not_hasPoint hpoint] at hascends ⊢
    -- no rule of a new point was inserted before
    have hempty : inserted.filter (InsertionPoint.ofRule · = point) = [] := by
      refine List.filter_eq_nil_iff.mpr fun css hcss heq => ?_
      rw [decide_eq_true_eq] at heq
      exact hpoint (List.contains_iff_mem.mpr (heq ▸ h.placed css hcss))
    refine ⟨⟨hascends, fun css hcss => ?_, ?_, h.keys, h.distinct⟩, ?_⟩
    · have hmem := h.placed css hcss
      rw [← List.take_append_drop (manager.state.position point) manager.state.points] at hmem
      rcases List.mem_append.mp hmem with hmem | hmem
      · exact List.mem_append_left _ hmem
      · exact List.mem_append_right _ (List.mem_cons_of_mem _ hmem)
    · rw [Document.create, h.elements, List.map_append, List.map_cons, List.map_take, List.map_drop,
        StyleElement.holding, hempty]
    · exact List.mem_append_right _ List.mem_cons_self

/-- The manager with a rule in the element of its point and the key of the rule recorded. -/
def withRule (manager : Manager) (css : String) : Manager :=
  let point := InsertionPoint.ofRule css
  let ready := manager.ensurePoint point
  let elements := (Document.appendTo? point css ready.document.elements).getD ready.document.elements
  { ready with document := ⟨elements⟩, state := ready.state.record (RuleText.key css) }

theorem appendTo?_ensurePoint (h : manager.Records known inserted) (css : String) :
    Document.appendTo? (InsertionPoint.ofRule css) css
        (manager.ensurePoint (InsertionPoint.ofRule css)).document.elements =
      some ((manager.ensurePoint (InsertionPoint.ofRule css)).state.points.map
        (StyleElement.holding (manager.ensurePoint (InsertionPoint.ofRule css)).nonce
          (inserted ++ [css]))) := by
  obtain ⟨hready, hpoint⟩ := records_ensurePoint h (InsertionPoint.ofRule css)
  rw [hready.elements]
  exact Document.appendTo?_holding _ _ hready.ascends.nodup hpoint

/-- What the insertion of a rule does: the rule is passed over, refused as malformed, or put into the
element of its point, which is never missing. -/
theorem insertRule_eq (h : manager.Records known inserted) (rule : String) :
    manager.insertRule rule =
      if RuleText.key (trimmed rule) ∈ manager.state.keys then .ok (manager, false)
      else (RuleText.check (trimmed rule)).map fun _ => (manager.withRule (trimmed rule), true) := by
  unfold insertRule
  by_cases hkey : RuleText.key (trimmed rule) ∈ manager.state.keys
  · have hcontains : manager.state.contains (RuleText.key (trimmed rule)) = true :=
      List.contains_iff_mem.mpr hkey
    rw [if_pos hkey, if_pos hcontains]
    rfl
  · have hcontains : ¬ manager.state.contains (RuleText.key (trimmed rule)) = true :=
      fun hcontains => hkey (List.contains_iff_mem.mp hcontains)
    rw [if_neg hkey, if_neg hcontains]
    cases hcheck : RuleText.check (trimmed rule) with
    | error fault => rfl
    | ok _ =>
      have happend := appendTo?_ensurePoint h (trimmed rule)
      show (Document.insert _ _ _ >>= _) = _
      rw [Document.insert, happend, withRule]
      simp only [happend]
      rfl

/-- A rule with a new key is added to what was inserted. -/
theorem records_withRule (h : manager.Records known inserted) {css : String}
    (hkey : RuleText.key css ∉ manager.state.keys) :
    (manager.withRule css).Records known (inserted ++ [css]) := by
  obtain ⟨hready, hpoint⟩ := records_ensurePoint h (InsertionPoint.ofRule css)
  have hkeys : (manager.ensurePoint (InsertionPoint.ofRule css)).state.keys = manager.state.keys := by
    rw [hready.keys, h.keys]
  rw [← hkeys] at hkey
  rw [withRule, appendTo?_ensurePoint h css, InsertionState.record_of_not_mem hkey]
  refine ⟨hready.ascends, fun other hother => ?_, rfl, ?_, ?_⟩
  · rcases List.mem_append.mp hother with hother | hother
    · exact hready.placed other hother
    · rw [List.mem_singleton.mp hother]
      exact hpoint
  · rw [hready.keys, List.map_append, List.append_assoc]
    rfl
  · exact List.nodup_append.mpr ⟨hready.distinct, List.nodup_singleton _, fun key hmem other hother =>
      fun heq => hkey ((List.mem_singleton.mp hother) ▸ heq ▸ hmem)⟩

end Steps

end Manager

/-! ## Runs -/

/-- The rules of a run that are inserted where some keys are known: those with a new key, up to the
first one that is malformed. -/
def RuleText.newRules (known : List String) : List String → List String
  | [] => []
  | rule :: rest =>
    let css := trimmed rule
    if key css ∈ known then newRules known rest
    else
      match check css with
      | .error _ => []
      | .ok _ => css :: newRules (known ++ [key css]) rest

namespace Manager

section Runs

variable {manager : Manager} {known inserted : List String} {rule : String}

theorem ensureInserted_of_mem (h : manager.Records known inserted)
    (hkey : RuleText.key (trimmed rule) ∈ manager.state.keys) (rest : List String) :
    manager.ensureInserted (rule :: rest) = manager.ensureInserted rest := by
  rw [ensureInserted, insertRule_eq h, if_pos hkey]
  cases hrun : manager.ensureInserted rest with
  | mk result last => cases result <;> simp only [hrun] <;> rfl

theorem ensureInserted_of_error (h : manager.Records known inserted)
    (hkey : RuleText.key (trimmed rule) ∉ manager.state.keys) {fault : SheetFault}
    (hcheck : RuleText.check (trimmed rule) = .error fault) (rest : List String) :
    manager.ensureInserted (rule :: rest) = (.error fault, manager) := by
  rw [ensureInserted, insertRule_eq h, if_neg hkey, hcheck]
  rfl

theorem ensureInserted_of_ok (h : manager.Records known inserted)
    (hkey : RuleText.key (trimmed rule) ∉ manager.state.keys)
    (hcheck : RuleText.check (trimmed rule) = .ok ()) (rest : List String) :
    manager.ensureInserted (rule :: rest) =
      (((manager.withRule (trimmed rule)).ensureInserted rest).1.map (· + 1),
        ((manager.withRule (trimmed rule)).ensureInserted rest).2) := by
  rw [ensureInserted, insertRule_eq h, if_neg hkey, hcheck]
  rfl

/-- A run adds the new rules, and counts them. -/
theorem records_ensureInserted (h : manager.Records known inserted) (rules : List String) :
    (manager.ensureInserted rules).2.Records known
        (inserted ++ RuleText.newRules manager.state.keys rules) ∧
      ∀ count, (manager.ensureInserted rules).1 = .ok count →
        count = (RuleText.newRules manager.state.keys rules).length := by
  induction rules generalizing manager inserted with
  | nil =>
    refine ⟨?_, fun count hcount => (Except.ok.inj hcount).symm⟩
    rw [RuleText.newRules, List.append_nil]
    exact h
  | cons rule rest ih =>
    rw [RuleText.newRules]
    by_cases hkey : RuleText.key (trimmed rule) ∈ manager.state.keys
    · rw [ensureInserted_of_mem h hkey]
      simp only [if_pos hkey]
      exact ih h
    · simp only [if_neg hkey]
      cases hcheck : RuleText.check (trimmed rule) with
      | error fault =>
        rw [ensureInserted_of_error h hkey hcheck, List.append_nil]
        exact ⟨h, fun count hok => nomatch hok⟩
      | ok _ =>
        have hnext := records_withRule h hkey
        have hkeys : (manager.withRule (trimmed rule)).state.keys =
            manager.state.keys ++ [RuleText.key (trimmed rule)] := by
          rw [hnext.keys, h.keys, List.map_append, List.append_assoc]
          rfl
        obtain ⟨hlast, hcount⟩ := ih hnext
        rw [hkeys] at hlast hcount
        rw [List.append_assoc] at hlast
        rw [ensureInserted_of_ok h hkey hcheck]
        refine ⟨hlast, fun count hok => ?_⟩
        cases hrun : ((manager.withRule (trimmed rule)).ensureInserted rest).1 with
        | error fault =>
          rw [hrun] at hok
          cases hok
        | ok n =>
          rw [hrun] at hok
          rw [← Except.ok.inj hok, hcount n hrun, List.length_cons]

/-- A run that fails has done what the rules before the one it failed on do. -/
theorem exists_of_ensureInserted_error (h : manager.Records known inserted) {rules : List String}
    {fault : SheetFault} {last : Manager}
    (hrun : manager.ensureInserted rules = (.error fault, last)) :
    ∃ before rule after count, rules = before ++ rule :: after ∧
      manager.ensureInserted before = (.ok count, last) ∧
      RuleText.key (trimmed rule) ∉ last.state.keys ∧
      RuleText.check (trimmed rule) = .error fault := by
  induction rules generalizing manager inserted with
  | nil => cases hrun
  | cons rule rest ih =>
    by_cases hkey : RuleText.key (trimmed rule) ∈ manager.state.keys
    · rw [ensureInserted_of_mem h hkey] at hrun
      obtain ⟨before, failing, after, count, rfl, hbefore, hnew, hfault⟩ := ih h hrun
      refine ⟨rule :: before, failing, after, count, rfl, ?_, hnew, hfault⟩
      rw [ensureInserted_of_mem h hkey, hbefore]
    · cases hcheck : RuleText.check (trimmed rule) with
      | error fault' =>
        rw [ensureInserted_of_error h hkey hcheck] at hrun
        obtain ⟨hfault, rfl⟩ := Prod.mk.inj hrun
        exact ⟨[], rule, rest, 0, rfl, rfl, hkey, by rw [hcheck, Except.error.inj hfault]⟩
      | ok _ =>
        rw [ensureInserted_of_ok h hkey hcheck] at hrun
        obtain ⟨hresult, hlast⟩ := Prod.mk.inj hrun
        cases hnext : (manager.withRule (trimmed rule)).ensureInserted rest with
        | mk result last' =>
          rw [hnext] at hresult hlast
          cases result with
          | ok n => cases hresult
          | error fault' =>
            obtain rfl := Except.error.inj hresult
            obtain rfl := hlast
            obtain ⟨before, failing, after, count, rfl, hbefore, hnew, hfault⟩ :=
              ih (records_withRule h hkey) hnext
            refine ⟨rule :: before, failing, after, count + 1, rfl, ?_, hnew, hfault⟩
            rw [ensureInserted_of_ok h hkey hcheck, hbefore]
            rfl

end Runs

end Manager

/-- Of well-formed rules, the new ones are the first of each key. -/
theorem RuleText.foldl_addNew_key (known : List String) {rules : List String}
    (hcheck : ∀ rule ∈ rules, check (trimmed rule) = .ok ()) :
    (rules.map trimmed).foldl (addNew key) known =
      known ++ newRules (known.map key) rules := by
  induction rules generalizing known with
  | nil => exact (List.append_nil known).symm
  | cons rule rest ih =>
    have hrest := fun other hother => hcheck other (List.mem_cons_of_mem rule hother)
    rw [List.map_cons, List.foldl_cons, addNew_eq, newRules]
    by_cases hkey : key (trimmed rule) ∈ known.map key
    · simp only [if_pos hkey]
      exact ih known hrest
    · simp only [if_neg hkey, hcheck rule List.mem_cons_self]
      rw [ih _ hrest, List.map_append, List.append_assoc]
      rfl

namespace Manager

/-- From an empty document, a run over well-formed rules inserts the first rule of each key. -/
theorem ensureInserted_fresh (nonce : Option String) {rules : List String}
    (hcheck : ∀ rule ∈ rules, RuleText.check (trimmed rule) = .ok ()) :
    ∃ last, ({ nonce } : Manager).ensureInserted rules =
        (.ok (earliest RuleText.key (rules.map trimmed)).length, last) ∧
      last.document.rules.Perm (earliest RuleText.key (rules.map trimmed)) := by
  obtain ⟨hrecords, hcount⟩ := records_ensureInserted (records_empty nonce) rules
  have hearliest : earliest RuleText.key (rules.map trimmed) = RuleText.newRules [] rules :=
    RuleText.foldl_addNew_key [] hcheck
  rw [hearliest]
  cases hrun : ({ nonce } : Manager).ensureInserted rules with
  | mk result last =>
    rw [hrun] at hrecords hcount
    cases result with
    | error fault =>
      obtain ⟨before, rule, after, count, rfl, -, -, hfault⟩ :=
        exists_of_ensureInserted_error (records_empty nonce) hrun
      rw [hcheck rule (List.mem_append_right _ List.mem_cons_self)] at hfault
      cases hfault
    | ok count =>
      obtain rfl := hcount count rfl
      exact ⟨last, rfl, hrecords.rules_perm⟩

/-- From an empty document, a run inserts all rules, each once. -/
def InsertsAll (nonce : Option String) (rules : List String) : Prop :=
  (({ nonce } : Manager).ensureInserted rules).1 = .ok rules.length ∧
    ∀ rule ∈ rules, (({ nonce } : Manager).ensureInserted rules).2.document.rules.count rule = 1

/-- Well-formed rules are all inserted iff their keys are distinct. -/
theorem insertsAll_iff (nonce : Option String) {rules : List String}
    (htrimmed : ∀ rule ∈ rules, trimmed rule = rule)
    (hcheck : ∀ rule ∈ rules, RuleText.check rule = .ok ()) :
    InsertsAll nonce rules ↔ (rules.map RuleText.key).Nodup := by
  have hmap : rules.map trimmed = rules := by
    rw [List.map_congr_left htrimmed, List.map_id']
  have hcheck' : ∀ rule ∈ rules, RuleText.check (trimmed rule) = .ok () := by
    intro rule hrule
    rw [htrimmed rule hrule]
    exact hcheck rule hrule
  obtain ⟨last, hrun, hperm⟩ := ensureInserted_fresh nonce hcheck'
  rw [hmap] at hrun hperm
  rw [InsertsAll, hrun]
  constructor
  · rintro ⟨hcount, -⟩
    exact (length_earliest_eq_iff RuleText.key rules).mp (Except.ok.inj hcount)
  · intro hnodup
    rw [earliest_of_nodup hnodup] at hperm ⊢
    refine ⟨rfl, fun rule hrule => ?_⟩
    rw [hperm.count_eq]
    exact List.count_eq_one_of_mem (hnodup.of_map RuleText.key) hrule

end Manager

end AtomicStyle

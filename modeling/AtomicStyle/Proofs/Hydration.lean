import AtomicStyle.Proofs.History
import AtomicStyle.Proofs.Scanning
import AtomicStyle.Proofs.Searching

/-!
# Taking over the page of a server

A server writes the rules of each style element one after the other, without anything between them.
A client finds the elements in the page, cuts their texts into rules again and records their keys.

Results:
1. `Document.contentsOf_toHtml`: the elements of a document are found in its markup.
2. `keys_flatMap`: the keys of rules in a row.
3. `InsertionState.ofHtml_toHtml`: the state that a client takes over.
4. `Manager.hydration_exact`: it is that of the server, and the client has nothing to insert.
-/

namespace AtomicStyle

open AtomicStyle.Text AtomicStyle.RuleText

/-! ## Style elements in markup -/

namespace Markup

theorem contentsOf_nil : contentsOf [] = [] := by
  rw [contentsOf]
  rfl

/-- A marked style element comes before those after it. -/
theorem contentsOf_of_cuts {page before afterOpen attributes body content rest : List Char}
    (hopen : cut? "<style".toList page = some (before, afterOpen))
    (htag : cut? ['>'] afterOpen = some (attributes, body))
    (hclose : cut? "</style>".toList body = some (content, rest))
    (hmarked : (cut? marking.toList attributes).isSome = true) :
    contentsOf page = content :: contentsOf rest := by
  rw [contentsOf]
  split
  · next h => cases hopen.symm.trans h
  · next h =>
    cases hopen.symm.trans h
    split
    · next h => cases htag.symm.trans h
    · next h =>
      cases htag.symm.trans h
      split
      · next h => cases hclose.symm.trans h
      · next h =>
        cases hclose.symm.trans h
        exact if_pos hmarked

theorem not_mem_escapeAttribute {value : String} (h : '>' ∉ value.toList) :
    '>' ∉ (escapeAttribute value).toList := by
  rw [escapeAttribute, String.toList_ofList, List.mem_flatMap]
  rintro ⟨c, hc, hmem⟩
  split at hmem
  · exact absurd hmem (by decide)
  · split at hmem
    · exact absurd hmem (by decide)
    · split at hmem
      · exact absurd hmem (by decide)
      · rw [← List.mem_singleton.mp hmem] at hc
        exact h hc

end Markup

namespace StyleElement

/-- What stands between the name and the end of the opening tag. -/
def attributes (element : StyleElement) : String :=
  " " ++ Markup.marking ++ "=\"" ++ element.point.name ++ "\"" ++
    element.nonce.elim "" fun nonce => " nonce=\"" ++ Markup.escapeAttribute nonce ++ "\""

theorem toList_toHtml (element : StyleElement) :
    element.toHtml.toList = "<style".toList ++ (element.attributes.toList ++ ['>'] ++
      (element.rules.flatMap String.toList ++ "</style>".toList)) := by
  have hopen : "<style ".toList = "<style".toList ++ " ".toList := rfl
  have htag : ">".toList = ['>'] := rfl
  unfold toHtml attributes
  cases element.nonce with
  | none => simp [hopen, htag]
  | some nonce => simp [hopen, htag]

theorem isSome_cut?_attributes (element : StyleElement) :
    (cut? Markup.marking.toList element.attributes.toList).isSome = true := by
  have hsplit : element.attributes.toList = " ".toList ++ (Markup.marking.toList ++
      ("=\"" ++ element.point.name ++ "\"" ++ element.nonce.elim "" fun nonce =>
        " nonce=\"" ++ Markup.escapeAttribute nonce ++ "\"").toList) := by
    simp [attributes]
  rw [hsplit]
  exact isSome_cut?_append _ _

theorem not_mem_attributes {element : StyleElement}
    (h : ∀ nonce, element.nonce = some nonce → '>' ∉ nonce.toList) :
    '>' ∉ element.attributes.toList := by
  have hname : ∀ point : InsertionPoint, '>' ∉ point.name.toList := by
    rintro ⟨inAtRule, bucket⟩
    cases inAtRule <;> cases bucket <;> decide
  unfold attributes
  cases hnonce : element.nonce with
  | none => simp [hname, Markup.marking]
  | some nonce => simp [hname, Markup.marking, Markup.not_mem_escapeAttribute (h nonce hnonce)]

/-- The closing tag is found after the rules. -/
theorem cut?_flatMap_rules {rules : List String}
    (h : ∀ rule ∈ rules, hasText "</style>" rule = false ∧ rule.toList.getLast? = some '\x7d')
    (rest : List Char) :
    cut? "</style>".toList (rules.flatMap String.toList ++ ("</style>".toList ++ rest)) =
      some (rules.flatMap String.toList, rest) := by
  induction rules with
  | nil => exact cut?_append_left (by decide) rest
  | cons rule rules ih =>
    obtain ⟨habsent, hlast⟩ := h rule List.mem_cons_self
    have hnone := hasText_eq_false_iff.mp habsent
    have hend : ∀ c, rule.toList.getLast? = some c → c ∉ "</style>".toList := by
      intro c hc
      rw [← Option.some.inj (hlast.symm.trans hc)]
      decide
    rw [List.flatMap_cons, List.append_assoc, cut?_append hnone hend,
      ih fun other hother => h other (List.mem_cons_of_mem rule hother)]
    rfl

/-- A style element in a page, and what comes after it. -/
theorem contentsOf_append {element : StyleElement}
    (hnonce : ∀ nonce, element.nonce = some nonce → '>' ∉ nonce.toList)
    (hrules : ∀ rule ∈ element.rules,
      hasText "</style>" rule = false ∧ rule.toList.getLast? = some '\x7d') (rest : List Char) :
    Markup.contentsOf (element.toHtml.toList ++ rest) =
      element.rules.flatMap String.toList :: Markup.contentsOf rest := by
  have hattributes := not_mem_attributes hnonce
  have hnone : cut? ['>'] element.attributes.toList = none :=
    cut?_eq_none_of_not_mem List.mem_cons_self hattributes
  have hend : ∀ c, element.attributes.toList.getLast? = some c → c ∉ ['>'] := by
    intro c hc hmem
    rw [List.mem_singleton.mp hmem] at hc
    exact hattributes (List.mem_of_getLast? hc)
  have hpage : element.toHtml.toList ++ rest = "<style".toList ++ (element.attributes.toList ++
      (['>'] ++ (element.rules.flatMap String.toList ++ ("</style>".toList ++ rest)))) := by
    rw [toList_toHtml]
    simp only [List.append_assoc]
  have htag : cut? ['>'] (element.attributes.toList ++
      (['>'] ++ (element.rules.flatMap String.toList ++ ("</style>".toList ++ rest)))) =
        some (element.attributes.toList,
          element.rules.flatMap String.toList ++ ("</style>".toList ++ rest)) := by
    rw [cut?_append hnone hend, cut?_append_left (by decide), Option.map_some, List.append_nil]
  rw [hpage]
  exact Markup.contentsOf_of_cuts (cut?_append_left (by decide) _) htag
    (cut?_flatMap_rules hrules rest) (isSome_cut?_attributes element)

end StyleElement

/-- The elements of a document are found in its markup. -/
theorem Document.contentsOf_toHtml {document : Document}
    (hnonce : ∀ element ∈ document.elements, ∀ nonce, element.nonce = some nonce →
      '>' ∉ nonce.toList)
    (hrules : ∀ rule ∈ document.rules,
      hasText "</style>" rule = false ∧ rule.toList.getLast? = some '\x7d') :
    Markup.contentsOf document.toHtml.toList =
      document.elements.map (·.rules.flatMap String.toList) := by
  obtain ⟨elements⟩ := document
  rw [toHtml, String.toList_join, List.flatMap_map]
  unfold rules at hrules
  induction elements with
  | nil => exact Markup.contentsOf_nil
  | cons element rest ih =>
    have hrest := ih (fun other hother => hnonce other (List.mem_cons_of_mem element hother))
      fun rule hrule => hrules rule (List.mem_append_right _ hrule)
    rw [List.flatMap_cons, List.map_cons, StyleElement.contentsOf_append
      (hnonce element List.mem_cons_self) (fun rule hrule => hrules rule
        (List.mem_append_left _ hrule)), hrest]

/-! ## Keys -/

namespace RuleText

/-- A rule that is read as it is and has one key. -/
structure HasKey (css : String) : Prop where
  whole : splitChars css.toList = .ok [css.toList]
  keys : keysOf [css.toList] = .ok [key css]

theorem HasKey.getLast?_eq {css : String} (h : HasKey css) : css.toList.getLast? = some '\x7d' :=
  getLast?_of_splitChars h.whole css.toList List.mem_cons_self

theorem splitChars_of_check {css : String} (h : check css = .ok ()) :
    splitChars (trim css.toList) = .ok [trim css.toList] := by
  have htrimmed : (trimmed css).toList = trim css.toList := String.toList_ofList
  unfold check at h
  simp only at h
  split at h
  · cases h
  · rw [split, htrimmed] at h
    cases hrules : splitChars (trim css.toList) with
    | error fault =>
      rw [hrules] at h
      cases h
    | ok rules =>
      rw [hrules] at h
      replace h : (if rules.map String.ofList = [trimmed css] then Except.ok () else
        Except.error (SheetFault.malformedRule css .notOneRule)) = Except.ok () := h
      split at h
      · next hone =>
        have hchars := congrArg (List.map String.toList) hone
        simp only [List.map_map, String.toList_comp_ofList, List.map_id, List.map_cons,
          List.map_nil, htrimmed] at hchars
        rw [hchars]
      · cases h

theorem hasText_trimmed {needle rule : String} (h : hasText needle rule = false) :
    hasText needle (trimmed rule) = false := by
  obtain ⟨before, after, hsplit, -⟩ := exists_eq_trim rule.toList
  have hpart : trim rule.toList <:+: rule.toList :=
    ⟨before, after, by rw [List.append_assoc]; exact hsplit.symm⟩
  rw [hasText_eq_false_iff, trimmed, String.toList_ofList]
  exact cut?_eq_none_of_part hpart (hasText_eq_false_iff.mp h)

/-- A rule that is fit for a document has, without the blanks around it, the key it has with them. -/
theorem hasKey_trimmed {rule name : String} (hcheck : check (trimmed rule) = .ok ())
    (hkeys : keys rule = .ok [name]) : HasKey (trimmed rule) := by
  have htrimmed : (trimmed rule).toList = trim rule.toList := String.toList_ofList
  have hwhole := splitChars_of_check hcheck
  rw [htrimmed, trim_trim] at hwhole
  rw [keys_eq_keysOf (splitChars_of_trim hwhole)] at hkeys
  have hkey : key (trimmed rule) = name := by
    have hagain : trimmed (trimmed rule) = trimmed rule := by
      rw [trimmed, htrimmed, trim_trim]
      rfl
    rw [key, hagain, keys_of_splitChars (by rw [htrimmed]; exact hwhole), htrimmed, hkeys]
  constructor
  · rw [htrimmed]
    exact hwhole
  · rw [htrimmed, hkeys, hkey]

/-- The keys of rules in a row. -/
theorem keys_flatMap {rules : List String} (h : ∀ rule ∈ rules, HasKey rule) :
    keys (String.ofList (rules.flatMap String.toList)) = .ok (rules.map key) := by
  have hyields : Yields (rules.flatMap String.toList) (rules.map String.toList) := by
    induction rules with
    | nil => exact yields_nil
    | cons rule rest ih =>
      exact (yields_of_splitChars (h rule List.mem_cons_self).whole).append
        (ih fun other hother => h other (List.mem_cons_of_mem rule hother))
  have hread : ∀ rule ∈ rules, keys (id rule) = keysOf [rule.toList] :=
    fun rule hrule => keys_of_splitChars (h rule hrule).whole
  have hkeys : keysOf (rules.map String.toList) = .ok (rules.map key) := by
    rw [keysOf_map hread, List.map_id]
    exact mapM_keys fun rule hrule => (hread rule hrule).trans (h rule hrule).keys
  rw [Yields.keys_eq (by rw [String.toList_ofList]; exact hyields), hkeys]

end RuleText

/-! ## The state of a page -/

namespace InsertionState

theorem recordAll_of_nodup {state : InsertionState} {names : List String}
    (h : (state.keys ++ names).Nodup) :
    state.recordAll names = { state with keys := state.keys ++ names } := by
  unfold recordAll
  induction names generalizing state with
  | nil => simp
  | cons name rest ih =>
    have hnew : name ∉ state.keys := by
      intro hmem
      exact (List.nodup_append.mp h).2.2 name hmem name List.mem_cons_self rfl
    rw [List.foldl_cons, record_of_not_mem hnew, ih (by simpa using h)]
    simp

theorem mem_keys_recordAll {state : InsertionState} {names : List String}
    {name : String} : name ∈ (state.recordAll names).keys ↔ name ∈ state.keys ∨ name ∈ names := by
  unfold recordAll
  induction names generalizing state with
  | nil => simp
  | cons first rest ih =>
    have hrecord : name ∈ (state.record first).keys ↔ name = first ∨ name ∈ state.keys := by
      have hcontains := contains_record state first name
      rw [contains, contains, Bool.eq_iff_iff, Bool.or_eq_true, beq_iff_eq, List.contains_iff_mem,
        List.contains_iff_mem] at hcontains
      exact hcontains
    rw [List.foldl_cons, ih, hrecord, List.mem_cons]
    tauto

theorem ofHtml_eq {page : String} {contents : List (List String)}
    (hpage : Markup.contentsOf page.toList = contents.map (·.flatMap String.toList))
    (hkeys : ∀ rules ∈ contents, ∀ rule ∈ rules, RuleText.HasKey rule) :
    ofHtml page = .ok (empty.recordAll (contents.flatten.map RuleText.key)) := by
  rw [ofHtml, Markup.styleContents, hpage, List.map_map]
  generalize empty = state
  clear hpage
  induction contents generalizing state with
  | nil => rfl
  | cons rules rest ih =>
    have hfirst := RuleText.keys_flatMap (hkeys rules List.mem_cons_self)
    rw [List.map_cons, List.foldlM_cons, Function.comp_apply, hfirst, List.flatten_cons,
      List.map_append, recordAll, List.foldl_append]
    exact ih (fun others hothers => hkeys others (List.mem_cons_of_mem rules hothers)) _

/-- What a client takes over: the keys of the rules in the document. -/
theorem ofHtml_toHtml {document : Document}
    (hnonce : ∀ element ∈ document.elements, ∀ nonce, element.nonce = some nonce →
      '>' ∉ nonce.toList)
    (hrules : ∀ rule ∈ document.rules, hasText "</style>" rule = false ∧ RuleText.HasKey rule)
    (hdistinct : (document.rules.map RuleText.key).Nodup) :
    ofHtml document.toHtml = .ok { keys := document.rules.map RuleText.key } := by
  have hcontents := Document.contentsOf_toHtml hnonce fun rule hrule =>
    ⟨(hrules rule hrule).1, (hrules rule hrule).2.getLast?_eq⟩
  have hpage : Markup.contentsOf document.toHtml.toList =
      (document.elements.map StyleElement.rules).map (·.flatMap String.toList) := by
    rw [hcontents, List.map_map]
    rfl
  have hflatten : (document.elements.map StyleElement.rules).flatten = document.rules :=
    List.flatMap_def.symm
  rw [ofHtml_eq hpage, hflatten, recordAll_of_nodup hdistinct]
  · rfl
  · intro rules hmem rule hrule
    refine (hrules rule ?_).2
    rw [← hflatten]
    exact List.mem_flatten.mpr ⟨rules, hmem, hrule⟩

end InsertionState

/-! ## What a server accepts -/

theorem RuleText.exists_of_mem_newRules {known rules : List String} {css : String}
    (h : css ∈ newRules known rules) :
    ∃ rule ∈ rules, css = trimmed rule ∧ check css = .ok () := by
  fun_induction newRules known rules with
  | case1 => exact absurd h List.not_mem_nil
  | case2 known rule rest css' hkey ih =>
    obtain ⟨other, hother, heq⟩ := ih h
    exact ⟨other, List.mem_cons_of_mem rule hother, heq⟩
  | case3 => exact absurd h List.not_mem_nil
  | case4 known rule rest css' hkey _ hcheck ih =>
    rcases List.mem_cons.mp h with rfl | h
    · exact ⟨rule, List.mem_cons_self, rfl, hcheck⟩
    · obtain ⟨other, hother, heq⟩ := ih h
      exact ⟨other, List.mem_cons_of_mem rule hother, heq⟩

theorem RuleText.exists_of_mem_history {known : List String} {calls : List (List String)}
    {css : String} (h : css ∈ history known calls) :
    ∃ rules ∈ calls, ∃ rule ∈ rules, css = trimmed rule ∧ check css = .ok () := by
  induction calls generalizing known with
  | nil => exact absurd h List.not_mem_nil
  | cons rules calls ih =>
    rcases List.mem_append.mp h with h | h
    · exact ⟨rules, List.mem_cons_self, exists_of_mem_newRules h⟩
    · obtain ⟨others, hothers, hrule⟩ := ih h
      exact ⟨others, List.mem_cons_of_mem rules hothers, hrule⟩

namespace Manager

/-- The rules of a call that a manager takes: those before the first one that fails. -/
def accepted (manager : Manager) : List String → List String
  | [] => []
  | rule :: rest =>
    match manager.insertRule rule with
    | .error _ => []
    | .ok (next, _) => rule :: next.accepted rest

/-- The rules that a manager takes in a run of calls. -/
def acceptedIn (manager : Manager) : List (List String) → List String
  | [] => []
  | rules :: calls => manager.accepted rules ++ (manager.ensureInserted rules).2.acceptedIn calls

section Accepting

variable {manager : Manager} {known inserted : List String}

/-- A call forgets no key. -/
theorem keys_subset_ensureInserted (h : manager.Records known inserted) (rules : List String) :
    manager.state.keys ⊆ (manager.ensureInserted rules).2.state.keys := by
  rw [(records_ensureInserted h rules).1.keys, h.keys, List.map_append, ← List.append_assoc]
  exact List.subset_append_left _ _

/-- The key of a rule that is taken is known from then on. -/
theorem key_mem_of_mem_accepted (h : manager.Records known inserted) {rules : List String}
    {rule : String} (hrule : rule ∈ manager.accepted rules) :
    RuleText.key (trimmed rule) ∈ (manager.ensureInserted rules).2.state.keys := by
  induction rules generalizing manager inserted with
  | nil => exact absurd hrule List.not_mem_nil
  | cons first rest ih =>
    rw [accepted, insertRule_eq h] at hrule
    by_cases hkey : RuleText.key (trimmed first) ∈ manager.state.keys
    · rw [ensureInserted_of_mem h hkey]
      rw [if_pos hkey] at hrule
      rcases List.mem_cons.mp hrule with rfl | hrule
      · exact keys_subset_ensureInserted h rest hkey
      · exact ih h hrule
    · rw [if_neg hkey] at hrule
      cases hcheck : RuleText.check (trimmed first) with
      | error fault =>
        rw [hcheck] at hrule
        exact absurd hrule List.not_mem_nil
      | ok _ =>
        rw [hcheck] at hrule
        rw [ensureInserted_of_ok h hkey hcheck]
        have hnext := records_withRule h hkey
        rcases List.mem_cons.mp hrule with rfl | hrule
        · refine keys_subset_ensureInserted hnext rest ?_
          rw [hnext.keys, List.map_append]
          simp
        · exact ih hnext hrule

/-- A call with well-formed rules is taken as a whole. -/
theorem accepted_of_check (h : manager.Records known inserted) {rules : List String}
    (hcheck : ∀ rule ∈ rules, RuleText.check (trimmed rule) = .ok ()) :
    manager.accepted rules = rules := by
  induction rules generalizing manager inserted with
  | nil => rfl
  | cons rule rest ih =>
    have hrest := fun other hother => hcheck other (List.mem_cons_of_mem rule hother)
    rw [accepted, insertRule_eq h, hcheck rule List.mem_cons_self]
    by_cases hkey : RuleText.key (trimmed rule) ∈ manager.state.keys
    · rw [if_pos hkey]
      exact congrArg (rule :: ·) (ih h hrest)
    · rw [if_neg hkey]
      exact congrArg (rule :: ·) (ih (records_withRule h hkey) hrest)

theorem keys_subset_after (h : manager.Records known inserted) (calls : List (List String)) :
    manager.state.keys ⊆ (manager.after calls).state.keys := by
  rw [(records_after h calls).keys, h.keys, List.map_append, ← List.append_assoc]
  exact List.subset_append_left _ _

theorem key_mem_of_mem_acceptedIn (h : manager.Records known inserted) {calls : List (List String)}
    {rule : String} (hrule : rule ∈ manager.acceptedIn calls) :
    RuleText.key (trimmed rule) ∈ (manager.after calls).state.keys := by
  induction calls generalizing manager inserted with
  | nil => exact absurd hrule List.not_mem_nil
  | cons rules calls ih =>
    have hnext := (records_ensureInserted h rules).1
    rcases List.mem_append.mp hrule with hrule | hrule
    · exact keys_subset_after hnext calls (key_mem_of_mem_accepted h hrule)
    · exact ih hnext hrule

/-- A call for rules whose keys are known does nothing. -/
theorem ensureInserted_of_known {rules : List String}
    (h : ∀ rule ∈ rules, RuleText.key (trimmed rule) ∈ manager.state.keys) :
    manager.ensureInserted rules = (.ok 0, manager) := by
  induction rules with
  | nil => rfl
  | cons rule rest ih =>
    have hcontains : manager.state.contains (RuleText.key (trimmed rule)) = true :=
      List.contains_iff_mem.mpr (h rule List.mem_cons_self)
    have hskip : manager.insertRule rule = .ok (manager, false) := by
      rw [insertRule, if_pos hcontains]
      rfl
    rw [ensureInserted, hskip]
    simp only [ih fun other hother => h other (List.mem_cons_of_mem rule hother)]
    rfl

theorem nonce_withRule (manager : Manager) (css : String) :
    (manager.withRule css).nonce = manager.nonce := by
  show (manager.ensurePoint (InsertionPoint.ofRule css)).nonce = manager.nonce
  unfold ensurePoint
  split
  · rfl
  · rfl

theorem nonce_ensureInserted (h : manager.Records known inserted) (rules : List String) :
    (manager.ensureInserted rules).2.nonce = manager.nonce := by
  induction rules generalizing manager inserted with
  | nil => rfl
  | cons rule rest ih =>
    by_cases hkey : RuleText.key (trimmed rule) ∈ manager.state.keys
    · rw [ensureInserted_of_mem h hkey]
      exact ih h
    · cases hcheck : RuleText.check (trimmed rule) with
      | error fault => rw [ensureInserted_of_error h hkey hcheck]
      | ok _ =>
        rw [ensureInserted_of_ok h hkey hcheck]
        exact (ih (records_withRule h hkey)).trans (nonce_withRule manager (trimmed rule))

theorem nonce_after (h : manager.Records known inserted) (calls : List (List String)) :
    (manager.after calls).nonce = manager.nonce := by
  induction calls generalizing manager inserted with
  | nil => rfl
  | cons rules calls ih =>
    exact (ih (records_ensureInserted h rules).1).trans (nonce_ensureInserted h rules)

end Accepting

/-- **Hydration.**  A server starts on an empty document and takes any run of calls, some of which may
fail.  If every rule has one key, and no rule and no nonce ends the style element or its tag too
early, a client can take over the page that the server writes.  It then knows the keys that the server
knows, and whatever it is asked for of the rules that the server has taken, it does nothing. -/
theorem hydration_exact (nonce : Option String) (calls : List (List String))
    (hnonce : ∀ value, nonce = some value → '>' ∉ value.toList)
    (hrules : ∀ rules ∈ calls, ∀ rule ∈ rules,
      hasText "</style>" rule = false ∧ ∃ name, RuleText.keys rule = .ok [name]) :
    ∃ state, InsertionState.ofHtml (after { nonce } calls).document.toHtml = .ok state ∧
      state.keys.Perm (after { nonce } calls).state.keys ∧
      ∀ (document : Document) (own : Option String) (rules : List String),
        (∀ rule ∈ rules, rule ∈ acceptedIn { nonce } calls) →
          ensureInserted ⟨document, state, own⟩ rules = (.ok 0, ⟨document, state, own⟩) := by
  have hrecords := records_after (records_empty nonce) calls
  have hconsistent : (after { nonce } calls).Consistent .empty := hrecords.consistent
  have helements : ∀ element ∈ (after { nonce } calls).document.elements, ∀ value,
      element.nonce = some value → '>' ∉ value.toList := by
    intro element helement value hvalue
    rw [hrecords.elements] at helement
    obtain ⟨point, -, rfl⟩ := List.mem_map.mp helement
    exact hnonce value ((nonce_after (records_empty nonce) calls).symm.trans hvalue)
  have hwritten : ∀ css ∈ (after { nonce } calls).document.rules,
      hasText "</style>" css = false ∧ RuleText.HasKey css := by
    intro css hcss
    obtain ⟨rules, hcall, rule, hrule, rfl, hcheck⟩ :=
      RuleText.exists_of_mem_history (hrecords.rules_perm.mem_iff.mp hcss)
    obtain ⟨htext, name, hkeys⟩ := hrules rules hcall rule hrule
    exact ⟨RuleText.hasText_trimmed htext, RuleText.hasKey_trimmed hcheck hkeys⟩
  have hkeys : ((after { nonce } calls).document.rules.map RuleText.key).Perm
      (after { nonce } calls).state.keys := hconsistent.keys.symm
  refine ⟨_, InsertionState.ofHtml_toHtml helements hwritten hconsistent.distinct, hkeys, ?_⟩
  intro document own rules haccepted
  refine ensureInserted_of_known fun rule hrule => hkeys.mem_iff.mpr ?_
  exact key_mem_of_mem_acceptedIn (records_empty nonce) (haccepted rule hrule)

/-- Two rules are written, one of them with blanks around it and one inside an at-rule; a third one is
refused because of the comment before it. -/
theorem hydration_exact_print :
    let nonce := some "a\"&<"
    let hover := " ._30l313q2:hover\x7bcolor:blue\x7d\n"
    let print := "@media print\x7b._syaz5scu\x7bcolor:red\x7d\x7d"
    let refused := "/* */._1e0c1txw\x7btop:0\x7d"
    let calls := [[hover, print], [refused]]
    (∀ rules ∈ calls, ∀ rule ∈ rules,
        hasText "</style>" rule = false ∧ ∃ name, RuleText.keys rule = .ok [name]) ∧
      RuleText.check refused = .error (.malformedRule refused .notOneRule) ∧
      ∃ state, InsertionState.ofHtml (after { nonce } calls).document.toHtml = .ok state ∧
        state.keys.Perm (after { nonce } calls).state.keys ∧
        ensureInserted { state } [print, hover, print] = (.ok 0, { state }) := by
  intro nonce hover print refused calls
  have hhover : RuleText.keys hover = .ok ["_30l313q2"] :=
    @keys_of_rule _ "._30l313q2:hover" "color:blue" _ (by decide +kernel) (by decide +kernel)
      (by decide +kernel) (by decide +kernel)
  have hrefused : RuleText.keys refused = .ok ["_1e0c1txw"] :=
    @keys_of_rule _ "._1e0c1txw" "top:0" _ (by decide +kernel) (by decide +kernel)
      (by decide +kernel) (by decide +kernel)
  have hprint : RuleText.keys print = .ok ["_syaz5scu"] := by
    have hchars : print.toList = bracedChars "@media print".toList
        (bracedChars "._syaz5scu".toList "color:red".toList) := by decide +kernel
    have hclass : firstClass? "._syaz5scu".toList = some "_syaz5scu".toList := by decide +kernel
    rw [keys_of_splitChars (by decide +kernel), hchars, keysOf_atRule (by decide +kernel)
      (by decide +kernel) (by decide +kernel), keysOf_rule (by decide +kernel) (by decide) hclass,
      String.ofList_toList]
  have hrules : ∀ rules ∈ calls, ∀ rule ∈ rules,
      hasText "</style>" rule = false ∧ ∃ name, RuleText.keys rule = .ok [name] := by
    simp only [calls, List.forall_mem_cons, List.not_mem_nil, false_implies, implies_true, and_true]
    exact ⟨⟨⟨by decide +kernel, _, hhover⟩, by decide +kernel, _, hprint⟩, by decide +kernel, _,
      hrefused⟩
  have hnonce : ∀ value, nonce = some value → '>' ∉ value.toList := by
    intro value hvalue
    rw [← Option.some.inj hvalue]
    decide
  obtain ⟨state, hpage, hkeys, hclient⟩ := hydration_exact nonce calls hnonce hrules
  refine ⟨hrules, by decide +kernel, state, hpage, hkeys, hclient .empty none _ ?_⟩
  intro rule hrule
  have hcheck : ∀ rule ∈ [hover, print], RuleText.check (trimmed rule) = .ok () := by decide +kernel
  refine List.mem_append_left _ ?_
  rw [accepted_of_check (records_empty nonce) hcheck]
  simp only [List.mem_cons, List.not_mem_nil, or_false] at hrule ⊢
  rcases hrule with rfl | rfl | rfl
  · exact Or.inr rfl
  · exact Or.inl rfl
  · exact Or.inr rfl

end Manager

end AtomicStyle

import AtomicStyle.Proofs.Naming
import AtomicStyle.Proofs.Searching

/-!
# Values with run-time parts

A run-time part of a value becomes a reference to a variable.  Characters of the texts around it may
move into the variable, so a reference stands for more than its part.  `Assembled` says once what
the text of a value is made of: pieces of the texts, and references that have taken the pieces
between.

Results:
1. `assembled_valueText`: the text of every value is made in this way.
2. `Assembled.map_vars`, `Assembled.infix_text`: every run-time part has its variable and a
   reference in the text.
3. `substitute_valueText`: with the values of the variables in the place of their references, the
   text is the declared value with the run-time texts in it.
-/

namespace AtomicStyle

open AtomicStyle.Text

/-! ## Run-time parts -/

/-- The expression of a run-time part. -/
def ValuePart.ref? : ValuePart → Option DynamicRef
  | .text _ => none
  | .dynamic ref => some ref

/-- The characters that a part stands for, given the texts of run-time expressions. -/
def ValuePart.filled (runtime : DynamicRef → String) : ValuePart → List Char
  | .text s => s.toList
  | .dynamic ref => (runtime ref).toList

/-- The run-time parts of a declared value, in order. -/
def Declaration.refs (d : Declaration) : List DynamicRef :=
  d.value.filterMap ValuePart.ref?

/-- The declared value with texts in the place of its run-time parts. -/
def Declaration.filled (d : Declaration) (runtime : DynamicRef → String) : String :=
  String.ofList (d.value.flatMap (·.filled runtime))

/-- The texts of a value after a given text; texts that follow each other are one. -/
def textRuns (pending : String) : List ValuePart → List String
  | [] => [pending]
  | .text s :: rest => textRuns (pending ++ s) rest
  | .dynamic _ :: rest => pending :: textRuns "" rest

/-! ## What moves into a variable -/

theorem eq_append_of_dropSign? {out rest : List Char} (h : dropSign? out = some rest) :
    out = rest ++ ['-'] := by
  unfold dropSign? at h
  split at h
  · next hout =>
    cases h
    simpa using congrArg List.reverse hout
  · next c chars hout =>
    split at h
    · cases h
      simpa using congrArg List.reverse hout
    · cases h
  · cases h

/-- What a variable takes is cut off the end of one text and the begin of the other, and it is no
parenthesis that is cut off the end. -/
structure Absorbed.Cut (absorbed : Absorbed) (out next : List Char) : Prop where
  out_eq : out = absorbed.out ++ absorbed.before
  next_eq : next = absorbed.after ++ absorbed.next
  not_mem : ')' ∉ absorbed.before

theorem cut_absorb (out : List Char) (next : Option (List Char)) :
    (absorb out next).Cut out (next.getD []) := by
  unfold absorb
  split
  next rest sign hpair =>
  -- The sign is cut off first, and quotes are looked for in what is left.
  obtain ⟨hout, hsign⟩ : out = rest ++ sign ∧ ')' ∉ sign := by
    split at hpair
    · next hdrop =>
      cases hpair
      exact ⟨eq_append_of_dropSign? hdrop, by decide⟩
    · cases hpair
      exact ⟨(List.append_nil out).symm, List.not_mem_nil⟩
  cases next with
  | none => exact ⟨hout, rfl, hsign⟩
  | some next =>
    have hunit := (List.takeWhile_append_dropWhile (p := isUnitChar) (l := next)).symm
    dsimp only [Option.getD_some]
    split
    · next q c tail hlast hnext =>
      rw [hnext] at hunit
      split
      · next hquote =>
        rw [Bool.and_eq_true, beq_iff_eq] at hquote
        obtain ⟨hq, rfl⟩ := hquote
        obtain ⟨front, rfl⟩ := List.getLast?_eq_some_iff.mp hlast
        refine ⟨?_, ?_, ?_⟩
        · simpa using hout
        · simpa using hunit
        · refine List.not_mem_cons_of_ne_of_not_mem ?_ hsign
          rintro rfl
          exact absurd hq (by decide)
      · exact ⟨hout, hunit, hsign⟩
    · exact ⟨hout, hunit, hsign⟩

/-! ## The text of a value -/

/-- The variable of a run-time part with what has moved into it. -/
def variableOf (context : Context) (property : String) (ref : DynamicRef)
    (before after : List Char) : CssVariable :=
  ⟨variableName context property ref.slot, ref.source, String.ofList before, String.ofList after⟩

/-- `Assembled context property pending parts text vars`: after the text `pending`, the parts of a
value give the text and the variables.  A variable takes a piece from the end of the text before it,
and a piece from the begin of the text that follows it in the value, if there is one. -/
inductive Assembled (context : Context) (property : String) :
    List Char → List ValuePart → List Char → List CssVariable → Prop
  | nil (pending : List Char) : Assembled context property pending [] pending []
  | text {pending text : List Char} {s : String} {rest : List ValuePart} {vars : List CssVariable} :
      Assembled context property (pending ++ s.toList) rest text vars →
      Assembled context property pending (.text s :: rest) text vars
  | glued {kept before after remaining text : List Char} {ref : DynamicRef} {s : String}
      {rest : List ValuePart} {vars : List CssVariable} :
      s.toList = after ++ remaining → Assembled context property remaining rest text vars →
      Assembled context property (kept ++ before) (.dynamic ref :: .text s :: rest)
        (kept ++ ((variableRef (variableName context property ref.slot)).toList ++ text))
        (variableOf context property ref before after :: vars)
  | alone {kept before text : List Char} {ref : DynamicRef} {rest : List ValuePart}
      {vars : List CssVariable} :
      Assembled context property [] rest text vars →
      Assembled context property (kept ++ before) (.dynamic ref :: rest)
        (kept ++ ((variableRef (variableName context property ref.slot)).toList ++ text))
        (variableOf context property ref before [] :: vars)

/-- A text that is empty or ends in a parenthesis, as every reference does.  Nothing is cut off its
end. -/
def EndsClosed (lead : List Char) : Prop :=
  ∀ c, lead.getLast? = some c → c = ')'

theorem endsClosed_append_variableRef (out : List Char) (name : String) :
    EndsClosed (out ++ (variableRef name).toList) := by
  intro c hc
  have hlast : (variableRef name).toList = ("var(" ++ name).toList ++ [')'] := by
    rw [variableRef, String.toList_append]
    rfl
  rw [hlast, ← List.append_assoc, List.getLast?_concat] at hc
  exact (Option.some.inj hc).symm

/-- A piece without a parenthesis is cut off what stands after a closed text. -/
theorem exists_eq_append_of_endsClosed {lead pending out before : List Char} (hlead : EndsClosed lead)
    (h : lead ++ pending = out ++ before) (hbefore : ')' ∉ before) :
    ∃ kept, out = lead ++ kept ∧ pending = kept ++ before := by
  rcases List.append_eq_append_iff.mp h with ⟨kept, hout, hpending⟩ | ⟨piece, hlast, hcut⟩
  · exact ⟨kept, hout, hpending⟩
  · rcases List.eq_nil_or_concat piece with rfl | ⟨front, c, rfl⟩
    · exact ⟨[], by simpa using hlast.symm, by simpa using hcut.symm⟩
    · rw [List.concat_eq_append] at hlast hcut
      have hc : c = ')' := hlead c (by rw [hlast, ← List.append_assoc, List.getLast?_concat])
      subst hc
      exact absurd (by rw [hcut]; simp) hbefore

theorem assembled_valueTextFrom (context : Context) (property : String) {lead : List Char}
    (hlead : EndsClosed lead) (pending : List Char) (parts : List ValuePart) :
    ∃ text, (valueTextFrom context property (lead ++ pending) parts).1 = lead ++ text ∧
      Assembled context property pending parts text
        (valueTextFrom context property (lead ++ pending) parts).2 := by
  generalize hout : lead ++ pending = out
  fun_induction valueTextFrom context property out parts generalizing lead pending with
  | case1 out => exact ⟨pending, hout.symm, .nil pending⟩
  | case2 out s rest ih =>
    obtain ⟨text, heq, hrest⟩ := ih hlead (pending ++ s.toList) (by rw [← hout, List.append_assoc])
    exact ⟨text, heq, .text hrest⟩
  | case3 out ref next rest absorbed v text vars hrec =>
    rename_i ih
    obtain ⟨hcut, hnext, hnot⟩ := cut_absorb out (some next.toList)
    obtain ⟨kept, hkept, rfl⟩ := exists_eq_append_of_endsClosed hlead (hout.trans hcut) hnot
    obtain ⟨tail, heq, hrest⟩ := ih (endsClosed_append_variableRef absorbed.out v.name)
      absorbed.next rfl
    rw [hrec] at heq hrest
    refine ⟨kept ++ ((variableRef v.name).toList ++ tail), ?_, .glued hnext hrest⟩
    have hlast : absorbed.out = lead ++ kept := hkept
    rw [heq, hlast]
    simp only [List.append_assoc]
  | case4 out ref rest hnext absorbed v text vars hrec =>
    rename_i ih
    obtain ⟨hcut, -, hnot⟩ := cut_absorb out none
    obtain ⟨kept, hkept, rfl⟩ := exists_eq_append_of_endsClosed hlead (hout.trans hcut) hnot
    obtain ⟨tail, heq, hrest⟩ := ih (endsClosed_append_variableRef absorbed.out v.name) []
      (List.append_nil _)
    rw [hrec] at heq hrest
    refine ⟨kept ++ ((variableRef v.name).toList ++ tail), ?_, .alone hrest⟩
    have hlast : absorbed.out = lead ++ kept := hkept
    rw [heq, hlast]
    simp only [List.append_assoc]

/-- The text of a value is made of its texts and of references to its variables. -/
theorem assembled_valueText (context : Context) (d : Declaration) :
    Assembled context d.property [] d.value (valueText context d).1.toList
      (valueText context d).2 := by
  have hclosed : EndsClosed [] := by
    intro c hc
    cases hc
  obtain ⟨text, heq, h⟩ := assembled_valueTextFrom context d.property hclosed [] d.value
  unfold valueText
  rw [String.toList_ofList]
  rw [List.nil_append] at heq h
  rwa [heq]

namespace Assembled

variable {context : Context} {property : String} {pending text : List Char}
  {parts : List ValuePart} {vars : List CssVariable}

/-- Every run-time part has its variable, in order. -/
theorem map_vars (h : Assembled context property pending parts text vars) :
    (vars.map fun v => (v.name, v.expression)) =
      (parts.filterMap ValuePart.ref?).map fun ref =>
        (variableName context property ref.slot, ref.source) := by
  induction h with
  | nil => rfl
  | text _ ih => exact ih
  | glued _ _ ih => exact congrArg (List.cons _) ih
  | alone _ ih => exact congrArg (List.cons _) ih

/-- Every run-time part has its reference in the text. -/
theorem infix_text (h : Assembled context property pending parts text vars) {ref : DynamicRef}
    (href : ref ∈ parts.filterMap ValuePart.ref?) :
    (variableRef (variableName context property ref.slot)).toList <:+: text := by
  have hlater : ∀ {s kept reference t : List Char}, s <:+: t → s <:+: kept ++ (reference ++ t) :=
    fun hs => hs.trans ((List.suffix_append _ _).trans (List.suffix_append _ _)).isInfix
  induction h with
  | nil => cases href
  | text _ ih => exact ih href
  | @glued kept before after remaining text first s rest vars _ _ ih =>
    rcases List.mem_cons.mp (show ref ∈ first :: rest.filterMap ValuePart.ref? from href) with
      rfl | href
    · exact ⟨kept, text, List.append_assoc ..⟩
    · exact hlater (ih href)
  | @alone kept before text first rest vars _ ih =>
    rcases List.mem_cons.mp (show ref ∈ first :: rest.filterMap ValuePart.ref? from href) with
      rfl | href
    · exact ⟨kept, text, List.append_assoc ..⟩
    · exact hlater (ih href)

end Assembled

theorem map_vars_valueText (context : Context) (d : Declaration) :
    ((valueText context d).2.map fun v => (v.name, v.expression)) =
      d.refs.map fun ref => (variableName context d.property ref.slot, ref.source) :=
  (assembled_valueText context d).map_vars

/-! ## Names of variables -/

/-- How the reference to a variable of a run-time part begins. -/
def referenceLead : String := "var(--_"

theorem toList_variableName (context : Context) (property : String) (slot : Nat) :
    (variableName context property slot).toList =
      "--_".toList ++ Digest.digits (Digest.ofText 0
        (context.label ++ context.selector ++ property ++ toString slot)).toNat := by
  rw [variableName, Digest.hash, String.toList_append]
  exact congrArg _ (String.toList_ofList ..)

theorem toList_variableRef (name : String) :
    (variableRef name).toList = "var(".toList ++ (name.toList ++ [')']) := by
  have hend : ")".toList = [')'] := rfl
  rw [variableRef, String.toList_append, String.toList_append, hend, List.append_assoc]

/-- A name that a run-time part can have: no parenthesis ends its reference early. -/
structure IsVariableName (name : String) : Prop where
  lead : "--_".toList <+: name.toList
  not_mem : ')' ∉ name.toList

theorem isVariableName_variableName (context : Context) (property : String) (slot : Nat) :
    IsVariableName (variableName context property slot) where
  lead := by
    rw [toList_variableName]
    exact List.prefix_append _ _
  not_mem := by
    rw [toList_variableName]
    intro hmem
    rcases List.mem_append.mp hmem with hmem | hmem
    · exact absurd hmem (by decide)
    · exact absurd (Digest.isTokenChar_of_mem_digits hmem) (by decide)

namespace IsVariableName

variable {name other : String}

theorem begins (h : IsVariableName name) :
    referenceLead.toList <+: (variableRef name).toList := by
  obtain ⟨digits, hdigits⟩ := h.lead
  refine ⟨digits ++ [')'], ?_⟩
  rw [toList_variableRef, ← hdigits, List.append_assoc]
  rfl

/-- Where a reference stands, no other one does. -/
theorem eq_of_begin (h : IsVariableName name) (h' : IsVariableName other) {rest : List Char}
    (hbegin : (variableRef other).toList <+: (variableRef name).toList ++ rest) : other = name := by
  obtain ⟨tail, htail⟩ := hbegin
  simp only [toList_variableRef, List.append_assoc, List.append_right_inj, List.singleton_append]
    at htail
  have hnames := congrArg (List.takeWhile (· != ')')) htail
  rw [takeWhile_bne_append h'.not_mem, takeWhile_bne_append h.not_mem] at hnames
  exact String.toList_inj.mp hnames

end IsVariableName

/-! ## Values of variables -/

/-- Puts the values of variables into the places of their references, from left to right.  The first
`skip` characters belong to a reference that has been replaced. -/
def substituteFrom (values : List (String × String)) : Nat → List Char → List Char
  | _, [] => []
  | skip + 1, _ :: rest => substituteFrom values skip rest
  | 0, c :: rest =>
    match values.find? fun value => (variableRef value.1).toList.isPrefixOf (c :: rest) with
    | some value =>
      value.2.toList ++ substituteFrom values ((variableRef value.1).toList.length - 1) rest
    | none => c :: substituteFrom values 0 rest

/-- A text with the values of variables in the place of their references. -/
def substitute (values : List (String × String)) (text : String) : String :=
  String.ofList (substituteFrom values 0 text.toList)

/-- What the variables of a value are set to: each to the text of its run-time part, with what stood
around that part. -/
def settings (runtime : DynamicRef → String) (vars : List CssVariable) (refs : List DynamicRef) :
    List (String × String) :=
  (vars.zip refs).filterMap fun (v, ref) =>
    (ClassName.variableText v.before v.after (some (runtime ref))).map (v.name, ·)

theorem substituteFrom_append (values : List (String × String)) (passed rest : List Char) :
    substituteFrom values passed.length (passed ++ rest) = substituteFrom values 0 rest := by
  induction passed with
  | nil => rfl
  | cons c passed ih => exact ih

section Substitution

variable {values : List (String × String)}

/-- A text in which no reference begins is passed over, before a reference and at the end. -/
theorem substituteFrom_plain (hnames : ∀ value ∈ values, IsVariableName value.1) {s t : List Char}
    (hs : cut? referenceLead.toList s = none) (ht : ∀ c, t.head? = some c → c = 'v') :
    substituteFrom values 0 (s ++ t) = s ++ substituteFrom values 0 t := by
  induction s with
  | nil => rfl
  | cons c s ih =>
    obtain ⟨hnot, hrest⟩ := cut?_cons_eq_none.mp hs
    have hnone : values.find? (fun value =>
        (variableRef value.1).toList.isPrefixOf (c :: (s ++ t))) = none := by
      rw [List.find?_eq_none]
      intro value hvalue hfound
      rw [List.isPrefixOf_iff_prefix, ← List.cons_append] at hfound
      have hlead := (hnames value hvalue).begins.trans hfound
      rcases List.prefix_or_prefix_of_prefix hlead (List.prefix_append (c :: s) t) with h | h
      · exact hnot h
      · -- The reference would go on in what follows, but it has no second `v`.
        obtain ⟨after, hafter⟩ := h
        have hinside : s ++ after = "ar(--_".toList := (List.cons.inj hafter).2
        have hnov : 'v' ∉ after := by
          intro hmem
          have hv : 'v' ∈ "ar(--_".toList := hinside ▸ List.mem_append_right s hmem
          exact absurd hv (by decide)
        rw [← hafter] at hlead
        have hnext : after <+: t := (List.prefix_append_right_inj (c :: s)).mp hlead
        cases after with
        | nil => exact hnot (by rw [← hafter, List.append_nil])
        | cons d after =>
          obtain ⟨rest, rfl⟩ := hnext
          exact hnov (by rw [ht d rfl]; exact List.mem_cons_self)
    rw [List.cons_append, substituteFrom, hnone]
    exact congrArg (List.cons c) (ih hrest)

theorem substituteFrom_variableRef (hnames : ∀ value ∈ values, IsVariableName value.1)
    (hnodup : (values.map Prod.fst).Nodup) {name value : String} (hmem : (name, value) ∈ values)
    (rest : List Char) :
    substituteFrom values 0 ((variableRef name).toList ++ rest) =
      value.toList ++ substituteFrom values 0 rest := by
  have hbegins : ∀ entry ∈ values,
      (variableRef entry.1).toList.isPrefixOf ((variableRef name).toList ++ rest) = true →
        entry = (name, value) := by
    intro entry hentry hbegin
    have hname : entry.1 = name :=
      (hnames _ hmem).eq_of_begin (hnames _ hentry) (List.isPrefixOf_iff_prefix.mp hbegin)
    exact List.inj_on_of_nodup_map hnodup hentry hmem hname
  have hfind : values.find? (fun entry =>
      (variableRef entry.1).toList.isPrefixOf ((variableRef name).toList ++ rest)) =
        some (name, value) := by
    cases hfound : values.find? (fun entry =>
        (variableRef entry.1).toList.isPrefixOf ((variableRef name).toList ++ rest)) with
    | none =>
      have hself := List.find?_eq_none.mp hfound _ hmem
      exact absurd (List.isPrefixOf_iff_prefix.mpr (List.prefix_append _ _)) hself
    | some entry =>
      have hbegin := List.find?_some hfound
      exact congrArg some (hbegins entry (List.mem_of_find?_eq_some hfound) hbegin)
  obtain ⟨chars, hchars⟩ : ∃ chars, (variableRef name).toList = 'v' :: chars :=
    ⟨_, toList_variableRef name⟩
  rw [hchars, List.cons_append] at hfind ⊢
  rw [substituteFrom, hfind]
  dsimp only
  rw [hchars, List.length_cons, Nat.add_sub_cancel, substituteFrom_append]

/-- A reference after a text in which none begins is replaced. -/
theorem substituteFrom_kept (hnames : ∀ value ∈ values, IsVariableName value.1)
    (hnodup : (values.map Prod.fst).Nodup) {name value : String} (hmem : (name, value) ∈ values)
    {kept : List Char} (hkept : cut? referenceLead.toList kept = none) (rest : List Char) :
    substituteFrom values 0 (kept ++ ((variableRef name).toList ++ rest)) =
      kept ++ (value.toList ++ substituteFrom values 0 rest) := by
  have hhead : ∀ c, ((variableRef name).toList ++ rest).head? = some c → c = 'v' := by
    intro c hc
    rw [toList_variableRef] at hc
    exact (Option.some.inj hc).symm
  rw [substituteFrom_plain hnames hkept hhead, substituteFrom_variableRef hnames hnodup hmem]

end Substitution

/-! ## Values at run time -/

theorem textRuns_append (lead pending : String) (parts : List ValuePart) :
    ∃ first rest, textRuns pending parts = first :: rest ∧
      textRuns (lead ++ pending) parts = (lead ++ first) :: rest := by
  induction parts generalizing pending with
  | nil => exact ⟨pending, [], rfl, rfl⟩
  | cons part parts ih =>
    cases part with
    | text s =>
      rw [textRuns, textRuns, String.append_assoc]
      exact ih (pending ++ s)
    | dynamic ref => exact ⟨pending, _, rfl, rfl⟩

/-- No reference begins in a text or in the texts after it, those that follow each other read as
one. -/
def Plain (pending : List Char) (parts : List ValuePart) : Prop :=
  ∀ run ∈ textRuns (String.ofList pending) parts, cut? referenceLead.toList run.toList = none

namespace Plain

variable {pending : List Char} {parts : List ValuePart}

theorem text {s : String} (h : Plain pending (.text s :: parts)) :
    Plain (pending ++ s.toList) parts := by
  unfold Plain
  rw [String.ofList_append, String.ofList_toList]
  exact h

theorem dynamic {ref : DynamicRef} (h : Plain pending (.dynamic ref :: parts)) :
    cut? referenceLead.toList pending = none ∧ Plain [] parts := by
  refine ⟨?_, fun run hrun => h run (List.mem_cons_of_mem _ hrun)⟩
  have hfirst := h _ List.mem_cons_self
  rwa [String.toList_ofList] at hfirst

/-- Taking characters away from the begin makes no reference. -/
theorem of_append {lead : List Char} (h : Plain (lead ++ pending) parts) : Plain pending parts := by
  obtain ⟨first, rest, hruns, hmore⟩ :=
    textRuns_append (String.ofList lead) (String.ofList pending) parts
  unfold Plain at h ⊢
  rw [String.ofList_append, hmore] at h
  rw [hruns]
  intro run hrun
  rcases List.mem_cons.mp hrun with rfl | hrun
  · have hfirst := h _ List.mem_cons_self
    rw [String.toList_append] at hfirst
    exact cut?_eq_none_of_part (List.suffix_append _ _).isInfix hfirst
  · exact h run (List.mem_cons_of_mem _ hrun)

end Plain

theorem settings_subset {runtime : DynamicRef → String} {context : Context} {property : String}
    {ref : DynamicRef} {before after : List Char} {vars : List CssVariable} {refs : List DynamicRef}
    {values : List (String × String)}
    (h : settings runtime (variableOf context property ref before after :: vars) (ref :: refs) ⊆
      values) :
    (variableName context property ref.slot,
        String.ofList before ++ runtime ref ++ String.ofList after) ∈ values ∧
      settings runtime vars refs ⊆ values :=
  List.cons_subset.mp h

/-- Putting values into an assembled text gives the parts back, each with the text it has at run
time. -/
theorem Assembled.substituteFrom_eq {context : Context} {property : String}
    {pending text : List Char} {parts : List ValuePart} {vars : List CssVariable}
    (h : Assembled context property pending parts text vars) (runtime : DynamicRef → String)
    {values : List (String × String)} (hnames : ∀ value ∈ values, IsVariableName value.1)
    (hnodup : (values.map Prod.fst).Nodup)
    (hsettings : settings runtime vars (parts.filterMap ValuePart.ref?) ⊆ values)
    (hplain : Plain pending parts) :
    substituteFrom values 0 text = pending ++ parts.flatMap (·.filled runtime) := by
  induction h with
  | nil pending =>
    have hend : ∀ c : Char, ([] : List Char).head? = some c → c = 'v' := by
      intro c hc
      cases hc
    have hpending := hplain _ (List.mem_singleton_self _)
    rw [String.toList_ofList] at hpending
    simpa [substituteFrom] using substituteFrom_plain hnames hpending hend
  | text _ ih =>
    rw [ih hsettings hplain.text, List.append_assoc]
    rfl
  | @glued kept before after remaining text ref s rest vars hnext _ ih =>
    obtain ⟨hpending, hrest⟩ := hplain.dynamic
    obtain ⟨hfirst, hothers⟩ := settings_subset hsettings
    have hlater := ih hothers
      (hnext ▸ hrest.text : Plain (after ++ remaining) rest).of_append
    have hkept := cut?_eq_none_of_part (List.prefix_append kept before).isInfix hpending
    rw [substituteFrom_kept hnames hnodup hfirst hkept, hlater]
    simp [ValuePart.filled, hnext]
  | @alone kept before text ref rest vars _ ih =>
    obtain ⟨hpending, hrest⟩ := hplain.dynamic
    obtain ⟨hfirst, hothers⟩ := settings_subset hsettings
    have hlater := ih hothers hrest
    have hkept := cut?_eq_none_of_part (List.prefix_append kept before).isInfix hpending
    rw [substituteFrom_kept hnames hnodup hfirst hkept, hlater]
    simp [ValuePart.filled]

theorem map_fst_settings (runtime : DynamicRef → String) {vars : List CssVariable}
    {refs : List DynamicRef} (hlength : vars.length = refs.length) :
    (settings runtime vars refs).map Prod.fst = vars.map CssVariable.name := by
  induction vars generalizing refs with
  | nil => rfl
  | cons v vars ih =>
    cases refs with
    | nil => cases hlength
    | cons ref refs => exact congrArg (List.cons v.name) (ih (Nat.succ.inj hlength))

/-- **Run-time values.**  Take a declaration whose run-time parts have different variables, and
whose texts show no reference, those that follow each other read as one.  Whatever the run-time
parts turn out to be: setting each variable to the text of its part, with what has moved into the
variable, and putting these values in the place of the references gives the declared value with the
texts in it. -/
theorem substitute_valueText (context : Context) (d : Declaration) (runtime : DynamicRef → String)
    (hnames : (d.refs.map fun ref => variableName context d.property ref.slot).Nodup)
    (hplain : ∀ run ∈ textRuns "" d.value, hasText "var(--_" run = false) :
    substitute (settings runtime (valueText context d).2 d.refs) (valueText context d).1 =
      d.filled runtime := by
  have hvars : (valueText context d).2.map CssVariable.name =
      d.refs.map fun ref => variableName context d.property ref.slot := by
    simpa [Function.comp_def] using congrArg (List.map Prod.fst) (map_vars_valueText context d)
  have hkeys : (settings runtime (valueText context d).2 d.refs).map Prod.fst =
      d.refs.map fun ref => variableName context d.property ref.slot := by
    rw [map_fst_settings runtime (by simpa using congrArg List.length hvars), hvars]
  have hvalues : ∀ value ∈ settings runtime (valueText context d).2 d.refs,
      IsVariableName value.1 := by
    intro value hvalue
    have hkey := List.mem_map_of_mem (f := Prod.fst) hvalue
    rw [hkeys] at hkey
    obtain ⟨ref, -, hname⟩ := List.mem_map.mp hkey
    exact hname ▸ isVariableName_variableName ..
  have htexts : Plain [] d.value := fun run hrun => hasText_eq_false_iff.mp (hplain run hrun)
  rw [substitute, Declaration.filled, (assembled_valueText context d).substituteFrom_eq runtime
    hvalues (hkeys ▸ hnames) (List.Subset.refl _) htexts, List.nil_append]

/-- A label in quotes, an offset with a sign and two numbers in a row, of which the second has a
unit. -/
def labelledOffset : Declaration :=
  ⟨"content", [.text "\"", .dynamic ⟨⟨Span.none, "label"⟩, 0⟩, .text "\" (-",
    .dynamic ⟨⟨Span.none, "x"⟩, 1⟩, .dynamic ⟨⟨Span.none, "y"⟩, 2⟩, .text "px)"], false⟩

/-- The quotes, the sign and the unit have moved into the variables, and come back. -/
theorem substitute_valueText_labelledOffset :
    let context : Context := ⟨[⟨"media", "print"⟩], "&:hover"⟩
    let runtime : DynamicRef → String := fun ref => "<" ++ ref.source.text ++ ">"
    (labelledOffset.refs.map fun ref => variableName context "content" ref.slot).Nodup ∧
      (∀ run ∈ textRuns "" labelledOffset.value, hasText "var(--_" run = false) ∧
      ((valueText context labelledOffset).2.map fun v => (v.before, v.after)) =
        [("\"", "\""), ("-", ""), ("", "px")] ∧
      substitute (settings runtime (valueText context labelledOffset).2 labelledOffset.refs)
        (valueText context labelledOffset).1 = "\"<label>\" (-<x><y>px)" := by
  intro context runtime
  have hnames :
      (labelledOffset.refs.map fun ref => variableName context "content" ref.slot).Nodup := by
    decide +kernel
  have hplain : ∀ run ∈ textRuns "" labelledOffset.value, hasText "var(--_" run = false := by
    decide +kernel
  refine ⟨hnames, hplain, by decide +kernel, ?_⟩
  exact (substitute_valueText context labelledOffset runtime hnames hplain).trans
    (by decide +kernel)

/-- Two texts in a row can show a reference of the declaration itself, though neither does alone.
It is then replaced like the one of the run-time part. -/
theorem texts_in_a_row_replaced :
    let d : Declaration :=
      ⟨"color", [.text "var(--", .text "_1bpabdv)", .dynamic ⟨⟨Span.none, "a"⟩, 0⟩], false⟩
    let runtime : DynamicRef → String := fun _ => "red"
    (d.refs.map fun ref => variableName Context.root "color" ref.slot).Nodup ∧
      (∀ s, .text s ∈ d.value → hasText "var(--_" s = false) ∧
      d.filled runtime = "var(--_1bpabdv)red" ∧
      substitute (settings runtime (valueText Context.root d).2 d.refs)
        (valueText Context.root d).1 = "redred" := by
  intro d runtime
  refine ⟨by decide +kernel, fun s hs => ?_, by decide +kernel, by decide +kernel⟩
  have htexts : s = "var(--" ∨ s = "_1bpabdv)" := by simpa [d] using hs
  rcases htexts with rfl | rfl
  · decide +kernel
  · decide +kernel

end AtomicStyle

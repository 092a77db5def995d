import AtomicStyle.Proofs.Sealing
import AtomicStyle.Style.Entry

/-!
# Declarations in CSS text

The name of a property and the text of its value, written with a colon between them, are read as
the declaration of that property.  The name is the CSS name of a key, and the value is collapsed
without the blanks at its end.

Results:
1. `isName_propertyName`: the CSS name of a key is read as a name.
2. `simple_numberText`: the texts of numbers have no character with a meaning in CSS text.
3. `Reading.declare_eq`: what a prelude with a colon declares.
-/

namespace AtomicStyle.CssText

open AtomicStyle.Css AtomicStyle.Text

/-! ## Small letters -/

theorem toNat_of_isUpper {c : Char} (h : c.isUpper = true) : 65 ≤ c.toNat ∧ c.toNat < 91 := by
  have hrange := of_decide_eq_true h
  exact ⟨UInt32.le_iff_toNat_le.mp hrange.1, Nat.lt_succ_of_le (UInt32.le_iff_toNat_le.mp hrange.2)⟩

theorem toLower_of_not_isUpper {c : Char} (h : c.isUpper = false) : c.toLower = c := by
  unfold Char.toLower
  split
  · next hrange => exact absurd hrange (of_decide_eq_false h)
  · rfl

/-- The small letter of a capital has no meaning in CSS text, and it is small. -/
theorem isSimple_toLower {c : Char} (h : c.isUpper = true) :
    isSimple c.toLower = true ∧ c.toLower.toLower = c.toLower := by
  have hall : ∀ n < 91, 65 ≤ n → isSimple (Char.ofNat n).toLower = true ∧
      (Char.ofNat n).toLower.toLower = (Char.ofNat n).toLower := by decide
  obtain ⟨hlow, hhigh⟩ := toNat_of_isUpper h
  have hc := hall c.toNat hhigh hlow
  rwa [Char.ofNat_toNat] at hc

/-! ## Dashed names -/

theorem mem_dashed {c d : Char} (h : c ∈ dashed d) :
    (c = d ∨ isSimple c = true) ∧ c.toLower = c := by
  unfold dashed at h
  cases hd : d.isUpper with
  | true =>
    rw [hd] at h
    have hmem : c = '-' ∨ c = d.toLower := by simpa using h
    rcases hmem with rfl | rfl
    · exact ⟨Or.inr (by decide), by decide⟩
    · exact ⟨Or.inr (isSimple_toLower hd).1, (isSimple_toLower hd).2⟩
  | false =>
    rw [hd] at h
    cases List.mem_singleton.mp h
    exact ⟨Or.inl rfl, toLower_of_not_isUpper hd⟩

theorem mem_flatMap_dashed {c : Char} {key : List Char} (h : c ∈ key.flatMap dashed) :
    (c ∈ key ∨ isSimple c = true) ∧ c.toLower = c := by
  obtain ⟨d, hd, hmem⟩ := List.mem_flatMap.mp h
  obtain ⟨hc, hlower⟩ := mem_dashed hmem
  refine ⟨?_, hlower⟩
  rcases hc with rfl | hc
  · exact Or.inl hd
  · exact Or.inr hc

theorem isBare_flatMap_dashed {key : List Char} (h : isBare key = true) :
    isBare (key.flatMap dashed) = true := by
  fun_induction isBare key with
  | case1 => rfl
  | case2 => cases h
  | case3 c rest ih =>
    show isBare ('\\' :: (dashed c ++ rest.flatMap dashed)) = true
    unfold dashed
    cases hc : c.isUpper with
    | true =>
      show isBare (c.toLower :: rest.flatMap dashed) = true
      rw [isBare_cons_of_isSimple (isSimple_toLower hc).1]
      exact ih h
    | false => exact ih h
  | case4 c rest hlone hescape ih =>
    rw [Bool.and_eq_true] at h
    have hrest := ih h.2
    rw [List.flatMap_cons]
    unfold dashed
    cases hc : c.isUpper with
    | true =>
      show isBare ('-' :: c.toLower :: rest.flatMap dashed) = true
      rw [isBare_cons_of_isSimple (by decide), isBare_cons_of_isSimple (isSimple_toLower hc).1]
      exact hrest
    | false =>
      have hne : c ≠ '\\' := by
        rintro rfl
        cases rest with
        | nil => exact hlone rfl rfl
        | cons d rest => exact hescape d rest rfl rfl
      show isBare (c :: rest.flatMap dashed) = true
      rw [isBare_cons hne, hrest, h.1]
      rfl

theorem head?_flatMap_dashed {key : List Char} {c : Char} (hc : c ≠ '-')
    (h : (key.flatMap dashed).head? = some c) : key.head? = some c := by
  cases key with
  | nil => cases h
  | cons d key =>
    rw [List.flatMap_cons] at h
    unfold dashed at h
    cases hd : d.isUpper with
    | true =>
      rw [hd] at h
      cases h
      exact absurd rfl hc
    | false =>
      rw [hd] at h
      exact h

theorem noComment_flatMap_dashed {key : List Char} (h : NoComment key) :
    NoComment (key.flatMap dashed) := by
  induction key with
  | nil => exact h
  | cons c key ih =>
    obtain ⟨hslash, hrest⟩ := noComment_cons.mp h
    rw [List.flatMap_cons]
    unfold dashed
    cases hc : c.isUpper with
    | true =>
      show NoComment ('-' :: c.toLower :: key.flatMap dashed)
      rw [noComment_cons_of_isSimple (by decide), noComment_cons_of_isSimple (isSimple_toLower hc).1]
      exact ih hrest
    | false =>
      refine noComment_cons.mpr ⟨fun heq hstar => ?_, ih hrest⟩
      exact hslash heq (head?_flatMap_dashed (by decide) hstar)

/-! ## Names of properties -/

/-- What the reader of CSS text takes for the name of a property, as it is. -/
structure IsName (name : List Char) : Prop where
  ne_nil : name ≠ []
  noBlank : NoBlank name
  noAt : name.head? ≠ some '@'
  chars : ∀ c ∈ name, c ≠ ':' ∧ isUnpaired c = true
  isSealed : Sealed name
  small : isCustom (String.ofList name) = true ∨ name.map Char.toLower = name

/-- A dashed key after some small characters, with a capital at its start among these. -/
theorem exists_dashed_append {lead : List Char}
    (hlead : ∀ c ∈ lead, isSimple c = true ∧ c.toLower = c) (c : Char) (rest : List Char) :
    ∃ front back, lead ++ ((if isVendorKey (c :: rest) then dashed c else [c.toLower]) ++
        rest.flatMap dashed) = front ++ back.flatMap dashed ∧
      (∀ d ∈ front, isSimple d = true ∧ d.toLower = d) ∧
      (back = c :: rest ∨ front ≠ [] ∧ ∃ d, d.isUpper = true ∧ c :: rest = d :: back) := by
  cases hc : c.isUpper with
  | true =>
    have hsmall : ∀ d ∈ dashed c ++ [c.toLower], isSimple d = true ∧ d.toLower = d := by
      intro d hd
      have hmem : d = '-' ∨ d = c.toLower := by simpa [dashed, hc] using hd
      rcases hmem with rfl | rfl
      · decide
      · exact isSimple_toLower hc
    split
    · refine ⟨lead ++ dashed c, rest, by simp, fun d hd => ?_, Or.inr ⟨?_, c, hc, rfl⟩⟩
      · rcases List.mem_append.mp hd with hd | hd
        · exact hlead d hd
        · exact hsmall d (List.mem_append_left _ hd)
      · simp [dashed, hc]
    · refine ⟨lead ++ [c.toLower], rest, by simp, fun d hd => ?_, Or.inr ⟨by simp, c, hc, rfl⟩⟩
      rcases List.mem_append.mp hd with hd | hd
      · exact hlead d hd
      · exact hsmall d (List.mem_append_right _ hd)
  | false =>
    refine ⟨lead, c :: rest, ?_, hlead, Or.inl rfl⟩
    have hfirst : dashed c = [c.toLower] := by
      unfold dashed
      rw [hc, toLower_of_not_isUpper hc]
      rfl
    rw [List.flatMap_cons, hfirst, ite_self]

/-- The CSS name of a key is the dashed key after some small characters, with a capital at its start
among these. -/
theorem exists_propertyName {key : String} (hcustom : isCustom key = false) :
    ∃ front back, (propertyName key).toList = front ++ back.flatMap dashed ∧
      (∀ c ∈ front, isSimple c = true ∧ c.toLower = c) ∧
      (back = key.toList ∨ front ≠ [] ∧ ∃ c, c.isUpper = true ∧ key.toList = c :: back) := by
  have hnone : ∀ c ∈ ([] : List Char), isSimple c = true ∧ c.toLower = c := fun _ => nofun
  have hdash : ∀ c ∈ ['-'], isSimple c = true ∧ c.toLower = c :=
    List.all_iff_forall_prop.mp (by decide)
  unfold propertyName
  rw [hcustom]
  dsimp only
  rw [if_neg (by decide), String.toList_ofList]
  cases key.toList with
  | nil => exact ⟨[], [], rfl, hnone, Or.inl rfl⟩
  | cons c rest =>
    -- The dash in front stands for a prefix `ms` before a capital.
    dsimp only
    split
    · split
      · exact exists_dashed_append hdash c rest
      · exact exists_dashed_append hnone c rest
    · exact exists_dashed_append hnone c rest

theorem noBlank_of_isSelectorKey {key : String} (h : isSelectorKey key = false) :
    NoBlank key.toList := by
  unfold isSelectorKey at h
  rw [Bool.or_eq_false_iff, List.any_eq_false] at h
  intro c hc
  have hnone := h.1 c hc
  simp only [Bool.or_eq_true, not_or, Bool.not_eq_true] at hnone
  exact hnone.2

section Small

variable {key : String} (hcustom : isCustom key = false)

include hcustom

/-- A character of a CSS name is one of the key or has no meaning in CSS text, and it is small. -/
theorem mem_propertyName {c : Char} (h : c ∈ (propertyName key).toList) :
    (c ∈ key.toList ∨ isSimple c = true) ∧ c.toLower = c := by
  obtain ⟨front, back, hname, hfront, hback⟩ := exists_propertyName hcustom
  rw [hname] at h
  rcases List.mem_append.mp h with hc | hc
  · exact ⟨Or.inr (hfront c hc).1, (hfront c hc).2⟩
  · obtain ⟨hsource, hsmall⟩ := mem_flatMap_dashed hc
    refine ⟨hsource.imp_left fun hmem => ?_, hsmall⟩
    rcases hback with rfl | ⟨-, d, -, hkey⟩
    · exact hmem
    · rw [hkey]
      exact List.mem_cons_of_mem d hmem

theorem noComment_propertyName (h : NoComment key.toList) : NoComment (propertyName key).toList := by
  obtain ⟨front, back, hname, hfront, hback⟩ := exists_propertyName hcustom
  rw [hname, noComment_append_of_simple fun c hc => (hfront c hc).1]
  apply noComment_flatMap_dashed
  rcases hback with rfl | ⟨-, d, -, hkey⟩
  · exact h
  · rw [hkey] at h
    exact (noComment_cons.mp h).2

theorem isBare_propertyName (h : isBare key.toList = true) :
    isBare (propertyName key).toList = true := by
  obtain ⟨front, back, hname, hfront, hback⟩ := exists_propertyName hcustom
  rw [hname, isBare_append_of_simple fun c hc => (hfront c hc).1]
  apply isBare_flatMap_dashed
  rcases hback with rfl | ⟨-, d, hd, hkey⟩
  · exact h
  · have hne : d ≠ '\\' := by
      rintro rfl
      cases hd
    rw [hkey, isBare_cons hne, Bool.and_eq_true] at h
    exact h.2

theorem propertyName_ne_nil (h : key.toList ≠ []) : (propertyName key).toList ≠ [] := by
  obtain ⟨front, back, hname, -, hback⟩ := exists_propertyName hcustom
  rw [hname]
  rcases hback with rfl | ⟨hfront, -⟩
  · obtain ⟨c, rest, hkey⟩ := List.exists_cons_of_ne_nil h
    rw [hkey, List.flatMap_cons]
    unfold dashed
    split <;> simp
  · exact List.append_ne_nil_of_left_ne_nil hfront _

theorem head?_propertyName (h : key.toList.head? ≠ some '@') :
    (propertyName key).toList.head? ≠ some '@' := by
  intro hat
  obtain ⟨front, back, hname, hfront, hback⟩ := exists_propertyName hcustom
  rw [hname] at hat
  cases front with
  | nil =>
    rcases hback with rfl | ⟨hfront, -⟩
    · exact h (head?_flatMap_dashed (by decide) hat)
    · exact hfront rfl
  | cons d front =>
    cases hat
    exact absurd (hfront '@' List.mem_cons_self).1 (by decide)

end Small

/-- The CSS name of the key of a property is read as a name. -/
theorem isName_propertyName {key : String} (hne : key.toList ≠ []) (hsealed : Sealed key.toList)
    (hproperty : Entries.needsBlock key = false)
    (hchars : ∀ c ∈ key.toList, c ≠ ':' ∧ isUnpaired c = true) :
    IsName (propertyName key).toList := by
  unfold Entries.needsBlock at hproperty
  obtain ⟨hat, hselector⟩ := Bool.or_eq_false_iff.mp hproperty
  have hblank := noBlank_of_isSelectorKey hselector
  have hhead : key.toList.head? ≠ some '@' := by
    intro heq
    unfold isAtKey at hat
    rw [heq] at hat
    cases hat
  cases hcustom : isCustom key with
  | true =>
    have hname : propertyName key = key := by
      unfold propertyName
      rw [hcustom]
      rfl
    rw [hname]
    refine ⟨hne, hblank, hhead, hchars, hsealed, Or.inl ?_⟩
    rw [String.ofList_toList]
    exact hcustom
  | false =>
    have hmem : ∀ c ∈ (propertyName key).toList, _ := fun c hc => mem_propertyName hcustom hc
    have hnamechars : ∀ c ∈ (propertyName key).toList, c ≠ ':' ∧ isUnpaired c = true := by
      intro c hc
      rcases (hmem c hc).1 with hkey | hsimple
      · exact hchars c hkey
      · exact ⟨ne_of_isSimple hsimple (by decide), isUnpaired_of_isSimple hsimple⟩
    have hcomment := noComment_propertyName hcustom hsealed.noComment
    have hbare := isBare_propertyName hcustom
      ((balanced_iff_isBare (fun c hc => (hchars c hc).2) hsealed.noComment).mp hsealed.balanced)
    have hmark : 'C' ∉ (propertyName key).toList := fun hc =>
      absurd (hmem 'C' hc).2 (by decide)
    refine ⟨propertyName_ne_nil hcustom hne, fun c hc => ?_, head?_propertyName hcustom hhead,
      hnamechars, ⟨?_, hcomment, ?_⟩, Or.inr ?_⟩
    · rcases (hmem c hc).1 with hkey | hsimple
      · exact hblank c hkey
      · exact isBlank_of_isSimple hsimple
    · exact (balanced_iff_isBare (fun c hc => (hnamechars c hc).2) hcomment).mpr hbare
    · unfold hasMarker
      rw [cut?_eq_none_of_not_mem (c := 'C') (by decide) hmark]
      rfl
    · exact (List.map_congr_left fun c hc => (hmem c hc).2).trans (List.map_id _)

/-! ## Numbers -/

theorem isSimple_of_isDigit {c : Char} (h : c.isDigit = true) : isSimple c = true := by
  have hall : ∀ n < 58, 48 ≤ n → isSimple (Char.ofNat n) = true := by decide
  unfold Char.isDigit at h
  rw [Bool.and_eq_true] at h
  have hlow : 48 ≤ c.toNat := UInt32.le_iff_toNat_le.mp (of_decide_eq_true h.1)
  have hhigh : c.toNat ≤ 57 := UInt32.le_iff_toNat_le.mp (of_decide_eq_true h.2)
  have hc := hall c.toNat (Nat.lt_succ_of_le hhigh) hlow
  rwa [Char.ofNat_toNat] at hc

theorem simple_toDigits (n : Nat) : ∀ c ∈ Nat.toDigits 10 n, isSimple c = true := fun _ hc =>
  isSimple_of_isDigit (Nat.isDigit_of_mem_toDigits (by decide) (by decide) hc)

theorem simple_positional (d : Number.Decimal) :
    ∀ c ∈ d.positional.toList, isSimple c = true := by
  have hdigits := simple_toDigits d.digits
  have hzero : isSimple '0' = true ∧ isSimple '.' = true := by decide
  intro c hc
  unfold Number.Decimal.positional at hc
  dsimp only at hc
  split at hc
  · rw [String.toList_ofList] at hc
    simp only [List.mem_append, List.mem_cons, List.not_mem_nil, or_false, List.mem_replicate] at hc
    rcases hc with ((rfl | rfl) | ⟨-, rfl⟩) | hc
    · exact hzero.1
    · exact hzero.2
    · exact hzero.1
    · exact hdigits c hc
  · split at hc
    · rw [String.toList_ofList] at hc
      simp only [List.mem_append, List.mem_replicate] at hc
      rcases hc with hc | ⟨-, rfl⟩
      · exact hdigits c hc
      · exact hzero.1
    · rw [String.toList_ofList] at hc
      simp only [List.mem_append, List.mem_cons] at hc
      rcases hc with hc | rfl | hc
      · exact hdigits c (List.mem_of_mem_take hc)
      · exact hzero.2
      · exact hdigits c (List.mem_of_mem_drop hc)

/-- The text of a number has no character with a meaning in CSS text. -/
theorem simple_numberText (x : Float) : ∀ c ∈ (Number.text x).toList, isSimple c = true := by
  unfold Number.text
  split
  · split
    · exact List.all_iff_forall_prop.mp (by decide)
    · split <;> exact List.all_iff_forall_prop.mp (by decide)
  · next b hb =>
    split
    · exact List.all_iff_forall_prop.mp (by decide)
    · have hmagnitude : ∀ c ∈ (if b.isIntegral then String.ofList (Nat.toDigits 10 b.truncate)
          else (b.shortest .up).positional).toList, isSimple c = true := by
        split
        · rw [String.toList_ofList]
          exact simple_toDigits _
        · exact simple_positional _
      dsimp only
      split
      · rw [String.toList_append]
        intro c hc
        rcases List.mem_append.mp hc with hc | hc
        · cases List.mem_singleton.mp hc
          decide
        · exact hmagnitude c hc
      · exact hmagnitude

theorem numberText_ne_nil (x : Float) : (Number.text x).toList ≠ [] := by
  have hdigits : ∀ n, Nat.toDigits 10 n ≠ [] := fun n => Nat.toDigits_ne_nil
  have hpositional : ∀ d : Number.Decimal, d.positional.toList ≠ [] := by
    intro d
    unfold Number.Decimal.positional
    dsimp only
    split
    · simp
    · split
      · rw [String.toList_ofList]
        exact List.append_ne_nil_of_left_ne_nil (hdigits _) _
      · simp
  unfold Number.text
  split
  · split
    · decide
    · split <;> decide
  · next b hb =>
    split
    · decide
    · have hmagnitude : (if b.isIntegral then String.ofList (Nat.toDigits 10 b.truncate)
          else (b.shortest .up).positional).toList ≠ [] := by
        split
        · rw [String.toList_ofList]
          exact hdigits _
        · exact hpositional _
      dsimp only
      split
      · rw [String.toList_append]
        exact List.append_ne_nil_of_right_ne_nil _ hmagnitude
      · exact hmagnitude

/-! ## Reading a declaration -/

theorem markFrom_append {name : List Char} (h : ∀ c ∈ name, isUnpaired c = true) (t : List Char) :
    markFrom 0 none (name ++ t) = name.map (·, true) ++ markFrom 0 none t := by
  induction name with
  | nil => rfl
  | cons c name ih =>
    have hc := h c List.mem_cons_self
    simp only [isUnpaired, Bool.not_or, Bool.and_eq_true, Bool.not_eq_true'] at hc
    rw [List.cons_append, markFrom, ih fun d hd => h d (List.mem_cons_of_mem _ hd), hc.1.1, hc.1.2,
      hc.2]
    rfl

/-- A name ends at the first colon. -/
theorem cutTop?_colon {name : List Char} (h : ∀ c ∈ name, c ≠ ':' ∧ isUnpaired c = true)
    (t : List Char) : cutTop? ':' (name ++ ':' :: t) = some (name, t) := by
  have hmark : mark (name ++ ':' :: t) = name.map (·, true) ++ (':', true) :: mark t := by
    unfold mark
    rw [markFrom_append fun c hc => (h c hc).2]
    rfl
  have hother : ∀ x ∈ name.map (·, true), (x != (':', true)) = true := by
    intro x hx
    obtain ⟨c, hc, rfl⟩ := List.mem_map.mp hx
    simp [(h c hc).1]
  unfold cutTop?
  dsimp only
  rw [hmark, List.takeWhile_append_of_pos hother, List.dropWhile_append_of_pos hother,
    List.takeWhile_cons_of_neg (by simp), List.dropWhile_cons_of_neg (by simp)]
  dsimp only
  have hname : unmark (name.map (·, true)) = name := by
    unfold unmark
    rw [List.map_map]
    exact List.map_id name
  rw [unmark_mark, List.append_nil, hname]

theorem trimEnd_append_cons {c : Char} (hc : isBlank c = false) (s t : List Char) :
    trimEnd (s ++ c :: t) = s ++ c :: trimEnd t := by
  unfold trimEnd
  rw [List.reverse_append, List.reverse_cons, List.append_assoc, List.singleton_append,
    List.dropWhile_append]
  cases hdrop : t.reverse.dropWhile isBlank with
  | nil =>
    rw [List.isEmpty_nil, if_pos rfl, List.dropWhile_cons_of_neg (by simp [hc])]
    simp
  | cons d rest => simp

theorem valueParts?_of_noMarker {value : List Char} (hne : value ≠ [])
    (h : hasMarker value = false) (refs : List DynamicRef) :
    valueParts? refs value = some [.text (String.ofList value)] := by
  have hcut : cut? markerOpen value = none := by
    unfold hasMarker at h
    exact Option.isSome_eq_false_iff.mp h |> Option.isNone_iff_eq_none.mp
  rw [valueParts?]
  split
  · simp [hne]
  · next hsome =>
    rw [hcut] at hsome
    cases hsome

theorem hasMarker_collapseChars_trimEnd {text : List Char} (h : hasMarker text = false) :
    hasMarker (collapseChars (trimEnd text)) = false := by
  have hcut : cut? markerOpen text = none :=
    Option.isNone_iff_eq_none.mp (Option.isSome_eq_false_iff.mp h)
  have hnoblank : ∀ c ∈ markerOpen, isBlank c = false :=
    List.all_iff_forall_prop.mp (by decide)
  have hpart := trimEnd_prefix text
  unfold hasMarker
  rw [cut?_collapseChars (by decide) hnoblank (cut?_eq_none_of_part hpart.isInfix hcut)]
  rfl

/-- The declaration of a name and a sealed text. -/
theorem declaration_eq {name text : List Char} (hname : IsName name) (htext : Sealed text)
    (hblank : ¬ AllBlank text) (refs : List DynamicRef) :
    declaration refs (name ++ ':' :: trimEnd text) = .ok (Declaration.ofParts (String.ofList name)
      [.text (String.ofList (collapseChars (trimEnd text)))]) := by
  have htrim : trim name = name :=
    trim_eq_self (fun c hc => hname.noBlank c (List.mem_of_head? hc))
      fun c hc => hname.noBlank c (List.mem_of_getLast? hc)
  have hvalue : collapseChars (trimEnd text) ≠ [] := by
    intro hnil
    refine hblank (allBlank_trimEnd_iff.mp ?_)
    rw [← @allBlank_collapseFrom_iff {}, ← collapseChars, hnil]
    exact fun c hc => absurd hc List.not_mem_nil
  have hmarker := hasMarker_collapseChars_trimEnd htext.noMarker
  have hsmall : (if isCustom (String.ofList name) then String.ofList name
      else lower (String.ofList name)) = String.ofList name := by
    split
    · rfl
    · next hcustom =>
      unfold lower
      rw [String.toList_ofList, hname.small.resolve_left hcustom]
  unfold declaration
  rw [cutTop?_colon hname.chars]
  dsimp only
  rw [htrim, if_neg (by simpa using hname.ne_nil), hname.isSealed.noMarker, if_neg (by decide),
    if_neg (by simpa using hvalue), valueParts?_of_noMarker hvalue hmarker]
  dsimp only
  rw [hsmall]

namespace Reading

variable {reading : Reading} {refs : List DynamicRef}

/-- What a prelude with a colon declares. -/
theorem declare_eq {name text : List Char} (hname : IsName name) (htext : Sealed text)
    (hblank : ¬ AllBlank text) {p : Prelude} (hp : p.text = name ++ ':' :: text) :
    reading.declare refs p = .ok { reading with
      items := reading.items ++ .declaration (Declaration.ofParts (String.ofList name)
        [.text (String.ofList (collapseChars (trimEnd text)))]) .nil
      prelude := none } := by
  have hcomment : NoComment (':' :: text) :=
    noComment_cons.mpr ⟨fun h => absurd h (by decide), htext.noComment⟩
  obtain ⟨c, rest, hcons⟩ := List.exists_cons_of_ne_nil hname.ne_nil
  have hc : isBlank c = false := hname.noBlank c (hcons ▸ List.mem_cons_self)
  have hstart : trimStart (name ++ ':' :: text) = name ++ ':' :: text := by
    refine trimStart_eq_self fun d hd => ?_
    rw [hcons] at hd
    cases hd
    exact hc
  have htrim : trim (stripComments p.text) = name ++ ':' :: trimEnd text := by
    rw [hp, stripComments_append hname.isSealed.noComment (by simp),
      stripComments_eq_self hcomment, trim, hstart, trimEnd_append_cons (by decide)]
  have hat : ((name ++ ':' :: trimEnd text).head? == some '@') = false := by
    refine beq_eq_false_iff_ne.mpr fun h => hname.noAt ?_
    rw [hcons] at h ⊢
    exact h
  unfold declare
  rw [htrim]
  dsimp only
  rw [hat, declaration_eq hname htext hblank]
  rfl

/-- A semicolon ends a declaration. -/
theorem step_semicolon {p : Prelude} (hprelude : reading.prelude = some p) (hdepth : p.brackets = 0)
    {after : Reading} (h : reading.declare refs p = .ok after) :
    reading.step refs (.plain ';') = .ok { after with place := after.place + 1 } := by
  unfold step take
  rw [hprelude]
  dsimp only
  unfold preludeStep
  rw [hdepth]
  show (reading.declare refs p >>= fun next => pure { next with place := next.place + 1 }) = _
  rw [h]
  rfl

/-- An opening brace ends the prelude of a block. -/
theorem step_openingBrace {p : Prelude} (hprelude : reading.prelude = some p)
    (hdepth : p.brackets = 0) {after : Reading} (h : reading.openBlock p = .ok after) :
    reading.step refs (.plain '\x7b') = .ok { after with place := after.place + 1 } := by
  unfold step take
  rw [hprelude]
  dsimp only
  unfold preludeStep
  rw [hdepth]
  show (reading.openBlock p >>= fun next => pure { next with place := next.place + 1 }) = _
  rw [h]
  rfl

end Reading

end AtomicStyle.CssText

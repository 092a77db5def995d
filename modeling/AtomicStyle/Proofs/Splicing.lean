import AtomicStyle.Proofs.Atomizing
import AtomicStyle.Proofs.Declaring

/-!
# Style objects inside CSS text

An object that is spliced into CSS text is written as text and read again.  The text is a row of
declarations and blocks, and each of them is read whatever follows it (`ReadsAs`), so reading follows
the object member by member.  What a value goes through on the two ways differs: CSS text trims and
collapses it before `!important` is taken off, an object does not.

Results:
1. `ReadsAs.declaration`, `ReadsAs.nested`: a written member adds its declaration or block.
2. `spliced`: an object and its text fail both, or the text is read to a block that declares the same.
3. `splicing_exact`: when a spliced object gives the group of the object itself.
-/

namespace AtomicStyle

open AtomicStyle.Css AtomicStyle.CssText AtomicStyle.Text

/-! ## Texts in a row -/

/-- Reading a text adds the items of a block, whatever follows. -/
def ReadsAs (css : List Char) (block : Block) : Prop :=
  ∀ (reading : Reading) (rest : List Char), reading.prelude = none →
    ∃ place, (lex true (css ++ rest)).foldlM (Reading.step []) reading =
      (lex true rest).foldlM (Reading.step [])
        { reading with place, items := reading.items ++ block }

/-- The text of a key can stand before a block. -/
structure IsKey (key : String) : Prop where
  ne_nil : key.toList ≠ []
  isTrimmed : trim key.toList = key.toList
  isSealed : Sealed key.toList

instance (key : String) : Decidable (IsKey key) :=
  decidable_of_iff (key.toList ≠ [] ∧ trim key.toList = key.toList ∧ Sealed key.toList)
    ⟨fun h => ⟨h.1, h.2.1, h.2.2⟩, fun h => ⟨h.ne_nil, h.isTrimmed, h.isSealed⟩⟩

/-- The text of a key has no colon, quote or bracket. -/
def IsPropertyKey (key : String) : Prop :=
  ∀ c ∈ key.toList, c ≠ ':' ∧ isUnpaired c = true

instance (key : String) : Decidable (IsPropertyKey key) :=
  List.decidableBAll (fun c => c ≠ ':' ∧ isUnpaired c = true) key.toList

theorem IsKey.exists_head {key : String} (h : IsKey key) :
    ∃ c, key.toList.head? = some c ∧ isBlank c = false := by
  obtain ⟨c, rest, hcons⟩ := List.exists_cons_of_ne_nil h.ne_nil
  refine ⟨c, by rw [hcons, List.head?_cons], isBlank_of_head?_trim (s := key.toList) ?_⟩
  rw [h.isTrimmed, hcons, List.head?_cons]

theorem IsKey.trimmed_eq {key : String} (h : IsKey key) : trimmed key = key := by
  rw [trimmed, h.isTrimmed, String.ofList_toList]

theorem readsAs_nil : ReadsAs [] .nil := by
  intro reading rest _
  refine ⟨reading.place, ?_⟩
  rw [Block.append_nil]
  rfl

/-- A declaration before a text. -/
theorem ReadsAs.declaration {name text css : List Char} {block : Block} (hname : IsName name)
    (htext : Sealed text) (hblank : ¬ AllBlank text) (h : ReadsAs css block) :
    ReadsAs (name ++ ':' :: (text ++ ';' :: css)) (.declaration (Declaration.ofParts
      (String.ofList name) [.text (String.ofList (collapseChars (trimEnd text)))]) block) := by
  intro reading rest hnone
  have hbalanced := hname.isSealed.balanced.append_colon htext.balanced
  obtain ⟨c, chars, hcons⟩ := List.exists_cons_of_ne_nil hname.ne_nil
  have hc : isBlank c = false := hname.noBlank c (hcons ▸ List.mem_cons_self)
  have hhead : (name ++ ':' :: text).head? = some c := by
    rw [hcons]
    rfl
  have hsplit : name ++ ':' :: (text ++ ';' :: css) ++ rest =
      name ++ ':' :: text ++ ';' :: (css ++ rest) := by
    simp
  rw [hsplit, lex_append_cons hbalanced.closed (by decide) (by decide), List.foldlM_append,
    Reading.foldlM_step_of_balanced hnone hbalanced hhead hc]
  show ∃ place, List.foldlM (Reading.step []) _ (.plain ';' :: lex true (css ++ rest)) = _
  rw [List.foldlM_cons, Reading.step_semicolon rfl rfl (Reading.declare_eq hname htext hblank rfl)]
  refine (h _ rest rfl).imp fun place hrest => hrest.trans ?_
  rw [Block.append_assoc, Block.declaration_append, Block.nil_append, ← hnone]

theorem IsKey.openBlock {key : String} (h : IsKey key) {reading : Reading} {p : Prelude}
    (hp : p.text = key.toList) :
    reading.openBlock p = .ok { reading with
      items := .nil
      around := ⟨key.toList, reading.place, reading.items⟩ :: reading.around
      prelude := none } := by
  unfold Reading.openBlock
  rw [hp, stripComments_eq_self h.isSealed.noComment, h.isTrimmed]
  dsimp only
  rw [if_neg (by simpa using h.ne_nil), h.isSealed.noMarker]
  rfl

/-- A block with its prelude before a text. -/
theorem ReadsAs.nested {key : String} (hkey : IsKey key) {inner css : List Char} {body block : Block}
    (hinner : ReadsAs inner body) (h : ReadsAs css block) :
    ReadsAs (key.toList ++ '\x7b' :: (inner ++ '\x7d' :: css))
      (CssText.nested key.toList body ++ block) := by
  intro reading rest hnone
  obtain ⟨c, hhead, hc⟩ := hkey.exists_head
  have hbalanced := hkey.isSealed.balanced
  have hsplit : key.toList ++ '\x7b' :: (inner ++ '\x7d' :: css) ++ rest =
      key.toList ++ '\x7b' :: (inner ++ '\x7d' :: (css ++ rest)) := by
    simp
  rw [hsplit, lex_append_cons hbalanced.closed (by decide) (by decide), List.foldlM_append,
    Reading.foldlM_step_of_balanced hnone hbalanced hhead hc]
  show ∃ place, List.foldlM (Reading.step []) _ (.plain '\x7b' :: lex true _) = _
  rw [List.foldlM_cons, Reading.step_openingBrace rfl rfl (hkey.openBlock rfl)]
  obtain ⟨inside, hbody⟩ := hinner
    { reading with
      place := reading.place + key.toList.length + 1
      items := .nil
      around := ⟨key.toList, reading.place + key.toList.length, reading.items⟩ :: reading.around
      prelude := none }
    ('\x7d' :: (css ++ rest)) rfl
  -- The closing brace takes up what was read before the block.
  have hclose : Reading.step [] { reading with
      place := inside
      items := .nil ++ body
      around := ⟨key.toList, reading.place + key.toList.length, reading.items⟩ :: reading.around
      prelude := none } (.plain '\x7d') = .ok { reading with
      place := inside + 1
      items := reading.items ++ CssText.nested key.toList body
      prelude := none } :=
    rfl
  rw [lex_brace_cons true (Or.inr rfl), List.foldlM_cons, hclose] at hbody
  refine (h _ rest rfl).imp fun place hrest => hbody.trans (hrest.trans ?_)
  rw [Block.append_assoc, ← hnone]

/-- A text that can be read in a row can be read alone. -/
theorem ReadsAs.parse_eq {css : String} {block : Block} (h : ReadsAs css.toList block) (span : Span) :
    parse css [] span = .ok block := by
  obtain ⟨place, hread⟩ := h {} [] rfl
  rw [List.append_nil] at hread
  unfold parse CssText.read
  rw [hread]
  rfl

/-! ## What blocks declare -/

/-- Two blocks declare the same, wherever they stand. -/
def SameDeclared (a b : Block) : Prop :=
  ∀ salt atRules selector, declareAll salt atRules selector a = declareAll salt atRules selector b

theorem SameDeclared.atomize_eq {a b : Block} (h : SameDeclared a b) (salt : String) :
    a.atomize salt = b.atomize salt := by
  unfold Block.atomize
  rw [h]

theorem SameDeclared.append {a b c d : Block} (hab : SameDeclared a b) (hcd : SameDeclared c d) :
    SameDeclared (a ++ c) (b ++ d) := by
  intro salt atRules selector
  rw [declareAll_append, declareAll_append, hab, hcd]

theorem SameDeclared.nested {a b : Block} (h : SameDeclared a b) (key : List Char) :
    SameDeclared (CssText.nested key a) (CssText.nested key b) := by
  intro salt atRules selector
  unfold CssText.nested
  dsimp only
  split
  · simp only [declareAll]
    rw [h]
  · simp only [declareAll]
    congr 1
    funext child declared
    rw [h]

/-- What the declaration of a text gives depends on the value it declares. -/
theorem declare_ofParts (salt : String) (context : Context) (property text : String) :
    declare salt context (Declaration.ofParts property [.text text]) =
      ⟨(longhands property (splitImportant text).1).map fun (property, value) =>
        { context, property, value, important := (splitImportant text).2,
          className := className salt context property value (splitImportant text).2 }, []⟩ := by
  rcases hsplit : splitImportant text with ⟨rest, important⟩
  have hdeclaration : Declaration.ofParts property [.text text] =
      ⟨property, [.text rest].filter (!Declaration.isEmptyText ·), important⟩ := by
    unfold Declaration.ofParts Declaration.splitLast
    rw [hsplit]
  have hvalue : valueText context (Declaration.ofParts property [.text text]) = (rest, []) := by
    rw [hdeclaration]
    unfold valueText
    cases hempty : rest.isEmpty with
    | true =>
      have hrest : rest = "" := String.isEmpty_iff.mp hempty
      subst hrest
      rfl
    | false =>
      have hkept : [ValuePart.text rest].filter (!Declaration.isEmptyText ·) = [.text rest] := by
        simp [Declaration.isEmptyText, hempty]
      rw [hkept]
      show (String.ofList rest.toList, _) = _
      rw [String.ofList_toList]
  unfold declare
  rw [hvalue, hdeclaration]

theorem longhands_eq_of_canonical {value other : String} (h : canonical value = canonical other)
    (property : String) : longhands property value = longhands property other := by
  unfold longhands
  rw [h]

theorem SameDeclared.declaration {text other : String} (h : SameValue text other)
    (property : String) {a b : Block} (hab : SameDeclared a b) :
    SameDeclared (.declaration (Declaration.ofParts property [.text text]) a)
      (.declaration (Declaration.ofParts property [.text other]) b) := by
  intro salt atRules selector
  rw [declareAll, declareAll, hab, declare_ofParts, declare_ofParts, h.1,
    longhands_eq_of_canonical h.2]

/-! ## Constant objects -/

/-- A value with another text, if it is one. -/
def Value.mapText (f : String → String) : Value → Value
  | .str text => .str (f text)
  | value => value

/-- The text that a value is. -/
def Value.texts : Value → List String
  | .str text => [text]
  | _ => []

namespace Entries

/-- A constant object with other texts. -/
def mapTexts (f : String → String) : List (String × Value) → List (String × Value)
  | [] => []
  | (key, .object members) :: rest => (key, .object (mapTexts f members)) :: mapTexts f rest
  | (key, value) :: rest => (key, value.mapText f) :: mapTexts f rest

/-- The texts in a constant object. -/
def texts : List (String × Value) → List String
  | [] => []
  | (_, .object members) :: rest => texts members ++ texts rest
  | (_, value) :: rest => value.texts ++ texts rest

/-- The keys and texts of a constant object can be read as parts of CSS text. -/
def Spliceable : List (String × Value) → Prop
  | [] => True
  | (key, .object members) :: rest => IsKey key ∧ Spliceable members ∧ Spliceable rest
  | (key, value) :: rest =>
    IsKey key ∧ (needsBlock key = false → IsPropertyKey key) ∧
      (∀ text ∈ value.texts, Sealed text.toList) ∧ Spliceable rest

theorem Spliceable.isSealed {members : List (String × Value)} (h : Spliceable members) :
    ∀ text ∈ texts members, Sealed text.toList := by
  induction members using texts.induct with
  | case1 =>
    rw [texts]
    exact fun _ => nofun
  | case2 key members rest ihMembers ihRest =>
    rw [Spliceable] at h
    rw [texts]
    exact List.forall_mem_append.mpr ⟨ihMembers h.2.1, ihRest h.2.2⟩
  | case3 key value rest hvalue ih =>
    rw [Spliceable.eq_3 _ _ _ hvalue] at h
    rw [texts.eq_3 _ _ _ hvalue]
    exact List.forall_mem_append.mpr ⟨h.2.2.1, ih h.2.2.2⟩

theorem mapTexts_id (members : List (String × Value)) : mapTexts id members = members := by
  induction members using mapTexts.induct with
  | case1 => rw [mapTexts]
  | case2 key members rest ihMembers ihRest => rw [mapTexts, ihMembers, ihRest]
  | case3 key value rest hvalue ih =>
    rw [mapTexts.eq_3 _ _ _ _ hvalue, ih]
    cases value <;> rfl

/-! ## Scalars -/

/-- The texts of the same scalar on both ways: in CSS text, and in an object with other texts. -/
inductive SameScalar (key : String) (value other : Value) : Prop
  | fault (fault : StyleFault) (hvalue : scalarText key value = .error fault)
      (hother : scalarText key other = .error fault)
  | absent (hvalue : scalarText key value = .ok (propertyName key, none))
      (hother : scalarText key other = .ok (propertyName key, none))
  | present (text same : String) (hproperty : needsBlock key = false)
      (hvalue : scalarText key value = .ok (propertyName key, some text))
      (hother : scalarText key other = .ok (propertyName key, some same))
      (hsealed : Sealed text.toList) (hblank : ¬ AllBlank text.toList)
      (hsame : SameValue (trimmedEnd text) same)

theorem scalarText_of_ok {key : String} (hproperty : needsBlock key = false) {value : Value}
    {text : Option String} (h : Css.scalarText (propertyName key) value = .ok text) :
    scalarText key value = .ok (propertyName key, text) := by
  unfold scalarText
  dsimp only
  rw [hproperty, h]
  rfl

theorem scalarText_of_error {key : String} (hproperty : needsBlock key = false) {value : Value}
    {fault : ScalarFault} (h : Css.scalarText (propertyName key) value = .error fault) :
    scalarText key value = .error (.scalar fault key) := by
  unfold scalarText
  dsimp only
  rw [hproperty, h]
  rfl

theorem trim_eq_nil_iff {s : List Char} : trim s = [] ↔ AllBlank s := by
  constructor
  · intro h
    have hall : ∀ c ∈ trimStart s, isBlank c = true := List.rdropWhile_eq_nil_iff.mp h
    cases hstart : trimStart s with
    | nil => exact List.dropWhile_eq_nil_iff.mp hstart
    | cons c rest =>
      have hfirst : isBlank c = false := by
        have hhead := List.head?_dropWhile_not isBlank s
        rwa [← trimStart, hstart] at hhead
      rw [hall c (hstart ▸ List.mem_cons_self)] at hfirst
      cases hfirst
  · intro h
    rw [trim, trimStart, List.dropWhile_eq_nil_iff.mpr h]
    rfl

/-- A text of characters without a meaning is the same on both ways. -/
theorem sameScalar_of_simple {key : String} {value : Value} {text : String}
    (hproperty : needsBlock key = false)
    (hvalue : scalarText key value = .ok (propertyName key, some text))
    (hne : text.toList ≠ []) (hsimple : ∀ c ∈ text.toList, isSimple c = true) :
    SameScalar key value value := by
  have hblank : ¬ AllBlank text.toList := by
    obtain ⟨c, rest, hcons⟩ := List.exists_cons_of_ne_nil hne
    intro hall
    have hc : c ∈ text.toList := hcons ▸ List.mem_cons_self
    have htrue := hall c hc
    rw [isBlank_of_isSimple (hsimple c hc)] at htrue
    cases htrue
  have htrim : trimmedEnd text = text := by
    have hself : trimEnd text.toList = text.toList := List.rdropWhile_eq_self_iff.mpr fun hl => by
      rw [isBlank_of_isSimple (hsimple _ (List.getLast_mem hl))]
      decide
    rw [trimmedEnd, hself, String.ofList_toList]
  refine .present text text hproperty hvalue hvalue (sealed_of_simple hsimple) hblank ?_
  rw [htrim]
  exact SameValue.refl text

theorem sameScalar_num {key : String} (hproperty : needsBlock key = false) (n : Float) :
    SameScalar key (.num n) (.num n) := by
  have hvalue : scalarText key (.num n) = .ok (propertyName key,
      some (if n == 0 || isUnitless (propertyName key) then Number.text n
        else Number.text n ++ "px")) :=
    scalarText_of_ok hproperty rfl
  refine sameScalar_of_simple hproperty hvalue ?_ ?_
  · split
    · exact numberText_ne_nil n
    · rw [String.toList_append]
      exact List.append_ne_nil_of_left_ne_nil (numberText_ne_nil n) _
  · split
    · exact simple_numberText n
    · rw [String.toList_append]
      intro c hc
      rcases List.mem_append.mp hc with hc | hc
      · exact simple_numberText n c hc
      · have hunit : ∀ d ∈ "px".toList, isSimple d = true :=
          List.all_iff_forall_prop.mp (by decide)
        exact hunit c hc

theorem scalarText_str {key : String} (hproperty : needsBlock key = false) (text : String) :
    scalarText key (.str text) =
      .ok (propertyName key, if (trim text.toList).isEmpty then none else some text) :=
  scalarText_of_ok hproperty rfl

theorem scalarText_str_of_not_allBlank {key : String} (hproperty : needsBlock key = false)
    {text : String} (h : ¬ AllBlank text.toList) :
    scalarText key (.str text) = .ok (propertyName key, some text) := by
  rw [scalarText_str hproperty, if_neg]
  rwa [List.isEmpty_iff, trim_eq_nil_iff]

theorem scalarText_str_of_allBlank {key : String} (hproperty : needsBlock key = false)
    {text : String} (h : AllBlank text.toList) :
    scalarText key (.str text) = .ok (propertyName key, none) := by
  rw [scalarText_str hproperty, if_pos]
  rwa [List.isEmpty_iff, trim_eq_nil_iff]

theorem sameScalar {f : String → String}
    (hblank : ∀ text, AllBlank (f text).toList ↔ AllBlank text.toList) (key : String) {value : Value}
    (hobject : ∀ members, value ≠ .object members)
    (hsealed : ∀ text ∈ value.texts, Sealed text.toList)
    (hsame : ∀ text ∈ value.texts, SameValue (trimmedEnd text) (f text)) :
    SameScalar key value (value.mapText f) := by
  cases hblock : needsBlock key with
  | true =>
    have hfault : ∀ other, scalarText key other = .error (.needsObject key) := by
      intro other
      unfold scalarText
      rw [hblock]
      rfl
    exact .fault _ (hfault value) (hfault _)
  | false =>
    have hfault : ∀ (other : Value) (fault : ScalarFault),
        Css.scalarText (propertyName key) other = .error fault → SameScalar key other other :=
      fun _ _ h => .fault _ (scalarText_of_error hblock h) (scalarText_of_error hblock h)
    have habsent : ∀ other : Value, Css.scalarText (propertyName key) other = .ok none →
        SameScalar key other other :=
      fun _ h => .absent (scalarText_of_ok hblock h) (scalarText_of_ok hblock h)
    cases value with
    | undefined => exact habsent _ rfl
    | null => exact habsent _ rfl
    | bool b =>
      cases b with
      | false => exact habsent _ rfl
      | true => exact hfault _ _ rfl
    | num n => exact sameScalar_num hblock n
    | str text =>
      by_cases hall : AllBlank text.toList
      · exact .absent (scalarText_str_of_allBlank hblock hall)
          (scalarText_str_of_allBlank hblock ((hblank text).mpr hall))
      · exact .present text (f text) hblock (scalarText_str_of_not_allBlank hblock hall)
          (scalarText_str_of_not_allBlank hblock (mt (hblank text).mp hall))
          (hsealed text List.mem_cons_self) hall (hsame text List.mem_cons_self)
    | array items => exact hfault _ _ rfl
    | object members => exact absurd rfl (hobject members)
    | function params body unit scope => exact hfault _ _ rfl
    | module unit => exact hfault _ _ rfl

/-! ## Members -/

/-- CSS text and entries that fail both, or are read to blocks that declare the same. -/
inductive Spliced (css : Except StyleFault String) (block : Except CompileError Block) : Prop
  | fault (fault : StyleFault) (error : CompileError) (hcss : css = .error fault)
      (hblock : block = .error error)
  | ok (text : String) (parsed declared : Block) (hcss : css = .ok text)
      (hblock : block = .ok declared) (hreads : ReadsAs text.toList parsed)
      (hsame : SameDeclared parsed declared)

theorem Spliced.bind {css : Except StyleFault String} {block : Except CompileError Block}
    (h : Spliced css block) {f : String → Except StyleFault String}
    {g : Block → Except CompileError Block}
    (hok : ∀ (text : String) (parsed declared : Block), ReadsAs text.toList parsed →
      SameDeclared parsed declared → Spliced (f text) (g declared)) :
    Spliced (css >>= f) (block >>= g) := by
  cases h with
  | fault fault error hcss hblock =>
    rw [hcss, hblock]
    exact .fault fault error rfl rfl
  | ok text parsed declared hcss hblock hreads hsame =>
    rw [hcss, hblock]
    exact hok text parsed declared hreads hsame

/-- A nested object before other members. -/
theorem Spliced.block {key : String} (hkey : IsKey key) {members rest : List (String × Value)}
    {body items : Entries} (hmembers : Spliced (cssText members) body.toBlock)
    (hrest : Spliced (cssText rest) items.toBlock) :
    Spliced (cssText ((key, .object members) :: rest))
      (Entries.block key Span.none body items).toBlock := by
  rw [cssText, toBlock]
  refine hmembers.bind fun inner parsedInner declaredInner hreadsInner hsameInner => ?_
  refine hrest.bind fun tail parsed declared hreads hsame => ?_
  refine .ok _ (CssText.nested key.toList parsedInner ++ parsed)
    (CssText.nested key.toList declaredInner ++ declared) rfl ?_ ?_ ?_
  · rw [hkey.trimmed_eq]
    unfold CssText.nested
    rw [String.ofList_toList]
    show (if isAtKey key then _ else _) = Except.ok ((if isAtKey key then _ else _) ++ _)
    split <;> rfl
  · have hnested := hreadsInner.nested hkey hreads
    simpa using hnested
  · exact (hsameInner.nested key.toList).append hsame

/-- A scalar before other members. -/
theorem Spliced.scalar {key : String} (hkey : IsKey key) {value other : Value}
    (hobject : ∀ members, value = .object members → False)
    (hchars : needsBlock key = false → IsPropertyKey key)
    (hscalar : SameScalar key value other) {rest : List (String × Value)} {items : Entries}
    (hrest : Spliced (cssText rest) items.toBlock) :
    Spliced (cssText ((key, value) :: rest)) (Entries.scalar key Span.none other items).toBlock := by
  rw [cssText.eq_3 _ _ _ hobject, toBlock, hkey.trimmed_eq]
  cases hscalar with
  | fault fault hvalue hother =>
    rw [hvalue, hother]
    exact .fault fault (.unsupportedStyle fault Span.none) rfl rfl
  | absent hvalue hother =>
    rw [hvalue, hother]
    exact hrest.bind fun tail parsed declared hreads hsame =>
      .ok tail parsed declared rfl rfl hreads hsame
  | present text same hproperty hvalue hother hsealed hblank hsameText =>
    rw [hvalue, hother]
    refine hrest.bind fun tail parsed declared hreads hsame => ?_
    have hname := isName_propertyName hkey.ne_nil hkey.isSealed hproperty (hchars hproperty)
    have hdeclaration := hreads.declaration hname hsealed hblank
    rw [String.ofList_toList] at hdeclaration
    refine .ok _ _ (.declaration (Declaration.ofParts (propertyName key) [.text same]) declared)
      rfl rfl (by simpa using hdeclaration) ?_
    have hcollapse : String.ofList (collapseChars (trimEnd text.toList)) =
        collapse (trimmedEnd text) := by
      rw [collapse, trimmedEnd, String.toList_ofList]
    rw [hcollapse]
    exact SameDeclared.declaration ((sameValue_collapse _).trans hsameText) _ hsame

/-- An object with sealed keys and texts is read from its text as it declares. -/
theorem spliced {f : String → String}
    (hblank : ∀ text, AllBlank (f text).toList ↔ AllBlank text.toList)
    {members : List (String × Value)} (h : Spliceable members)
    (hsame : ∀ text ∈ texts members, SameValue (trimmedEnd text) (f text)) :
    Spliced (cssText members) (ofMembers (mapTexts f members)).toBlock := by
  induction members using cssText.induct with
  | case1 =>
    rw [cssText, mapTexts, ofMembers, toBlock]
    exact .ok "" .nil .nil rfl rfl readsAs_nil fun _ _ _ => rfl
  | case2 key members rest ihMembers ihRest =>
    rw [Spliceable] at h
    rw [texts] at hsame
    rw [mapTexts, ofMembers]
    refine Spliced.block h.1 (ihMembers h.2.1 fun text ht => ?_) (ihRest h.2.2 fun text ht => ?_)
    · exact hsame text (List.mem_append_left _ ht)
    · exact hsame text (List.mem_append_right _ ht)
  | case3 key value rest hvalue ih =>
    rw [Spliceable.eq_3 _ _ _ hvalue] at h
    rw [texts.eq_3 _ _ _ hvalue] at hsame
    obtain ⟨hkey, hchars, hsealed, hrest⟩ := h
    have hmapped : ∀ members, value.mapText f = .object members → False := by
      cases value with
      | object members => exact absurd rfl (hvalue members)
      | _ => nofun
    rw [mapTexts.eq_3 _ _ _ _ hvalue, ofMembers.eq_3 _ _ _ hmapped]
    refine Spliced.scalar hkey hvalue hchars
      (sameScalar hblank key (fun members => hvalue members) hsealed fun text ht => ?_)
      (ih hrest fun text ht => ?_)
    · exact hsame text (List.mem_append_left _ ht)
    · exact hsame text (List.mem_append_right _ ht)

/-- Spliced into CSS text, a constant object gives the group of an object: the text is there if the
block is, and then it is read to a block with the same group. -/
def SplicesAs (members other : List (String × Value)) : Prop :=
  ((∃ css, cssText members = .ok css) ↔ ∃ block, (ofMembers other).toBlock = .ok block) ∧
    ∀ css block, cssText members = .ok css → (ofMembers other).toBlock = .ok block →
      ∀ span, ∃ parsed, parse css [] span = .ok parsed ∧
        ∀ salt, parsed.atomize salt = block.atomize salt

theorem Spliced.splicesAs {members other : List (String × Value)}
    (h : Spliced (cssText members) (ofMembers other).toBlock) : SplicesAs members other := by
  unfold SplicesAs
  cases h with
  | fault fault error hcss hblock =>
    rw [hcss, hblock]
    refine ⟨⟨?_, ?_⟩, ?_⟩
    · rintro ⟨css, ⟨⟩⟩
    · rintro ⟨block, ⟨⟩⟩
    · rintro css block ⟨⟩
  | ok text parsed declared hcss hblock hreads hsame =>
    rw [hcss, hblock]
    refine ⟨⟨fun _ => ⟨declared, rfl⟩, fun _ => ⟨text, rfl⟩⟩, ?_⟩
    rintro css block ⟨⟩ ⟨⟩ span
    exact ⟨parsed, hreads.parse_eq span, hsame.atomize_eq⟩

/-- A constant object is spliced as the object whose texts have no blanks at the end. -/
theorem splicesAs_trimmed {members : List (String × Value)} (h : Spliceable members) :
    SplicesAs members (mapTexts trimmedEnd members) :=
  (spliced allBlank_trimmedEnd_iff h fun text _ => SameValue.refl (trimmedEnd text)).splicesAs

/-- A constant object is spliced as itself if the blanks at the end of its texts do not count. -/
theorem splicesAs_self {members : List (String × Value)} (h : Spliceable members)
    (hsame : ∀ text ∈ texts members, SameValue (trimmedEnd text) text) :
    SplicesAs members members := by
  have hspliced := (spliced (f := id) (fun _ => Iff.rfl) h hsame).splicesAs
  rwa [mapTexts_id] at hspliced

/-! ## Blanks at the end of a text -/

/-- The object with a single text. -/
def content (text : String) : List (String × Value) :=
  [("content", .str text)]

theorem str_ne_object (text : String) (members : List (String × Value)) :
    Value.str text = .object members → False :=
  nofun

theorem spliceable_content {text : String} (h : Sealed text.toList) : Spliceable (content text) := by
  rw [content, Spliceable.eq_3 _ _ _ (str_ne_object text), Spliceable]
  refine ⟨by decide +kernel, fun _ => by decide +kernel, ?_, trivial⟩
  intro other hother
  rw [List.mem_singleton.mp hother]
  exact h

theorem texts_content (text : String) : texts (content text) = [text] := by
  rw [content, texts.eq_3 _ _ _ (str_ne_object text), texts]
  rfl

theorem mapTexts_content (f : String → String) (text : String) :
    mapTexts f (content text) = content (f text) := by
  rw [content, mapTexts.eq_3 _ _ _ _ (str_ne_object text), mapTexts]
  rfl

theorem toBlock_content {text : String} (h : ¬ AllBlank text.toList) :
    (ofMembers (content text)).toBlock =
      .ok (.declaration (Declaration.ofParts "content" [.text text]) .nil) := by
  have hscalar : scalarText (trimmed "content") (.str text) = .ok ("content", some text) :=
    scalarText_str_of_not_allBlank (by decide +kernel) h
  rw [content, ofMembers.eq_3 _ _ _ (str_ne_object text), ofMembers, toBlock, toBlock, hscalar]
  rfl

theorem longhands_content (value : String) :
    longhands "content" value =
      if (canonical value).isEmpty then [] else [("content", canonical value)] := by
  have hline : reorderLine? "content" (canonical value) = none := by
    unfold reorderLine?
    rw [if_pos]
    rfl
  have hexpand : expand? "content" (canonical value) = none := by
    unfold expand?
    exact ite_self none
  unfold longhands
  dsimp only
  rw [hline, Option.getD_none, hexpand]
  rfl

/-- The values that a declared text gives. -/
def declaredValues (text : String) : List String :=
  if (canonical (splitImportant text).1).isEmpty then [] else [canonical (splitImportant text).1]

theorem values_atomize_content (text : String) :
    ((Block.declaration (Declaration.ofParts "content" [.text text]) .nil).atomize "").rules.map
      (·.value) = declaredValues text := by
  have hlatest (rule : AtomicRule) : latest AtomicRule.target [rule] = [rule] := rfl
  rw [Block.rules_atomize, Block.declared, declareAll, declareAll, declare_ofParts,
    longhands_content, declaredValues, Declared.rules_append, List.append_nil]
  split
  · rfl
  · rw [List.map_singleton, hlatest, List.map_singleton]

theorem canonical_eq_of_declaredValues {text other : String}
    (h : declaredValues text = declaredValues other) :
    canonical (splitImportant text).1 = canonical (splitImportant other).1 := by
  unfold declaredValues at h
  split at h
  next hempty =>
    split at h
    next hother => rw [String.isEmpty_iff.mp hempty, String.isEmpty_iff.mp hother]
    next => cases h
  next =>
    split at h
    next => cases h
    next => exact List.singleton_inj.mp h

/-- If the blanks at the end of a text count, an object with that text is not spliced as itself. -/
theorem sameValue_of_splicesAs {text : String} (h : Sealed text.toList)
    (hself : SplicesAs (content text) (content text)) : SameValue (trimmedEnd text) text := by
  by_cases hall : AllBlank text.toList
  · -- A blank text declares nothing on either way, so the groups say nothing about it.
    refine sameValue_of_collapse_eq ?_
    unfold collapse collapseChars
    rw [collapseFrom_of_allBlank rfl hall,
      collapseFrom_of_allBlank rfl ((allBlank_trimmedEnd_iff text).mpr hall)]
  · -- The same CSS text gives the group of the text and that of the trimmed text.
    have htrimmed := splicesAs_trimmed (spliceable_content h)
    rw [mapTexts_content] at htrimmed
    have hblock := toBlock_content hall
    have hblockTrimmed := toBlock_content (mt (allBlank_trimmedEnd_iff text).mp hall)
    obtain ⟨css, hcss⟩ := hself.1.mpr ⟨_, hblock⟩
    obtain ⟨parsed, hparsed, hgroup⟩ := hself.2 _ _ hcss hblock Span.none
    obtain ⟨again, hagain, htrimmedGroup⟩ := htrimmed.2 _ _ hcss hblockTrimmed Span.none
    cases hparsed.symm.trans hagain
    have hvalues := congrArg (fun group => group.rules.map (·.value))
      ((htrimmedGroup "").symm.trans (hgroup ""))
    refine ⟨?_, canonical_eq_of_declaredValues ?_⟩
    · unfold splitImportant trimmedEnd
      rw [String.toList_ofList, stripImportant?_trimEnd]
      split <;> rfl
    · rwa [values_atomize_content, values_atomize_content] at hvalues

/-- A constant object is spliced as the object whose texts have no blanks at the end.  It is spliced
as itself if no text has an escaped quote outside quotes; and all objects with its texts are spliced
as themselves just if the blanks at the end of these texts do not count. -/
theorem splicing_exact {members : List (String × Value)} (h : Spliceable members) :
    SplicesAs members (mapTexts trimmedEnd members) ∧
    ((∀ text ∈ texts members, NoEscapedQuote text.toList) → SplicesAs members members) ∧
    ((∀ others, Spliceable others → (∀ text ∈ texts others, text ∈ texts members) →
        SplicesAs others others) ↔
      ∀ text ∈ texts members, SameValue (trimmedEnd text) text) := by
  refine ⟨splicesAs_trimmed h, ?_, ?_, ?_⟩
  · intro hescape
    refine splicesAs_self h fun text ht => ?_
    exact sameValue_of_collapse_eq
      (collapse_trimmedEnd (h.isSealed text ht).balanced (hescape text ht))
  · intro hothers text ht
    have hsealed := h.isSealed text ht
    refine sameValue_of_splicesAs hsealed (hothers _ (spliceable_content hsealed) ?_)
    rw [texts_content]
    intro other hother
    rw [List.mem_singleton.mp hother]
    exact ht
  · intro hsame others hspliceable htexts
    exact splicesAs_self hspliceable fun text ht => hsame text (htexts text ht)

/-- An object with an important text, a selector, an at-rule, a number and an escaped brace. -/
def card : List (String × Value) :=
  [("color", .str "red !important "),
    ("&:hover, &:focus", .object [("content", .str "\"a  b;\"")]),
    ("@media (min-width: 10px)", .object [("marginTop", .num 4), ("quotes", .str "\\\x7b")])]

theorem splicing_exact_card :
    Spliceable card ∧ (∀ text ∈ texts card, NoEscapedQuote text.toList) ∧ SplicesAs card card := by
  have hspliceable : Spliceable card := by
    simp only [card, Spliceable, Value.texts]
    decide +kernel
  have htexts : texts card = ["red !important ", "\"a  b;\"", "\\\x7b"] := by
    simp [card, texts, Value.texts]
  have hescape : ∀ text ∈ texts card, NoEscapedQuote text.toList := by
    rw [htexts]
    decide +kernel
  exact ⟨hspliceable, hescape, (splicing_exact hspliceable).2.1 hescape⟩

/-- The reader of CSS text takes away the blank after an escaped quote, an object keeps it. -/
theorem escaped_quote_not_spliced :
    Spliceable (content "\\\" ") ∧ ¬ SplicesAs (content "\\\" ") (content "\\\" ") := by
  have hsealed : Sealed "\\\" ".toList := by decide +kernel
  refine ⟨spliceable_content hsealed, fun h => ?_⟩
  have hvalue := (sameValue_of_splicesAs hsealed h).2
  revert hvalue
  decide +kernel

end Entries

end AtomicStyle

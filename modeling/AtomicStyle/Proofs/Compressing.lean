import AtomicStyle.ClassName.Reader
import AtomicStyle.Proofs.Atomizing

/-!
# Compression and composition

A class name has three forms: the full one, the compressed one on its way to the element, and the
token that the stylesheet and the element show.  The compressed form keeps the slot, so it competes
as the full name does, and composition shows its token.

Results:
1. `Supplied.isIdentifier_of_get?`: the tokens of a supplied map can stand for names in CSS.
2. `slot_elementClass`, `shown_elementClass`: how a class name on an element competes and is shown.
3. `compose_elementClass`: composing compressed class lists gives the tokens of the rules that
   composing the full ones leaves.
-/

namespace AtomicStyle

open AtomicStyle.Text

/-! ## Identifiers -/

namespace ClassName

/-- An identifier is made of letters, digits, hyphens and underscores. -/
theorem toNat_of_mem_isIdentifier {name : String} (h : isIdentifier name = true) {c : Char}
    (hc : c ∈ name.toList) :
    c.toNat = 45 ∨ c.toNat = 95 ∨ (48 ≤ c.toNat ∧ c.toNat ≤ 57) ∨
      (65 ≤ c.toNat ∧ c.toNat ≤ 90) ∨ (97 ≤ c.toNat ∧ c.toNat ≤ 122) := by
  have hclass : c.isAlpha = true ∨ c = '-' ∨ c = '_' ∨ c.isDigit = true := by
    unfold isIdentifier at h
    split at h
    · cases h
    · next d rest hchars =>
      simp only [Bool.and_eq_true, Bool.or_eq_true, beq_iff_eq, List.all_eq_true] at h
      rw [hchars] at hc
      rcases List.mem_cons.mp hc with rfl | hc
      · rcases h.1 with (h | h) | h
        · exact Or.inl h
        · exact Or.inr (Or.inl h)
        · exact Or.inr (Or.inr (Or.inl h))
      · rcases h.2 c hc with ((h | h) | h) | h
        · exact Or.inl h
        · exact Or.inr (Or.inl h)
        · exact Or.inr (Or.inr (Or.inl h))
        · exact Or.inr (Or.inr (Or.inr h))
  rcases hclass with h | rfl | rfl | h
  · have hrange : (decide (c.val ≥ 65 ∧ c.val ≤ 90) || (c.val ≥ 97 && c.val ≤ 122)) = true := h
    simp only [Bool.or_eq_true, Bool.and_eq_true, decide_eq_true_eq, ge_iff_le,
      UInt32.le_iff_toNat_le] at hrange
    exact Or.inr (Or.inr (Or.inr hrange))
  · exact Or.inl rfl
  · exact Or.inr (Or.inl rfl)
  · have hrange : (c.val ≥ 48 && c.val ≤ 57) = true := h
    simp only [Bool.and_eq_true, decide_eq_true_eq, ge_iff_le, UInt32.le_iff_toNat_le] at hrange
    exact Or.inr (Or.inr (Or.inl hrange))

theorem isBlank_of_mem_isIdentifier {name : String} (h : isIdentifier name = true)
    {c : Char} (hc : c ∈ name.toList) : isBlank c = false := by
  have hrange := toNat_of_mem_isIdentifier h hc
  simp only [isBlank, blankRanges, List.any_eq_false, Bool.and_eq_true, decide_eq_true_eq,
    List.mem_cons, List.not_mem_nil, or_false]
  rintro range (rfl | rfl | rfl | rfl | rfl | rfl | rfl | rfl | rfl | rfl) <;> omega

theorem colon_not_mem_of_isIdentifier {name : String} (h : isIdentifier name = true) :
    ':' ∉ name.toList := by
  intro hmem
  have hrange := toNat_of_mem_isIdentifier h hmem
  have hcolon : ':'.toNat = 58 := rfl
  omega

theorem isIdentifier_of_isTokenChar {rest : List Char} (h : ∀ c ∈ rest, isTokenChar c = true) :
    isIdentifier (String.ofList ('_' :: rest)) = true := by
  simp only [isIdentifier, String.toList_ofList, Bool.and_eq_true, List.all_eq_true]
  refine ⟨by decide, fun c hc => ?_⟩
  rcases Bool.or_eq_true_iff.mp (h c hc) with hdigit | hlower
  · rw [hdigit, Bool.or_true]
  · have halpha : c.isAlpha = true := Bool.or_eq_true_iff.mpr (Or.inr hlower)
    rw [halpha, Bool.true_or, Bool.true_or, Bool.true_or]

theorem ne_nil_of_isIdentifier {name : String} (h : isIdentifier name = true) :
    name.toList ≠ [] := by
  intro hnil
  rw [isIdentifier, hnil] at h
  cases h

end ClassName

/-! ## Supplied maps -/

namespace CompressionMap

/-- A map as it is supplied: made from entries, or read from a JSON text. -/
inductive Supplied : CompressionMap → Prop where
  | entries (entries : List (String × String)) : Supplied (ofEntries entries)
  | json {text : String} {map : CompressionMap} (h : ofJson text = .ok map) : Supplied map

/-- Every token of a map can stand for a name in CSS. -/
def HasIdentifiers (map : CompressionMap) : Prop :=
  ∀ key token, map.entries.lookup key = some token → ClassName.isIdentifier token = true

theorem hasIdentifiers_empty : HasIdentifiers empty :=
  fun _ _ h => nomatch h

theorem HasIdentifiers.insert {map : CompressionMap} (h : map.HasIdentifiers) (key token : String) :
    (map.insert key token).HasIdentifiers := by
  unfold CompressionMap.insert
  split
  · exact h
  · split
    · exact h
    · next htoken =>
      intro other found hfound
      rw [Sorted.lookup_put] at hfound
      split at hfound
      · rw [← Option.some.inj hfound]
        simpa using htoken
      · exact h other found hfound

theorem HasIdentifiers.insertMember {map : CompressionMap} (h : map.HasIdentifiers) (key : String)
    (json : Json) : (map.insertMember key json).HasIdentifiers := by
  unfold CompressionMap.insertMember
  split
  · exact h.insert key _
  · exact h

/-- What every step of building a map keeps, the map has. -/
theorem HasIdentifiers.foldl {α : Type} {step : CompressionMap → α → CompressionMap}
    (hstep : ∀ map entry, map.HasIdentifiers → (step map entry).HasIdentifiers) (entries : List α)
    {map : CompressionMap} (h : map.HasIdentifiers) : (entries.foldl step map).HasIdentifiers := by
  induction entries generalizing map with
  | nil => exact h
  | cons entry rest ih => exact ih (hstep map entry h)

theorem Supplied.hasIdentifiers {map : CompressionMap} (h : map.Supplied) : map.HasIdentifiers := by
  cases h with
  | entries entries =>
    exact HasIdentifiers.foldl (fun _ entry h => h.insert entry.1 entry.2) entries
      hasIdentifiers_empty
  | json h =>
    unfold ofJson at h
    split at h
    · cases h
    · split at h
      · cases h
      · split at h
        · rw [← Except.ok.inj h]
          exact HasIdentifiers.foldl (fun _ entry h => h.insertMember entry.1 entry.2) _
            hasIdentifiers_empty
        · cases h

theorem Supplied.isIdentifier_of_get? {map : CompressionMap} (h : map.Supplied) {name token : String}
    (hget : map.get? name = some token) : ClassName.isIdentifier token = true :=
  h.hasIdentifiers _ token hget

end CompressionMap

/-! ## The forms of a class name -/

theorem isAtomic_className (salt : String) (context : Context) (property value : String)
    (important : Bool) :
    ClassName.isAtomic (className salt context property value important) = true := by
  rw [ClassName.isAtomic, toList_className]
  show (_ && _) = true
  rw [Bool.and_eq_true, List.all_eq_true]
  constructor
  · rw [List.length_append, Digest.length_token, Digest.length_token]
    rfl
  · intro c hc
    rcases List.mem_append.mp hc with hc | hc
    · exact Digest.isTokenChar_of_mem_token hc
    · exact Digest.isTokenChar_of_mem_token hc

/-- A slot with a token is split into the two. -/
theorem ClassName.splitCompressed?_append {slot token : String} {rest : List Char}
    (hslot : slot.toList = '_' :: rest) (hlength : byteLength slot.toList = slotLength)
    (htoken : token.toList ≠ []) :
    splitCompressed? (slot ++ "_" ++ token) = some (slot, token) := by
  obtain ⟨c, tail, hchars⟩ := List.exists_cons_of_ne_nil htoken
  have hname : (slot ++ "_" ++ token).toList = slot.toList ++ '_' :: token.toList := by
    rw [String.append_assoc, String.toList_append, toList_underscore_append]
  have hcut : splitAtByte? slotLength (slot ++ "_" ++ token).toList =
      some (slot.toList, '_' :: c :: tail) := by
    rw [splitAtByte?_eq_some_iff, hname, hchars]
    exact ⟨rfl, hlength⟩
  unfold splitCompressed?
  rw [hcut, hname, hslot, List.cons_append]
  simp only
  rw [← hslot, ← hchars, String.ofList_toList, String.ofList_toList]

section Forms

variable {salt : String} {rule : AtomicRule} {map : CompressionMap}

theorem AtomicRule.Emitted.isWord (hrule : rule.Emitted salt) : IsWord rule.className := by
  rw [hrule.named]
  exact isWord_className ..

/-- A full class name is shown as it is. -/
theorem AtomicRule.Emitted.shown (hrule : rule.Emitted salt) :
    ClassName.shown rule.className = rule.className := by
  rw [hrule.named]
  exact ClassName.shown_of_not_compressed (splitCompressed?_className ..)

/-- Without a token, a class name stands for itself everywhere. -/
theorem elementClass_of_get?_none (h : map.get? rule.className = none) :
    rule.elementClass (some map) = rule.className ∧ rule.cssClass (some map) = rule.className := by
  constructor
  · simp [AtomicRule.elementClass, CompressionMap.compress?, h]
  · simp [AtomicRule.cssClass, h]

/-- With a token, the element gets the slot and the token, and the stylesheet the token. -/
theorem elementClass_of_get?_some (hrule : rule.Emitted salt) {token : String}
    (h : map.get? rule.className = some token) :
    rule.elementClass (some map) = ClassName.slot rule.className ++ "_" ++ token ∧
      rule.cssClass (some map) = token := by
  have hatomic : ClassName.isAtomic rule.className = true := by
    rw [hrule.named]
    exact isAtomic_className ..
  constructor
  · simp [AtomicRule.elementClass, CompressionMap.compress?, hatomic, h]
  · simp [AtomicRule.cssClass, h]

theorem splitCompressed?_elementClass (hrule : rule.Emitted salt) (hmap : map.Supplied)
    {token : String} (h : map.get? rule.className = some token) :
    ClassName.splitCompressed? (rule.elementClass (some map)) =
      some (ClassName.slot rule.className, token) := by
  have htoken := ClassName.ne_nil_of_isIdentifier (hmap.isIdentifier_of_get? h)
  rw [(elementClass_of_get?_some hrule h).1, hrule.named, slot_className]
  refine ClassName.splitCompressed?_append (toList_underscore_append _) ?_ htoken
  rw [toList_underscore_append, byteLength_cons, ClassName.byteLength_of_isTokenChar fun c hc =>
    Digest.isTokenChar_of_mem_token hc, Digest.length_token]
  rfl

/-- A class name on an element competes as the full class name does. -/
theorem slot_elementClass (hrule : rule.Emitted salt) (hmap : map.Supplied) :
    ClassName.slot (rule.elementClass (some map)) = ClassName.slot rule.className := by
  cases h : map.get? rule.className with
  | none => rw [(elementClass_of_get?_none h).1]
  | some token =>
    exact (ClassName.eq_of_splitCompressed? (splitCompressed?_elementClass hrule hmap h)).2.1

/-- What is shown of a class name on an element is the class name in the stylesheet. -/
theorem shown_elementClass (hrule : rule.Emitted salt) (hmap : map.Supplied) :
    ClassName.shown (rule.elementClass (some map)) = rule.cssClass (some map) := by
  cases h : map.get? rule.className with
  | none =>
    obtain ⟨helement, hcss⟩ := elementClass_of_get?_none h
    rw [helement, hcss, hrule.shown]
  | some token =>
    rw [ClassName.shown_of_splitCompressed? (splitCompressed?_elementClass hrule hmap h),
      (elementClass_of_get?_some hrule h).2]

theorem isWord_elementClass (hrule : rule.Emitted salt) (hmap : map.Supplied) :
    IsWord (rule.elementClass (some map)) := by
  cases h : map.get? rule.className with
  | none =>
    rw [(elementClass_of_get?_none h).1]
    exact hrule.isWord
  | some token =>
    have htoken := hmap.isIdentifier_of_get? h
    rw [(elementClass_of_get?_some hrule h).1, hrule.named, slot_className]
    have hchars : ("_" ++ Digest.token (slotSeed salt rule.context rule.property) ++ "_" ++
        token).toList = '_' :: ((Digest.token (slotSeed salt rule.context rule.property)).toList ++
          '_' :: token.toList) := by
      rw [String.append_assoc, String.append_assoc, toList_underscore_append, String.toList_append,
        toList_underscore_append]
    refine ⟨by rw [hchars]; exact List.cons_ne_nil _ _, fun c hc => ?_⟩
    rw [hchars] at hc
    rcases List.mem_cons.mp hc with rfl | hc
    · decide
    rcases List.mem_append.mp hc with hc | hc
    · exact ClassName.isBlank_of_isTokenChar (Digest.isTokenChar_of_mem_token hc)
    rcases List.mem_cons.mp hc with rfl | hc
    · decide
    · exact ClassName.isBlank_of_mem_isIdentifier htoken hc

/-- The class of a rule in the stylesheet can stand for a name in CSS. -/
theorem isIdentifier_cssClass {compression : Option CompressionMap} (hrule : rule.Emitted salt)
    (hmap : ∀ map, compression = some map → map.Supplied) :
    ClassName.isIdentifier (rule.cssClass compression) = true := by
  have hname : ClassName.isIdentifier rule.className = true := by
    rw [hrule.named, ← String.ofList_toList (s := className ..), toList_className]
    refine ClassName.isIdentifier_of_isTokenChar fun c hc => ?_
    rcases List.mem_append.mp hc with hc | hc
    · exact Digest.isTokenChar_of_mem_token hc
    · exact Digest.isTokenChar_of_mem_token hc
  cases compression with
  | none => exact hname
  | some map =>
    cases h : map.get? rule.className with
    | none => rwa [(elementClass_of_get?_none h).2]
    | some token =>
      rw [(elementClass_of_get?_some hrule h).2]
      exact (hmap map rfl).isIdentifier_of_get? h

end Forms

/-! ## Composition -/

/-- The class list of rules in the form in which it goes on an element. -/
def elementList (compression : Option CompressionMap) (rules : List AtomicRule) : String :=
  String.intercalate " " (rules.map (·.elementClass compression))

/-- The rules that are left when the class lists of rules are composed: those after which no rule has
their slot. -/
def survivingRules (lists : List (List AtomicRule)) : List AtomicRule :=
  latest (fun rule => ClassName.slot rule.className) lists.flatten

/-- Names that compete as the full class names do leave the same rules. -/
theorem compose_map_intercalate {lists : List (List AtomicRule)} {name : AtomicRule → String}
    (hword : ∀ rule ∈ lists.flatten, IsWord (name rule))
    (hslot : ∀ rule ∈ lists.flatten,
      ClassName.slot (name rule) = ClassName.slot rule.className) :
    ClassName.compose (lists.map fun rules => String.intercalate " " (rules.map name)) =
      String.intercalate " " ((survivingRules lists).map fun rule => ClassName.shown (name rule)) := by
  have hwords : (lists.map fun rules => String.intercalate " " (rules.map name)).flatMap wordsOf =
      lists.flatten.map name := by
    induction lists with
    | nil => rfl
    | cons rules rest ih =>
      have hrules : wordsOf (String.intercalate " " (rules.map name)) = rules.map name := by
        refine wordsOf_intercalate_of_isWord fun word hmem => ?_
        obtain ⟨rule, hrule, rfl⟩ := List.mem_map.mp hmem
        exact hword rule (List.mem_append_left _ hrule)
      have hrest := ih (fun rule hrule => hword rule (List.mem_append_right _ hrule))
        fun rule hrule => hslot rule (List.mem_append_right _ hrule)
      rw [List.map_cons, List.flatMap_cons, hrules, hrest, List.flatten_cons, List.map_append]
  have hlatest : latest (fun rule => ClassName.slot (name rule)) lists.flatten =
      survivingRules lists :=
    latest_congr fun rule hrule other hother => by rw [hslot rule hrule, hslot other hother]
  rw [ClassName.compose_eq, ClassName.survivors, hwords, latest_map, hlatest, List.map_map]
  rfl

/-- **Compression and composition.**  Take lists of rules as atomizing gives them, and a map as it is
supplied.  Composing the full class lists leaves certain rules; composing the compressed ones gives,
in the same order, what the stylesheet has for these rules.  So the class names on the element are
one by one those of the selectors of the rules that are left. -/
theorem compose_elementClass {map : CompressionMap} (hmap : map.Supplied)
    {lists : List (List AtomicRule)}
    (hlists : ∀ rules ∈ lists, ∀ rule ∈ rules,
      ∃ (salt : String) (block : Block), rule ∈ (block.atomize salt).rules) :
    ClassName.compose (lists.map (elementList none)) =
        String.intercalate " " ((survivingRules lists).map AtomicRule.className) ∧
      ClassName.compose (lists.map (elementList (some map))) =
        String.intercalate " " ((survivingRules lists).map (·.cssClass (some map))) ∧
      ∀ boosted, List.Forall₂
        (fun name rule => AtomicRule.selector rule ⟨boosted, some map⟩ =
          rule.context.render ("." ++ name ++ if boosted then AtomicRule.specificityBoost else ""))
        (wordsOf (ClassName.compose (lists.map (elementList (some map)))))
        (survivingRules lists) := by
  have hemitted : ∀ rule ∈ lists.flatten, ∃ salt, rule.Emitted salt := by
    intro rule hrule
    obtain ⟨rules, hrules, hrule⟩ := List.mem_flatten.mp hrule
    obtain ⟨salt, block, hblock⟩ := hlists rules hrules rule hrule
    exact ⟨salt, emitted_of_mem_atomize hblock⟩
  have hshown : ∀ rule ∈ survivingRules lists,
      ClassName.shown (rule.elementClass (some map)) = rule.cssClass (some map) := by
    intro rule hrule
    obtain ⟨salt, hrule⟩ := hemitted rule ((latest_sublist _ _).mem hrule)
    exact shown_elementClass hrule hmap
  have hcompressed : ClassName.compose (lists.map (elementList (some map))) =
      String.intercalate " " ((survivingRules lists).map (·.cssClass (some map))) := by
    rw [← List.map_congr_left hshown]
    refine compose_map_intercalate (fun rule hrule => ?_) fun rule hrule => ?_
    · obtain ⟨salt, hrule⟩ := hemitted rule hrule
      exact isWord_elementClass hrule hmap
    · obtain ⟨salt, hrule⟩ := hemitted rule hrule
      exact slot_elementClass hrule hmap
  refine ⟨?_, hcompressed, fun boosted => ?_⟩
  · have hfull : ∀ rule ∈ survivingRules lists,
        ClassName.shown rule.className = rule.className := by
      intro rule hrule
      obtain ⟨salt, hrule⟩ := hemitted rule ((latest_sublist _ _).mem hrule)
      exact hrule.shown
    rw [← List.map_congr_left hfull]
    refine compose_map_intercalate (fun rule hrule => ?_) fun rule _ => rfl
    obtain ⟨salt, hrule⟩ := hemitted rule hrule
    exact hrule.isWord
  · have hwords : wordsOf (ClassName.compose (lists.map (elementList (some map)))) =
        (survivingRules lists).map (·.cssClass (some map)) := by
      rw [hcompressed]
      refine wordsOf_intercalate_of_isWord fun name hname => ?_
      obtain ⟨rule, hrule, rfl⟩ := List.mem_map.mp hname
      rw [← hshown rule hrule]
      obtain ⟨salt, hrule⟩ := hemitted rule ((latest_sublist _ _).mem hrule)
      exact ClassName.isWord_shown (isWord_elementClass hrule hmap)
    rw [hwords, List.forall₂_map_left_iff, List.forall₂_same]
    exact fun rule _ => rfl

/-- A red text over a blue one, where red has a token.  The element gets the token, and so does the
selector of the red rule. -/
theorem compose_elementClass_red :
    let blue : Block := .declaration ⟨"color", [.text "blue"], false⟩ .nil
    let red : Block := .declaration ⟨"font-size", [.text "12px"], false⟩
      (.declaration ⟨"color", [.text "red"], false⟩ .nil)
    let map := CompressionMap.ofEntries [("syaz5scu", "a"), ("1wyb1fwx", "9x")]
    let lists := [(blue.atomize "").rules, (red.atomize "").rules]
    map.Supplied ∧
      (∀ rules ∈ lists, ∀ rule ∈ rules,
        ∃ (salt : String) (block : Block), rule ∈ (block.atomize salt).rules) ∧
      lists.map (elementList (some map)) = ["_syaz13q2", "_1wyb1fwx _syaz_a"] ∧
      ClassName.compose (lists.map (elementList none)) =
        String.intercalate " " ((survivingRules lists).map AtomicRule.className) ∧
      ClassName.compose (lists.map (elementList (some map))) =
        String.intercalate " " ((survivingRules lists).map (·.cssClass (some map))) ∧
      (survivingRules lists).map (·.selector ⟨true, some map⟩) =
        ["._1wyb1fwx:not(#\\#)", ".a:not(#\\#)"] := by
  intro blue red map lists
  have hmap : map.Supplied := .entries _
  have hlists : ∀ rules ∈ lists, ∀ rule ∈ rules,
      ∃ (salt : String) (block : Block), rule ∈ (block.atomize salt).rules := by
    intro rules hrules rule hrule
    rcases List.mem_cons.mp hrules with rfl | hrules
    · exact ⟨"", blue, hrule⟩
    · rw [List.mem_singleton.mp hrules] at hrule
      exact ⟨"", red, hrule⟩
  obtain ⟨hfull, hcompressed, -⟩ := compose_elementClass hmap hlists
  exact ⟨hmap, hlists, by decide +kernel, hfull, hcompressed, by decide +kernel⟩

end AtomicStyle

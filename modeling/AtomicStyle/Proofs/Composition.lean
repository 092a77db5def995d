import AtomicStyle.ClassName.Compose
import AtomicStyle.Proofs.Distinct
import AtomicStyle.Proofs.Words

/-!
# Composition of class lists

`compose` is the last name of each slot in its place, each in the form in which it is shown
(`compose_eq`); the shortcut for a single name changes nothing.  The result is a class list again,
so compositions can be nested.  A compressed name is shown as its token and leaves its slot behind,
so nesting is safe for the names that keep their slot and for no others.

Results:
1. `compose_eq`, `wordsOf_compose`: the names of a composition.
2. `compose_nested`: a composition inside another one, where every name keeps its slot.
3. `compose_nested_iff`: the exact condition under which an inner composition may be inlined.
4. `compose_keeps_last`: composition told by the places of the names, with its shortcut.
-/

namespace AtomicStyle.ClassName

open AtomicStyle.Text

/-! ## Compressed names -/

/-- A compressed name is its slot, an underscore and its token, and its slot is the one by which it
competes. -/
theorem eq_of_splitCompressed? {name s token : String}
    (h : splitCompressed? name = some (s, token)) :
    name = s ++ "_" ++ token ∧ slot name = s ∧ token.toList ≠ [] := by
  unfold splitCompressed? at h
  split at h
  · next rest hname =>
    split at h
    · next before c after hcut =>
      obtain ⟨rfl, rfl⟩ : String.ofList before = s ∧ String.ofList (c :: after) = token := by
        simpa using h
      obtain ⟨hchars, -⟩ := splitAtByte?_eq_some_iff.mp hcut
      refine ⟨?_, ?_, by simp⟩
      · apply String.toList_inj.mp
        rw [hchars]
        simp
      · rw [hname] at hcut
        simp only [slot, hname, hcut]
    · contradiction
  · contradiction

theorem shown_of_splitCompressed? {name s token : String}
    (h : splitCompressed? name = some (s, token)) : shown name = token := by
  simp only [shown, h]

theorem shown_of_not_compressed {name : String} (h : splitCompressed? name = none) :
    shown name = name := by
  simp only [shown, h]

/-- Showing a compressed name makes it shorter. -/
theorem shown_eq_self_iff {name : String} : shown name = name ↔ splitCompressed? name = none := by
  constructor
  · intro h
    cases hc : splitCompressed? name with
    | none => rfl
    | some parts =>
      obtain ⟨s, token⟩ := parts
      obtain ⟨hname, -, -⟩ := eq_of_splitCompressed? hc
      rw [shown_of_splitCompressed? hc] at h
      have hlen := congrArg String.length hname
      rw [String.length_append, String.length_append, h] at hlen
      have hone : "_".length = 1 := rfl
      omega
  · exact shown_of_not_compressed

/-- What is shown of a word is a word. -/
theorem isWord_shown {name : String} (h : IsWord name) : IsWord (shown name) := by
  cases hc : splitCompressed? name with
  | none => rwa [shown_of_not_compressed hc]
  | some parts =>
    obtain ⟨s, token⟩ := parts
    obtain ⟨hname, -, hne⟩ := eq_of_splitCompressed? hc
    rw [shown_of_splitCompressed? hc]
    refine ⟨hne, fun c hmem => h.2 c ?_⟩
    rw [hname, String.toList_append]
    exact List.mem_append_right _ hmem

/-! ## The names of a composition -/

/-- The names that are left when class lists are composed, as they were given. -/
def survivors (lists : List String) : List String :=
  latest slot (lists.flatMap wordsOf)

theorem isWord_of_mem_survivors {lists : List String} {name : String}
    (h : name ∈ survivors lists) : IsWord name := by
  obtain ⟨list, -, hname⟩ := List.mem_flatMap.mp ((latest_sublist _ _).mem h)
  exact isWord_of_mem_wordsOf hname

theorem nodup_map_slot_survivors (lists : List String) : ((survivors lists).map slot).Nodup :=
  nodup_map_latest slot _

/-- The shortcut for a single name agrees with the general rule. -/
theorem survivors_singleton {only : String} (hb : (trim only.toList).any isBlank = false)
    (hc : splitCompressed? (trimmed only) = none) :
    String.intercalate " " ((survivors [only]).map shown) = trimmed only := by
  have hletters : ∀ c ∈ trim only.toList, isBlank c = false := by
    intro c hmem
    simpa using List.any_eq_false.mp hb c hmem
  have hwords : wordsOf only = if trim only.toList = [] then [] else [trimmed only] := by
    rw [wordsOf, ← words_trim, words_of_forall_not_blank hletters]
    split <;> rfl
  have hlists : [only].flatMap wordsOf = wordsOf only := by simp
  rw [survivors, hlists, hwords]
  split
  · next hempty =>
    rw [trimmed, hempty]
    rfl
  · rw [latest_cons]
    simp [shown_of_not_compressed hc]

/-- Composition keeps the last name of each slot in its place and shows each name that is kept. -/
theorem compose_eq (lists : List String) :
    compose lists = String.intercalate " " ((survivors lists).map shown) := by
  unfold compose
  split
  · next only =>
    simp only
    split
    · next h =>
      simp only [Bool.and_eq_true, Bool.not_eq_true', Option.isNone_iff_eq_none] at h
      exact (survivors_singleton h.1 h.2).symm
    · rfl
  · rfl

/-- The names on the element. -/
theorem wordsOf_compose (lists : List String) :
    wordsOf (compose lists) = (survivors lists).map shown := by
  rw [compose_eq]
  apply wordsOf_intercalate_of_isWord
  intro name hname
  obtain ⟨original, ho, rfl⟩ := List.mem_map.mp hname
  exact isWord_shown (isWord_of_mem_survivors ho)

/-! ## Nested compositions -/

/-- A name that competes for the same slot in the form in which it is shown, and is shown as it is
from then on. -/
def KeepsSlot (name : String) : Prop :=
  slot (shown name) = slot name ∧ shown (shown name) = shown name

/-- Names that are not compressed keep their slot; a compressed name does iff its token is a name of
its slot that is not compressed in turn. -/
theorem keepsSlot_iff {name : String} :
    KeepsSlot name ↔ ∀ s token, splitCompressed? name = some (s, token) →
      slot token = s ∧ splitCompressed? token = none := by
  constructor
  · rintro ⟨hslot, hshown⟩ s token hc
    obtain ⟨-, hs, -⟩ := eq_of_splitCompressed? hc
    rw [shown_of_splitCompressed? hc] at hslot hshown
    exact ⟨hslot.trans hs, shown_eq_self_iff.mp hshown⟩
  · intro h
    cases hc : splitCompressed? name with
    | none =>
      rw [KeepsSlot, shown_of_not_compressed hc, shown_of_not_compressed hc]
      exact ⟨rfl, rfl⟩
    | some parts =>
      obtain ⟨s, token⟩ := parts
      obtain ⟨-, hs, -⟩ := eq_of_splitCompressed? hc
      obtain ⟨hslot, htoken⟩ := h s token hc
      rw [KeepsSlot, shown_of_splitCompressed? hc]
      exact ⟨hslot.trans hs.symm, shown_of_not_compressed htoken⟩

/-- What is shown of the last names depends only on the slots and the shown forms of all names. -/
theorem map_shown_latest_congr {names names' : List String}
    (h : names.map (fun name => (slot name, shown name)) =
      names'.map fun name => (slot name, shown name)) :
    (latest slot names).map shown = (latest slot names').map shown := by
  have hpairs : ∀ l : List String, (latest slot l).map shown =
      (latest Prod.fst (l.map fun name => (slot name, shown name))).map Prod.snd := by
    intro l
    rw [latest_map, List.map_map]
    rfl
  rw [hpairs, hpairs, h]

/-- Seen from outside, an inner composition is the list of the names that it shows. -/
theorem survivors_nested (before inner after : List String) :
    survivors (before ++ [compose inner] ++ after) =
      latest slot
        (before.flatMap wordsOf ++ (survivors inner).map shown ++ after.flatMap wordsOf) := by
  rw [survivors, List.flatMap_append, List.flatMap_append, List.flatMap_singleton, wordsOf_compose]

/-- Overriding inside an inner list first changes nothing. -/
theorem survivors_inner (before inner after : List String) :
    survivors (before ++ inner ++ after) =
      latest slot (before.flatMap wordsOf ++ survivors inner ++ after.flatMap wordsOf) := by
  rw [survivors, List.flatMap_append, List.flatMap_append]
  refine latest_append_congr (latest_append_congr rfl ?_) rfl
  rw [survivors, latest_latest]

/-- An inner composition may be inlined where every name it leaves keeps its slot. -/
theorem compose_nested {inner : List String} (h : ∀ name ∈ survivors inner, KeepsSlot name)
    (before after : List String) :
    compose (before ++ [compose inner] ++ after) = compose (before ++ inner ++ after) := by
  have hpairs : ((survivors inner).map shown).map (fun name => (slot name, shown name)) =
      (survivors inner).map fun name => (slot name, shown name) := by
    rw [List.map_map]
    apply List.map_congr_left
    intro name hname
    obtain ⟨hslot, hshown⟩ := h name hname
    exact Prod.ext hslot hshown
  rw [compose_eq (before ++ [compose inner] ++ after), compose_eq (before ++ inner ++ after),
    survivors_nested, survivors_inner]
  congr 1
  apply map_shown_latest_congr
  rw [List.map_append, List.map_append, hpairs, ← List.map_append, ← List.map_append]

/-- A composition that may be composed once more without change shows names of distinct slots, and
shows them as they are. -/
theorem shown_fixed_of_compose_compose {inner : List String}
    (h : compose [compose inner] = compose inner) :
    (((survivors inner).map shown).map slot).Nodup ∧
      ∀ name ∈ survivors inner, shown (shown name) = shown name := by
  have hnames : (latest slot ((survivors inner).map shown)).map shown =
      (survivors inner).map shown := by
    have hw := congrArg wordsOf h
    have houter := survivors_nested [] inner []
    simp only [List.nil_append, List.append_nil, List.flatMap_nil] at houter
    rwa [wordsOf_compose, wordsOf_compose, houter] at hw
  have hall : latest slot ((survivors inner).map shown) = (survivors inner).map shown := by
    apply (latest_sublist _ _).eq_of_length
    simpa using congrArg List.length hnames
  refine ⟨?_, fun name hname => ?_⟩
  · rw [← hall]
    exact nodup_map_latest slot _
  · rw [hall, List.map_map] at hnames
    exact List.map_inj_left.mp hnames name hname

/-- If a name that is shown in another slot could be inlined, the name itself, given once more at
the end, would be shown twice on one side and once on the other. -/
theorem slot_shown_of_nested {inner : List String}
    (h : ∀ before after, compose (before ++ [compose inner] ++ after) =
      compose (before ++ inner ++ after)) {name : String} (hname : name ∈ survivors inner) :
    slot (shown name) = slot name := by
  obtain ⟨hnodup, hfixed⟩ := shown_fixed_of_compose_compose (by simpa using h [] [])
  have hword : [name].flatMap wordsOf = [name] := by
    simp [wordsOf_of_isWord (isWord_of_mem_survivors hname)]
  have hlast : ∀ names : List String, (names.map slot).Nodup →
      latest slot (names ++ [name]) = names.filter (fun other => slot other ≠ slot name) ++ [name] := by
    intro names hn
    rw [latest_append, latest_of_nodup hn, latest_of_nodup (by simp)]
    simp
  have hw := congrArg wordsOf (h [] [name])
  rw [wordsOf_compose, wordsOf_compose, survivors_nested, survivors_inner, hword,
    List.flatMap_nil, List.nil_append, List.nil_append, hlast _ hnodup,
    hlast _ (nodup_map_slot_survivors inner), List.map_append, List.map_append,
    List.append_left_inj] at hw
  by_contra hne
  -- the shown name stands on the left, so another survivor is shown in the same way
  have hleft : shown name ∈
      (((survivors inner).map shown).filter fun other => slot other ≠ slot name).map shown := by
    refine List.mem_map.mpr ⟨shown name, List.mem_filter.mpr ⟨?_, by simpa using hne⟩, hfixed _ hname⟩
    exact List.mem_map_of_mem hname
  rw [hw] at hleft
  obtain ⟨other, hother, hshown⟩ := List.mem_map.mp hleft
  obtain ⟨hmem, hslot⟩ := List.mem_filter.mp hother
  have hinj := List.inj_on_of_nodup_map (List.Nodup.of_map slot hnodup)
  have hsame : other = name := hinj hmem hname hshown
  simp [hsame] at hslot

/-- **Nested composition.**  An inner composition may be inlined, whatever stands before and after
it, iff each compressed name that it leaves has a token that is itself a name of its slot and is not
compressed.  Names that are not compressed never stand in the way. -/
theorem compose_nested_iff (inner : List String) :
    (∀ before after, compose (before ++ [compose inner] ++ after) =
        compose (before ++ inner ++ after)) ↔
      ∀ name ∈ survivors inner, ∀ s token, splitCompressed? name = some (s, token) →
        slot token = s ∧ splitCompressed? token = none := by
  constructor
  · intro h name hname
    have hfixed := (shown_fixed_of_compose_compose (by simpa using h [] [])).2
    exact keepsSlot_iff.mp ⟨slot_shown_of_nested h hname, hfixed name hname⟩
  · intro h before after
    exact compose_nested (fun name hname => keepsSlot_iff.mpr (h name hname)) before after

/-- A compressed name that went through an inner composition no longer overrides the names of its
slot. -/
theorem compose_nested_compressed :
    compose (["_syaz13q2"] ++ [compose ["_syaz_a"]] ++ []) = "_syaz13q2 a" ∧
      compose (["_syaz13q2"] ++ ["_syaz_a"] ++ []) = "a" := by
  decide

/-! ## The last names of the slots -/

/-- The names of class lists after which no name of their slot comes, in order. -/
def lastNames (lists : List String) : List String :=
  let names := lists.flatMap wordsOf
  (names.zipIdx.filter fun (name, place) =>
    slot name ∉ (names.drop (place + 1)).map slot).map Prod.fst

theorem survivors_eq_lastNames (lists : List String) : survivors lists = lastNames lists :=
  latest_eq_filter_zipIdx slot (lists.flatMap wordsOf)

/-- **The last name of each slot.**  Composition shows the names that are the last ones of their
slots, in order and with single spaces between them.  A single name that is not compressed, with
blanks around it, is what is left of it alone. -/
theorem compose_keeps_last (lists : List String) :
    compose lists = String.intercalate " " ((lastNames lists).map shown) ∧
      ∀ only, (trim only.toList).any isBlank = false → splitCompressed? (trimmed only) = none →
        String.intercalate " " ((lastNames [only]).map shown) = trimmed only := by
  refine ⟨?_, fun only hblank hcompressed => ?_⟩
  · rw [compose_eq, survivors_eq_lastNames]
  · rw [← survivors_eq_lastNames]
    exact survivors_singleton hblank hcompressed

/-- Compressed, plain and non-ASCII names in lists with all kinds of blanks, and a single name that
opens like an atomic one. -/
theorem compose_keeps_last_mixed :
    lastNames ["_syaz5scu über\u2003card", "card _syaz_a", " _1wyb1fwx"] =
        ["über", "card", "_syaz_a", "_1wyb1fwx"] ∧
      compose ["_syaz5scu über\u2003card", "card _syaz_a", " _1wyb1fwx"] =
        "über card a _1wyb1fwx" ∧
      String.intercalate " " ((lastNames [" _grün\n"]).map shown) = "_grün" := by
  have hlast : lastNames ["_syaz5scu über\u2003card", "card _syaz_a", " _1wyb1fwx"] =
      ["über", "card", "_syaz_a", "_1wyb1fwx"] := by decide +kernel
  refine ⟨hlast, ?_, ?_⟩
  · rw [(compose_keeps_last _).1, hlast]
    decide +kernel
  · exact (compose_keeps_last []).2 " _grün\n" (by decide +kernel) (by decide +kernel)

end AtomicStyle.ClassName

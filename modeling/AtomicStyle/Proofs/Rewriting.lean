import AtomicStyle.Compile.Source
import Mathlib.Data.List.Perm.Subperm
import Mathlib.Data.List.Pairwise

/-!
# Rewritten sources

The sites of a unit come with spans that nothing is known about.  A source text is rewritten with a
cursor: a site that starts at the cursor or after it and covers a text of the source is replaced,
and the cursor moves behind it.  The others are passed over.

Results:
1. `Span.parts?_eq_some_iff`, `Span.isSome_slice?_iff`: what the ends of a span have to be.
2. `rewritten?_chosenFrom`: rewriting puts together slices of the source and replacements.
3. `pairwise_chosenFrom`, `chosenFrom_maximal`: the sites that are replaced are apart, and no other
   site could be replaced beside them.
4. `chosenFrom_eq_self`: sites in order that are apart are all replaced.
5. `emitSource_replaces`: what is emitted for a unit.
-/

namespace AtomicStyle

open AtomicStyle.Text

/-! ## Ends of spans -/

theorem eq_nil_of_byteLength_eq_zero {s : List Char} (h : byteLength s = 0) : s = [] := by
  cases s with
  | nil => rfl
  | cons c s =>
    have hc := c.utf8Size_pos
    rw [byteLength_cons] at h
    omega

namespace Span

/-- The parts at a span are the text cut at the two ends of the span. -/
theorem parts?_eq_some_iff {span : Span} {source before inside after : List Char} :
    span.parts? source = some (before, inside, after) ↔
      source = before ++ (inside ++ after) ∧ byteLength before = span.lo ∧
        span.lo + byteLength inside = span.hi := by
  unfold parts?
  by_cases horder : span.hi < span.lo
  · simp only [horder, if_true]
    constructor
    · intro h
      cases h
    · rintro ⟨-, -, h⟩
      omega
  · simp only [horder, if_false, Option.bind_eq_bind, Option.bind_eq_some_iff,
      Prod.exists, splitAtByte?_eq_some_iff, Option.pure_def, Option.some.injEq, Prod.mk.injEq]
    constructor
    · rintro ⟨_, rest, ⟨rfl, hbefore⟩, _, _, ⟨rfl, hinside⟩, rfl, rfl, rfl⟩
      exact ⟨rfl, hbefore, by omega⟩
    · rintro ⟨rfl, hbefore, hinside⟩
      exact ⟨before, inside ++ after, ⟨rfl, hbefore⟩, inside, after, ⟨rfl, by omega⟩, rfl, rfl, rfl⟩

/-- A span covers a text iff it does not locate nothing and its ends lie between characters. -/
theorem isSome_slice?_iff {span : Span} {source : String} :
    (span.slice? source).isSome = true ↔ span.isNone = false ∧ ∃ before inside after,
      source.toList = before ++ (inside ++ after) ∧ byteLength before = span.lo ∧
        span.lo + byteLength inside = span.hi := by
  unfold slice?
  cases hnone : span.isNone with
  | true => simp
  | false =>
    simp only [Bool.false_eq_true, if_false, Option.isSome_map, Option.isSome_iff_exists,
      Prod.exists, parts?_eq_some_iff, true_and]

theorem lo_le_hi_of_isSome {span : Span} {source : String}
    (h : (span.slice? source).isSome = true) : span.lo ≤ span.hi := by
  obtain ⟨-, before, inside, after, -, -, hinside⟩ := isSome_slice?_iff.mp h
  omega

/-- A text in front moves a span. -/
theorem parts?_append {lo hi : Nat} {done : List Char} (hlo : byteLength done ≤ lo) (hhi : lo ≤ hi)
    (rest : List Char) :
    parts? ⟨lo, hi⟩ (done ++ rest) =
      (parts? ⟨lo - byteLength done, hi - byteLength done⟩ rest).map fun parts =>
        (done ++ parts.1, parts.2) := by
  apply Option.ext
  rintro ⟨before, inside, after⟩
  simp only [Option.map_eq_some_iff, Prod.exists, parts?_eq_some_iff, Prod.mk.injEq]
  constructor
  · rintro ⟨hsource, hbefore, hinside⟩
    obtain ⟨piece, rfl, hrest⟩ :
        ∃ piece, before = done ++ piece ∧ rest = piece ++ (inside ++ after) := by
      rcases List.append_eq_append_iff.mp hsource with
        ⟨piece, hpiece, hrest⟩ | ⟨piece, hpiece, hrest⟩
      · exact ⟨piece, hpiece, hrest⟩
      · -- the cursor is not behind the span, so nothing lies between them
        have hlength := congrArg byteLength hpiece
        rw [byteLength_append] at hlength
        obtain rfl := eq_nil_of_byteLength_eq_zero (by omega : byteLength piece = 0)
        exact ⟨[], by simpa using hpiece.symm, by simpa using hrest.symm⟩
    rw [byteLength_append] at hbefore
    exact ⟨piece, inside, after, ⟨hrest, by omega, by omega⟩, rfl, rfl, rfl⟩
  · rintro ⟨piece, _, _, ⟨rfl, hpiece, hinside⟩, rfl, rfl, rfl⟩
    rw [byteLength_append, List.append_assoc]
    exact ⟨rfl, by omega, by omega⟩

end Span

/-! ## Slices and replacements -/

/-- The text between two byte offsets.  There is none if they are not in order, or if one of them
lies beyond the end or inside a character. -/
def between? (source : List Char) (lo hi : Nat) : Option (List Char) :=
  (Span.parts? ⟨lo, hi⟩ source).map (·.2.1)

/-- The source from an offset on, with the replacements of sites between slices of it.  There is
none if there is no slice between two of them. -/
def rewritten? (source : List Char) (offset : Nat) : List SiteOutput → Option (List Char)
  | [] => between? source offset (byteLength source)
  | site :: sites => do
    let kept ← between? source offset site.span.lo
    let later ← rewritten? source site.span.hi sites
    return kept ++ site.replacement.toList ++ later

/-- The sites that are replaced from an offset on. -/
def chosenFrom (source : String) (offset : Nat) : List SiteOutput → List SiteOutput
  | [] => []
  | site :: sites =>
    if offset ≤ site.span.lo ∧ (site.span.slice? source).isSome = true then
      site :: chosenFrom source site.span.hi sites
    else chosenFrom source offset sites

section Cursor

variable {source : String} {offset : Nat} {site : SiteOutput} {sites : List SiteOutput}

theorem chosenFrom_cons_of_pos (hlo : offset ≤ site.span.lo)
    (hslice : (site.span.slice? source).isSome = true) :
    chosenFrom source offset (site :: sites) = site :: chosenFrom source site.span.hi sites :=
  if_pos ⟨hlo, hslice⟩

theorem chosenFrom_cons_of_neg
    (h : ¬ (offset ≤ site.span.lo ∧ (site.span.slice? source).isSome = true)) :
    chosenFrom source offset (site :: sites) = chosenFrom source offset sites :=
  if_neg h

/-! ## One site -/

/-- A site that covers a text behind the cursor is replaced. -/
theorem replaceFrom_cons_of_pos (sites : List SiteOutput) {done rest : List Char}
    (hsource : source.toList = done ++ rest) (hlo : byteLength done ≤ site.span.lo)
    (hslice : (site.span.slice? source).isSome = true) :
    ∃ before inside after, rest = before ++ (inside ++ after) ∧
      byteLength done + byteLength before = site.span.lo ∧
      site.span.lo + byteLength inside = site.span.hi ∧
      replaceFrom (byteLength done) rest (site :: sites) =
        before ++ site.replacement.toList ++ replaceFrom site.span.hi after sites := by
  have horder := Span.lo_le_hi_of_isSome hslice
  have hnone := (Span.isSome_slice?_iff.mp hslice).1
  have hparts : (Span.parts? ⟨site.span.lo, site.span.hi⟩ (done ++ rest)).isSome = true := by
    rw [Span.slice?, hnone, hsource] at hslice
    simpa using hslice
  rw [Span.parts?_append hlo horder, Option.isSome_map] at hparts
  obtain ⟨⟨before, inside, after⟩, hcut⟩ := Option.isSome_iff_exists.mp hparts
  obtain ⟨hrest, hbefore, hinside⟩ := Span.parts?_eq_some_iff.mp hcut
  refine ⟨before, inside, after, hrest, ?_, ?_, ?_⟩
  · change byteLength before = site.span.lo - byteLength done at hbefore
    omega
  · change site.span.lo - byteLength done + byteLength inside =
      site.span.hi - byteLength done at hinside
    omega
  · have hguard : ¬ (site.span.isNone || decide (site.span.lo < byteLength done) ||
        decide (site.span.hi < site.span.lo)) = true := by
      simp only [hnone, Bool.false_or, Bool.or_eq_true, decide_eq_true_eq]
      omega
    rw [replaceFrom, if_neg hguard, hcut]

/-- Any other site is passed over. -/
theorem replaceFrom_cons_of_neg {done rest : List Char} (hsource : source.toList = done ++ rest)
    (h : ¬ (byteLength done ≤ site.span.lo ∧ (site.span.slice? source).isSome = true)) :
    replaceFrom (byteLength done) rest (site :: sites) =
      replaceFrom (byteLength done) rest sites := by
  rw [replaceFrom]
  split
  · rfl
  · next hguard =>
    simp only [Bool.or_eq_true, decide_eq_true_eq, not_or, Nat.not_lt] at hguard
    obtain ⟨⟨hnone, hlo⟩, horder⟩ := hguard
    have hcut : Span.parts? ⟨site.span.lo - byteLength done, site.span.hi - byteLength done⟩ rest =
        none := by
      have hslice : ¬ (site.span.slice? source).isSome = true := fun hslice => h ⟨hlo, hslice⟩
      rw [Span.slice?, if_neg hnone, hsource, Option.isSome_map] at hslice
      change ¬ (Span.parts? ⟨site.span.lo, site.span.hi⟩ (done ++ rest)).isSome = true at hslice
      rw [Span.parts?_append hlo horder, Option.isSome_map] at hslice
      simpa using hslice
    rw [hcut]

/-! ## All sites -/

theorem between?_append (done inside after : List Char) :
    between? (done ++ (inside ++ after)) (byteLength done) (byteLength done + byteLength inside) =
      some inside := by
  rw [between?, Span.parts?_eq_some_iff.mpr ⟨rfl, rfl, rfl⟩]
  rfl

/-- Rewriting puts together slices of the source and the replacements of the sites that it takes. -/
theorem rewritten?_chosenFrom (sites : List SiteOutput) {done rest : List Char}
    (hsource : source.toList = done ++ rest) :
    rewritten? source.toList (byteLength done) (chosenFrom source (byteLength done) sites) =
      some (replaceFrom (byteLength done) rest sites) := by
  -- over every split of the source at the cursor
  induction sites generalizing done rest with
  | nil =>
    have hlast := between?_append done rest []
    rw [List.append_nil, ← hsource, ← byteLength_append, ← hsource] at hlast
    exact hlast
  | cons site sites ih =>
    by_cases h : byteLength done ≤ site.span.lo ∧ (site.span.slice? source).isSome = true
    · obtain ⟨before, inside, after, rfl, hbefore, hinside, hreplace⟩ :=
        replaceFrom_cons_of_pos sites hsource h.1 h.2
      have hkept := between?_append done before (inside ++ after)
      rw [hbefore, ← hsource] at hkept
      have hcursor : byteLength (done ++ before ++ inside) = site.span.hi := by
        rw [byteLength_append, byteLength_append, hbefore, hinside]
      have hwhole : source.toList = done ++ before ++ inside ++ after := by simp [hsource]
      have hlater := ih hwhole
      rw [hcursor] at hlater
      rw [chosenFrom_cons_of_pos h.1 h.2, hreplace, rewritten?, hkept, hlater]
      rfl
    · rw [chosenFrom_cons_of_neg h, replaceFrom_cons_of_neg hsource h, ih hsource]

theorem chosenFrom_sublist (source : String) (offset : Nat) (sites : List SiteOutput) :
    (chosenFrom source offset sites).Sublist sites := by
  induction sites generalizing offset with
  | nil => exact List.Sublist.refl _
  | cons site sites ih =>
    rw [chosenFrom]
    split
    · exact (ih site.span.hi).cons_cons site
    · exact (ih offset).cons site

/-- The sites that are replaced start at the cursor or after it, and cover texts of the source. -/
theorem of_mem_chosenFrom (h : site ∈ chosenFrom source offset sites) :
    offset ≤ site.span.lo ∧ (site.span.slice? source).isSome = true := by
  induction sites generalizing offset with
  | nil => exact absurd h List.not_mem_nil
  | cons first sites ih =>
    rw [chosenFrom] at h
    split at h
    · next hfirst =>
      rcases List.mem_cons.mp h with rfl | h
      · exact hfirst
      · have horder := Span.lo_le_hi_of_isSome hfirst.2
        obtain ⟨hlo, hslice⟩ := ih h
        exact ⟨by omega, hslice⟩
    · exact ih h

/-- Each site that is replaced ends before the next ones start. -/
theorem pairwise_chosenFrom (source : String) (offset : Nat) (sites : List SiteOutput) :
    (chosenFrom source offset sites).Pairwise fun a b => a.span.hi ≤ b.span.lo := by
  induction sites generalizing offset with
  | nil => exact List.Pairwise.nil
  | cons site sites ih =>
    rw [chosenFrom]
    split
    · refine List.pairwise_cons.mpr ⟨fun other hother => ?_, ih site.span.hi⟩
      exact (of_mem_chosenFrom hother).1
    · exact ih offset

/-- Of sites in order, one that covers a text and is not replaced starts before the cursor or inside
a site that is replaced. -/
theorem chosenFrom_maximal (hsorted : sites.Pairwise fun a b => a.span.lo ≤ b.span.lo)
    (hsite : site ∈ sites) (hslice : (site.span.slice? source).isSome = true) :
    site ∈ chosenFrom source offset sites ∨ site.span.lo < offset ∨
      ∃ other ∈ chosenFrom source offset sites,
        other.span.lo ≤ site.span.lo ∧ site.span.lo < other.span.hi := by
  induction sites generalizing offset with
  | nil => exact absurd hsite List.not_mem_nil
  | cons first sites ih =>
    obtain ⟨hfirst, hrest⟩ := List.pairwise_cons.mp hsorted
    by_cases h : offset ≤ first.span.lo ∧ (first.span.slice? source).isSome = true
    · rw [chosenFrom_cons_of_pos h.1 h.2]
      rcases List.mem_cons.mp hsite with rfl | hsite
      · exact Or.inl List.mem_cons_self
      · rcases @ih first.span.hi hrest hsite with hmem | hlt | ⟨other, hother, hinside⟩
        · exact Or.inl (List.mem_cons_of_mem _ hmem)
        · exact Or.inr (Or.inr ⟨first, List.mem_cons_self, hfirst site hsite, hlt⟩)
        · exact Or.inr (Or.inr ⟨other, List.mem_cons_of_mem _ hother, hinside⟩)
    · rw [chosenFrom_cons_of_neg h]
      rcases List.mem_cons.mp hsite with rfl | hsite
      · exact Or.inr (Or.inl (Nat.lt_of_not_le fun hlo => h ⟨hlo, hslice⟩))
      · exact ih hrest hsite

/-- Sites in order that are apart are all replaced. -/
theorem chosenFrom_eq_self (hslice : ∀ site ∈ sites, (site.span.slice? source).isSome = true)
    (hapart : sites.Pairwise fun a b => a.span.hi ≤ b.span.lo)
    (hlo : ∀ site ∈ sites, offset ≤ site.span.lo) : chosenFrom source offset sites = sites := by
  induction sites generalizing offset with
  | nil => rfl
  | cons site sites ih =>
    obtain ⟨hsite, hrest⟩ := List.pairwise_cons.mp hapart
    rw [chosenFrom_cons_of_pos (hlo site List.mem_cons_self) (hslice site List.mem_cons_self)]
    rw [ih (fun other hother => hslice other (List.mem_cons_of_mem _ hother)) hrest hsite]

end Cursor

/-! ## Sites in any order -/

/-- Neither of two sites starts before the other one ends. -/
def SiteOutput.Apart (a b : SiteOutput) : Prop :=
  a.span.hi ≤ b.span.lo ∨ b.span.hi ≤ a.span.lo

instance (a b : SiteOutput) : Decidable (a.Apart b) :=
  inferInstanceAs (Decidable (_ ∨ _))

/-- Sites that can all be replaced: they cover texts of the source, and none is empty or meets
another one. -/
structure WellPlaced (source : String) (sites : List SiteOutput) : Prop where
  covers : ∀ site ∈ sites, (site.span.slice? source).isSome = true
  nonempty : ∀ site ∈ sites, site.span.lo < site.span.hi
  apart : sites.Pairwise SiteOutput.Apart

/-- Sites in the order in which they start. -/
def inOrder (sites : List SiteOutput) : List SiteOutput :=
  sites.mergeSort fun a b => a.span.lo ≤ b.span.lo

theorem pairwise_inOrder (sites : List SiteOutput) :
    (inOrder sites).Pairwise fun a b => a.span.lo ≤ b.span.lo := by
  have hsorted : (inOrder sites).Pairwise fun a b => decide (a.span.lo ≤ b.span.lo) = true := by
    refine List.pairwise_mergeSort ?_ ?_ sites
    · intro a b c hab hbc
      exact decide_eq_true (Nat.le_trans (of_decide_eq_true hab) (of_decide_eq_true hbc))
    · intro a b
      simpa using Nat.le_total a.span.lo b.span.lo
  exact hsorted.imp of_decide_eq_true

theorem WellPlaced.perm {source : String} {sites other : List SiteOutput}
    (h : WellPlaced source sites) (hperm : other.Perm sites) : WellPlaced source other where
  covers site hsite := h.covers site (hperm.subset hsite)
  nonempty site hsite := h.nonempty site (hperm.subset hsite)
  apart := (hperm.pairwise_iff Or.symm).mpr h.apart

/-- In order, well-placed sites follow each other. -/
theorem WellPlaced.pairwise_inOrder {source : String} {sites : List SiteOutput}
    (h : WellPlaced source sites) :
    (inOrder sites).Pairwise fun a b => a.span.hi ≤ b.span.lo := by
  have hplaced := h.perm (List.mergeSort_perm sites _ : (inOrder sites).Perm sites)
  refine ((AtomicStyle.pairwise_inOrder sites).and hplaced.apart).imp_of_mem ?_
  rintro a b - hb ⟨hle, hab | hba⟩
  · exact hab
  · have hnonempty := hplaced.nonempty b hb
    omega

/-- The order in which well-placed sites are given does not matter. -/
theorem WellPlaced.inOrder_eq {source : String} {sites other : List SiteOutput}
    (h : WellPlaced source sites) (hperm : other.Perm sites) : inOrder other = inOrder sites := by
  refine List.Perm.eq_of_pairwise ?_ (h.perm hperm).pairwise_inOrder h.pairwise_inOrder ?_
  · intro a b ha hb hab hba
    have hfirst := h.nonempty a (hperm.subset (List.mem_mergeSort.mp ha))
    have hsecond := h.nonempty b (List.mem_mergeSort.mp hb)
    omega
  · exact (List.mergeSort_perm other _).trans (hperm.trans (List.mergeSort_perm sites _).symm)

theorem replaceSites_eq (source : String) (sites : List SiteOutput) :
    ∃ out, rewritten? source.toList 0 (chosenFrom source 0 (inOrder sites)) = some out ∧
      replaceSites source sites = String.ofList out := by
  refine ⟨replaceFrom 0 source.toList (inOrder sites), ?_, rfl⟩
  exact rewritten?_chosenFrom (inOrder sites) (List.nil_append source.toList).symm

/-- **Rewriting touches only the sites.**  Whatever the spans of the sites are, some of the sites
are chosen.  They cover texts of the source and follow each other; every other site covers no text
or starts inside a chosen one.  What is emitted is the header, if there are sites, and the source in
which the chosen sites are replaced; the rest is put together from slices between them, and there is
always such a slice.  If the sites are well placed then all of them are chosen, and the text does
not depend on the order in which they are given. -/
theorem emitSource_replaces (options : Options) (source : String) (sites : List SiteOutput)
    (ruleTexts : List String) :
    ∃ chosen : List SiteOutput, chosen.Subperm sites ∧
      (chosen.Pairwise fun a b => a.span.hi ≤ b.span.lo) ∧
      (∀ site ∈ chosen, (site.span.slice? source).isSome = true) ∧
      (∀ site ∈ sites, site ∈ chosen ∨ site.span.slice? source = none ∨
        ∃ other ∈ chosen, other.span.lo ≤ site.span.lo ∧ site.span.lo < other.span.hi) ∧
      (∃ out, rewritten? source.toList 0 chosen = some out ∧
        emitSource options source sites ruleTexts =
          (if sites.isEmpty then "" else header options ruleTexts) ++ String.ofList out) ∧
      (WellPlaced source sites → chosen.Perm sites ∧ ∀ other : List SiteOutput, other.Perm sites →
        emitSource options source other ruleTexts = emitSource options source sites ruleTexts) := by
  have hperm : (inOrder sites).Perm sites := List.mergeSort_perm sites _
  refine ⟨chosenFrom source 0 (inOrder sites), ?_, pairwise_chosenFrom source 0 _,
    fun site hsite => (of_mem_chosenFrom hsite).2, ?_, ?_, ?_⟩
  · exact (chosenFrom_sublist source 0 _).subperm.trans hperm.subperm
  · intro site hsite
    cases hslice : site.span.slice? source with
    | none => exact Or.inr (Or.inl rfl)
    | some text =>
      have hcovers : (site.span.slice? source).isSome = true := by rw [hslice]; rfl
      rcases chosenFrom_maximal (pairwise_inOrder sites) (hperm.mem_iff.mpr hsite) hcovers with
        hmem | hlt | hinside
      · exact Or.inl hmem
      · exact absurd hlt (Nat.not_lt_zero _)
      · exact Or.inr (Or.inr hinside)
  · obtain ⟨out, hout, hreplace⟩ := replaceSites_eq source sites
    exact ⟨out, hout, by rw [emitSource, hreplace]⟩
  · intro hplaced
    constructor
    · rw [chosenFrom_eq_self (hplaced.perm hperm).covers hplaced.pairwise_inOrder
        fun _ _ => Nat.zero_le _]
      exact hperm
    · intro other hother
      have hempty : other.isEmpty = sites.isEmpty := by
        rw [Bool.eq_iff_iff, List.isEmpty_iff, List.isEmpty_iff]
        exact ⟨fun h => List.perm_nil.mp (h ▸ hother.symm), fun h => List.perm_nil.mp (h ▸ hother)⟩
      have hsame : replaceSites source other = replaceSites source sites :=
        congrArg (fun ordered => String.ofList (replaceFrom 0 source.toList ordered))
          (hplaced.inOrder_eq hother)
      rw [emitSource, emitSource, hempty, hsame]

/-- A site with a span and a replacement. -/
def siteAt (lo hi : Nat) (replacement : String) : SiteOutput :=
  ⟨⟨lo, hi⟩, replacement, [], [], []⟩

/-- Two sites in the wrong order, after a character of two bytes, are both replaced. -/
theorem emitSource_replaces_two :
    let source := "é<A/> + <B/>;"
    let sites := [siteAt 9 13 "b()", siteAt 2 6 "a()"]
    WellPlaced source sites ∧
      emitSource { importRuntime := false } source sites ["r"] =
        "const _0 = \"r\";\néa() + b();" ∧
      ∃ chosen : List SiteOutput, chosen.Perm sites ∧
        rewritten? source.toList 0 chosen = some "éa() + b();".toList := by
  intro source sites
  have hplaced : WellPlaced source sites :=
    ⟨by decide +kernel, by decide +kernel, by decide +kernel⟩
  obtain ⟨chosen, -, -, -, -, ⟨out, hout, hemit⟩, hall⟩ :=
    emitSource_replaces { importRuntime := false } source sites ["r"]
  obtain ⟨hperm, horder⟩ := hall hplaced
  have hsorted : inOrder sites.reverse = sites.reverse := List.mergeSort_of_pairwise (by decide)
  have htext : emitSource { importRuntime := false } source sites ["r"] =
      "const _0 = \"r\";\néa() + b();" := by
    rw [← horder sites.reverse (List.reverse_perm sites), emitSource, replaceSites]
    change _ ++ String.ofList (replaceFrom 0 source.toList (inOrder sites.reverse)) = _
    rw [hsorted]
    decide +kernel
  refine ⟨hplaced, htext, chosen, hperm, ?_⟩
  have hbody : "const _0 = \"r\";\n" ++ String.ofList out =
      "const _0 = \"r\";\n" ++ "éa() + b();" :=
    hemit.symm.trans htext
  rw [hout, ← String.append_right_inj _ |>.mp hbody, String.toList_ofList]

/-- A span that locates nothing, one that starts inside a character, one that meets the site before
it, one that is reversed and one beyond the end: only the third site is replaced. -/
example :
    let site (lo hi : Nat) : SiteOutput := ⟨⟨lo, hi⟩, "a()", [], [], []⟩
    replaceFrom 0 "é<A/> + <B/>;".toList
        [site 0 0, site 1 6, site 2 6, site 4 9, site 7 3, site 9 99] =
      "éa() + <B/>;".toList := by
  decide +kernel

end AtomicStyle

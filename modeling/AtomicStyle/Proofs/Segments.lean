import AtomicStyle.Proofs.Spelling

/-!
# Words and the blanks between them

The words of a value with the blanks that follow each of them.  The canonical spelling keeps the words,
spells some of them anew, and puts one space for the blanks between two words.

Results:
1. `marks_segmentsOf`: words and blanks make up the value.
2. `wordChars_eq`: the words are those of the value.
3. `toList_canonical`: the canonical spelling, word by word.
-/

namespace AtomicStyle.Css

open AtomicStyle.Text

/-- A word and the characters that separate it from the next one. -/
structure Segment where
  word : List Char
  gap : List Char
  ne_nil : word ≠ []
deriving DecidableEq

namespace Segment

def text (segment : Segment) : List Char :=
  segment.word ++ segment.gap

/-- The characters, each with whether it separates words. -/
def marks (segment : Segment) : List (Char × Bool) :=
  segment.word.map (·, false) ++ segment.gap.map (·, true)

/-- Puts a character of a word before separators and segments. -/
def attach (c : Char) : List Char × List Segment → List Segment
  | ([], first :: segments) => ⟨c :: first.word, first.gap, List.cons_ne_nil _ _⟩ :: segments
  | (gap, segments) => ⟨[c], gap, List.cons_ne_nil _ _⟩ :: segments

end Segment

/-- The separators that marked characters begin with, and the segments after them. -/
def segmentsOf : List (Char × Bool) → List Char × List Segment
  | [] => ([], [])
  | (c, true) :: rest => (c :: (segmentsOf rest).1, (segmentsOf rest).2)
  | (c, false) :: rest => ([], Segment.attach c (segmentsOf rest))

theorem marks_attach (c : Char) (parts : List Char × List Segment) :
    (Segment.attach c parts).flatMap Segment.marks =
      (c, false) :: (parts.1.map (·, true) ++ parts.2.flatMap Segment.marks) := by
  fun_cases Segment.attach c parts with
  | case1 first segments => simp [Segment.marks]
  | case2 gap segments => simp [Segment.marks]

/-- Separators and segments make up the marked characters. -/
theorem marks_segmentsOf (marked : List (Char × Bool)) :
    (segmentsOf marked).1.map (·, true) ++ (segmentsOf marked).2.flatMap Segment.marks = marked := by
  fun_induction segmentsOf marked with
  | case1 => rfl
  | case2 c rest ih => exact congrArg (List.cons (c, true)) ih
  | case3 c rest ih => rw [List.map_nil, List.nil_append, marks_attach, ih]

/-- Separators stand between any two segments. -/
theorem isChain_segmentsOf (marked : List (Char × Bool)) :
    (segmentsOf marked).2.IsChain fun segment _ => segment.gap ≠ [] := by
  fun_induction segmentsOf marked with
  | case1 => exact .nil
  | case2 c rest ih => exact ih
  | case3 c rest ih =>
    generalize segmentsOf rest = parts at ih
    fun_cases Segment.attach c parts with
    | case1 first segments =>
      cases segments with
      | nil => exact .singleton _
      | cons next segments => exact List.isChain_cons_cons.mpr (List.isChain_cons_cons.mp ih)
    | case2 gap segments hfirst =>
      cases segments with
      | nil => exact .singleton _
      | cons next segments =>
        refine List.isChain_cons_cons.mpr ⟨?_, ih⟩
        rintro rfl
        exact hfirst next segments rfl rfl

/-! ## Words -/

theorem splitOnP_map_false (word : List Char) :
    (word.map (·, false)).splitOnP Prod.snd = [word.map (·, false)] := by
  refine List.splitOnP_eq_singleton fun x hx => ?_
  obtain ⟨c, -, rfl⟩ := List.mem_map.mp hx
  rfl

theorem unmark_map (s : List Char) (mark : Bool) : unmark (s.map (·, mark)) = s := by
  unfold unmark
  rw [List.map_map]
  exact List.map_id s

/-- The words among marked characters. -/
def markedWords (marked : List (Char × Bool)) : List (List Char) :=
  ((marked.splitOnP Prod.snd).map unmark).filter (!·.isEmpty)

theorem markedWords_gap (gap : List Char) (rest : List (Char × Bool)) :
    markedWords (gap.map (·, true) ++ rest) = markedWords rest := by
  induction gap with
  | nil => rfl
  | cons c gap ih =>
    have hsplit := List.splitOnP_append_cons [] (gap.map (·, true) ++ rest)
      (by rfl : Prod.snd (c, true) = true)
    rw [List.map_cons, List.cons_append, ← ih]
    unfold markedWords
    rw [← List.nil_append (_ :: _), hsplit]
    rfl

theorem markedWords_word (segment : Segment) {rest : List (Char × Bool)}
    (h : segment.gap = [] → rest = []) :
    markedWords (segment.marks ++ rest) = segment.word :: markedWords rest := by
  have hword : [segment.word].filter (!·.isEmpty) = [segment.word] := by
    simp [segment.ne_nil]
  unfold Segment.marks
  cases hgap : segment.gap with
  | nil =>
    rw [h hgap]
    unfold markedWords
    rw [List.map_nil, List.append_nil, List.append_nil, splitOnP_map_false, List.map_singleton,
      unmark_map, hword]
    rfl
  | cons c gap =>
    have hsplit := List.splitOnP_append_cons (segment.word.map (·, false))
      (gap.map (·, true) ++ rest) (by rfl : Prod.snd (c, true) = true)
    rw [← markedWords_gap gap rest]
    unfold markedWords
    rw [List.append_assoc, List.map_cons, List.cons_append, hsplit, splitOnP_map_false,
      List.map_append, List.filter_append, List.map_singleton, unmark_map, hword]
    rfl

theorem markedWords_segments {segments : List Segment}
    (h : segments.IsChain fun segment _ => segment.gap ≠ []) :
    markedWords (segments.flatMap Segment.marks) = segments.map Segment.word := by
  induction segments with
  | nil => rfl
  | cons segment segments ih =>
    have hend : segment.gap = [] → segments.flatMap Segment.marks = [] := by
      intro hgap
      cases segments with
      | nil => rfl
      | cons next segments => exact absurd hgap (List.isChain_cons_cons.mp h).1
    rw [List.flatMap_cons, markedWords_word segment hend, ih h.of_cons, List.map_cons]

/-- The segments of a value. -/
def segments (s : List Char) : List Segment :=
  (segmentsOf (wordMarksFrom 0 none s)).2

/-- The words of a value are those of its segments. -/
theorem wordChars_eq (s : List Char) : wordChars s = (segments s).map Segment.word := by
  show markedWords (wordMarksFrom 0 none s) = _
  conv => lhs; rw [← marks_segmentsOf (wordMarksFrom 0 none s)]
  rw [markedWords_gap, markedWords_segments (isChain_segmentsOf _)]
  rfl

theorem unmark_marks (segment : Segment) : unmark segment.marks = segment.text := by
  unfold Segment.marks Segment.text unmark
  rw [List.map_append, ← unmark, ← unmark, unmark_map, unmark_map]

/-- A value is some blanks and its segments, with the separators marked as they are. -/
theorem exists_lead (s : List Char) : ∃ lead, AllBlank lead ∧
    wordMarksFrom 0 none s = lead.map (·, true) ++ (segments s).flatMap Segment.marks := by
  have hmarks := marks_segmentsOf (wordMarksFrom 0 none s)
  refine ⟨_, fun c hc => @isBlank_of_mem_wordMarksFrom 0 none s c ?_, hmarks.symm⟩
  rw [← hmarks]
  exact List.mem_append_left _ (List.mem_map_of_mem hc)

theorem eq_of_marks {s lead : List Char}
    (h : wordMarksFrom 0 none s = lead.map (·, true) ++ (segments s).flatMap Segment.marks) :
    s = lead ++ (segments s).flatMap Segment.text := by
  have hs := unmark_wordMarksFrom 0 none s
  rw [h, unmark, List.map_append, ← unmark, unmark_map, List.map_flatMap] at hs
  exact hs.symm.trans (congrArg (lead ++ ·) (List.flatMap_congr fun segment _ => unmark_marks segment))

/-- Blanks stand between any two segments, and nothing but blanks. -/
structure Spaced (segments : List Segment) : Prop where
  ne_nil : segments.IsChain fun segment _ => segment.gap ≠ []
  blank : ∀ segment ∈ segments, AllBlank segment.gap

theorem Spaced.tail {segment : Segment} {rest : List Segment} (h : Spaced (segment :: rest)) :
    Spaced rest where
  ne_nil := h.ne_nil.of_cons
  blank := fun other hmem => h.blank other (List.mem_cons_of_mem _ hmem)

theorem Spaced.gap_ne_nil {segment : Segment} {rest : List Segment} (h : Spaced (segment :: rest))
    (hrest : rest ≠ []) : segment.gap ≠ [] := by
  cases rest with
  | nil => exact absurd rfl hrest
  | cons next rest => exact (List.isChain_cons_cons.mp h.ne_nil).1

theorem spaced_segments (s : List Char) : Spaced (segments s) where
  ne_nil := isChain_segmentsOf _
  blank := by
    intro segment hsegment c hc
    have hmarks : (c, true) ∈ segment.marks :=
      List.mem_append_right _ (List.mem_map_of_mem hc)
    refine @isBlank_of_mem_wordMarksFrom 0 none s c ?_
    rw [← marks_segmentsOf (wordMarksFrom 0 none s)]
    exact List.mem_append_right _ (List.mem_flatMap.mpr ⟨segment, hsegment, hmarks⟩)

/-! ## Canonical spelling -/

/-- The standard spelling of a word. -/
def spelling (word : List Char) : List Char :=
  (canonicalWord (String.ofList word)).toList

/-- What the canonical spelling puts before the segments that follow a word. -/
def joint (rest : List Segment) : List Char :=
  if rest.isEmpty then [] else [' ']

/-- The canonical spelling of segments. -/
def joined : List Segment → List Char
  | [] => []
  | segment :: rest => spelling segment.word ++ (joint rest ++ joined rest)

theorem toList_intercalate_spelling (segments : List Segment) :
    (String.intercalate " " ((segments.map fun segment =>
      canonicalWord (String.ofList segment.word)))).toList = joined segments := by
  induction segments with
  | nil => rfl
  | cons segment rest ih =>
    cases rest with
    | nil =>
      rw [List.map_singleton, String.intercalate_singleton]
      exact (List.append_nil _).symm
    | cons next rest =>
      rw [List.map_cons] at ih
      rw [List.map_cons, List.map_cons, String.intercalate_cons_cons, String.toList_append,
        String.toList_append, ih, List.append_assoc]
      rfl

/-- The canonical spelling of a value, word by word. -/
theorem toList_canonical (value : String) :
    (canonical value).toList = joined (segments (collapse value).toList) := by
  rw [← toList_intercalate_spelling, canonical, words, wordChars_eq, List.map_map, List.map_map]
  rfl

end AtomicStyle.Css

import AtomicStyle.Proofs.Rewriting

/-!
# Byte offsets

A text seen as the bytes of its UTF-8 form.  An offset is good for a cut only between characters, but
a byte can be looked at anywhere.  A byte below 128 is a character of its own, and all bytes of any
other character are above.  So a scanner that passes over the high bytes one by one comes to the end
of a character from wherever in it it starts.

Results:
1. `byteAt?_append`, `byteAt?_cons_of_ascii`, `exists_byteAt?_inside`: the bytes of a text.
2. `eq_of_passes`, `eq_after_char`: a scanner comes to the end of a character.
3. `front?_append`, `back?_append`: the offset after some characters is good for a cut.
4. `front?_of_cut`, `back?_of_cut`: so are the two ends of a first occurrence.
-/

namespace AtomicStyle.Text

/-! ## Bytes -/

/-- The bytes of the UTF-8 form. -/
def bytes (s : List Char) : List UInt8 :=
  s.flatMap String.utf8EncodeChar

/-- The byte at an offset, as the character with this number. -/
def byteAt? (s : List Char) (offset : Nat) : Option Char :=
  (bytes s)[offset]?.map fun byte => Char.ofNat byte.toNat

/-- The character has more than one byte; among bytes, the byte belongs to such a character. -/
def IsWide (c : Char) : Prop :=
  128 ≤ c.toNat

instance (c : Char) : Decidable (IsWide c) :=
  inferInstanceAs (Decidable (_ ≤ _))

theorem IsWide.ne {c d : Char} (h : IsWide c) (hd : ¬ IsWide d) : c ≠ d := by
  rintro rfl
  exact hd h

theorem length_bytes (s : List Char) : (bytes s).length = byteLength s := by
  induction s with
  | nil => rfl
  | cons c s ih =>
    rw [bytes, List.flatMap_cons, List.length_append, String.length_utf8EncodeChar, byteLength_cons]
    exact congrArg (c.utf8Size + ·) ih

theorem byteAt?_of_le {s : List Char} {offset : Nat} (h : byteLength s ≤ offset) :
    byteAt? s offset = none := by
  rw [byteAt?, List.getElem?_eq_none (by rwa [length_bytes]), Option.map_none]

theorem byteAt?_append (s t : List Char) (offset : Nat) :
    byteAt? (s ++ t) (byteLength s + offset) = byteAt? t offset := by
  rw [byteAt?, byteAt?, bytes, bytes, List.flatMap_append, ← bytes,
    List.getElem?_append_right (by rw [length_bytes]; omega), length_bytes, Nat.add_sub_cancel_left]

theorem utf8Size_of_not_isWide {c : Char} (h : ¬ IsWide c) : c.utf8Size = 1 := by
  rw [Char.utf8Size_eq_one_iff, UInt32.le_iff_toNat_le]
  unfold IsWide at h
  change c.toNat ≤ 127
  omega

theorem byteLength_concat {c : Char} (h : ¬ IsWide c) (s : List Char) :
    byteLength (s ++ [c]) = byteLength s + 1 := by
  rw [byteLength_append, byteLength_cons, utf8Size_of_not_isWide h, byteLength_nil]

theorem byteAt?_cons_of_ascii {c : Char} (h : ¬ IsWide c) (s : List Char) :
    byteAt? (c :: s) 0 = some c := by
  have hsize : c.val.toUInt8.toNat = c.toNat := by
    unfold IsWide at h
    change c.toNat % 256 = c.toNat
    omega
  rw [byteAt?, bytes, List.flatMap_cons,
    String.utf8EncodeChar_eq_singleton (utf8Size_of_not_isWide h)]
  exact congrArg some ((congrArg Char.ofNat hsize).trans (Char.ofNat_toNat c))

theorem isWide_of_mem_utf8EncodeChar {c : Char} (h : IsWide c) {byte : UInt8}
    (hbyte : byte ∈ String.utf8EncodeChar c) : IsWide (Char.ofNat byte.toNat) := by
  have hlow : ¬ c.val.toNat ≤ 127 := by
    unfold IsWide Char.toNat at h
    omega
  have hhigh : 128 ≤ byte.toNat := by
    unfold String.utf8EncodeChar at hbyte
    simp only [hlow, if_false] at hbyte
    repeat' split at hbyte
    all_goals
      simp only [List.mem_cons, List.not_mem_nil, or_false] at hbyte
      rcases hbyte with rfl | rfl | rfl | rfl
    all_goals
      simp only [UInt8.toNat_ofNat']
      omega
  have hvalid : byte.toNat.isValidChar := Or.inl (by have := byte.toNat_lt; omega)
  rw [IsWide, Char.ofNat, dif_pos hvalid]
  exact hhigh

/-- Every byte of a wide character is a high one. -/
theorem exists_byteAt?_inside {c : Char} (h : IsWide c) {offset : Nat} (hoffset : offset < c.utf8Size)
    (s : List Char) : ∃ byte, byteAt? (c :: s) offset = some byte ∧ IsWide byte := by
  have hlength : offset < (String.utf8EncodeChar c).length := by
    rwa [String.length_utf8EncodeChar]
  refine ⟨_, ?_, isWide_of_mem_utf8EncodeChar h (List.getElem_mem hlength)⟩
  rw [byteAt?, bytes, List.flatMap_cons, List.getElem?_append_left hlength,
    List.getElem?_eq_getElem hlength, Option.map_some]

/-! ## Scanners -/

section

variable {α : Type} {text before rest : List Char} {c : Char} {scan : Nat → α}

theorem byteAt?_of_ascii (htext : text = before ++ c :: rest) (hc : ¬ IsWide c) :
    byteAt? text (byteLength before) = some c := by
  rw [htext, ← Nat.add_zero (byteLength before), byteAt?_append, byteAt?_cons_of_ascii hc]

theorem exists_byteAt?_of_isWide (htext : text = before ++ c :: rest) (hc : IsWide c) :
    ∃ byte, byteAt? text (byteLength before) = some byte ∧ IsWide byte := by
  obtain ⟨byte, hbyte, hwide⟩ := exists_byteAt?_inside hc c.utf8Size_pos rest
  refine ⟨byte, ?_, hwide⟩
  rw [htext, ← Nat.add_zero (byteLength before), byteAt?_append, hbyte]

/-- A byte that is a character stands where the character does. -/
theorem byteAt?_eq_some_iff (htext : text = before ++ rest) (hc : ¬ IsWide c) :
    byteAt? text (byteLength before) = some c ↔ rest.head? = some c := by
  cases rest with
  | nil =>
    rw [htext, List.append_nil, byteAt?_of_le (Nat.le_refl _)]
    simp
  | cons d rest =>
    rw [List.head?_cons]
    by_cases hd : IsWide d
    · obtain ⟨byte, hbyte, hwide⟩ := exists_byteAt?_of_isWide htext hd
      rw [hbyte, Option.some.injEq, Option.some.injEq]
      exact ⟨fun h => absurd h (hwide.ne hc), fun h => absurd h (hd.ne hc)⟩
    · rw [byteAt?_of_ascii htext hd]

/-- Where a character stands there is a byte, and it tells which character below 128 it is. -/
theorem exists_byteAt? (htext : text = before ++ c :: rest) :
    ∃ byte, byteAt? text (byteLength before) = some byte ∧
      ∀ d, ¬ IsWide d → (byte = d ↔ c = d) := by
  have hbyte : ∃ byte, byteAt? text (byteLength before) = some byte := by
    by_cases hc : IsWide c
    · obtain ⟨byte, hbyte, -⟩ := exists_byteAt?_of_isWide htext hc
      exact ⟨byte, hbyte⟩
    · exact ⟨c, byteAt?_of_ascii htext hc⟩
  obtain ⟨byte, hbyte⟩ := hbyte
  refine ⟨byte, hbyte, fun d hd => ?_⟩
  have hiff := byteAt?_eq_some_iff htext hd
  rwa [hbyte, List.head?_cons, Option.some.injEq, Option.some.injEq] at hiff

/-- A test that fails for high bytes is passed by the first byte just if by the first character. -/
theorem any_byteAt? (htext : text = before ++ rest) {p : Char → Bool}
    (hp : ∀ byte, IsWide byte → p byte = false) :
    (byteAt? text (byteLength before)).any p = rest.head?.any p := by
  cases rest with
  | nil => rw [htext, List.append_nil, byteAt?_of_le (Nat.le_refl _), List.head?_nil]
  | cons c rest =>
    rw [List.head?_cons, Option.any_some]
    by_cases hc : IsWide c
    · obtain ⟨byte, hbyte, hwide⟩ := exists_byteAt?_of_isWide htext hc
      rw [hbyte, Option.any_some, hp c hc, hp byte hwide]
    · rw [byteAt?_of_ascii htext hc, Option.any_some]

/-- A scanner that passes over high bytes comes from any byte of a wide character to its end. -/
theorem eq_of_skips_wide (htext : text = before ++ c :: rest) (hc : IsWide c)
    (hscan : ∀ pos byte, byteAt? text pos = some byte → IsWide byte → scan pos = scan (pos + 1))
    {inside : Nat} (hinside : inside ≤ c.utf8Size) :
    scan (byteLength before + inside) = scan (byteLength before + c.utf8Size) := by
  obtain ⟨left, hleft⟩ := Nat.exists_eq_add_of_le hinside
  -- on the bytes of the character that are left
  induction left generalizing inside with
  | zero => rw [hleft, Nat.add_zero]
  | succ left ih =>
    obtain ⟨byte, hbyte, hwide⟩ := exists_byteAt?_inside hc (by omega : inside < c.utf8Size) rest
    rw [← byteAt?_append before, ← htext] at hbyte
    rw [hscan _ byte hbyte hwide, Nat.add_assoc]
    exact ih (by omega) (by omega)

/-- A scanner that passes over a character and over high bytes comes to the end of the character. -/
theorem eq_of_passes (htext : text = before ++ c :: rest)
    (hscan : ∀ pos byte, byteAt? text pos = some byte → IsWide byte → scan pos = scan (pos + 1))
    (hc : byteAt? text (byteLength before) = some c →
      scan (byteLength before) = scan (byteLength before + 1)) :
    scan (byteLength before) = scan (byteLength (before ++ [c])) := by
  rw [byteLength_append, byteLength_cons, byteLength_nil, Nat.add_zero]
  by_cases hwide : IsWide c
  · exact eq_of_skips_wide htext hwide hscan (Nat.zero_le _)
  · rw [hc (byteAt?_of_ascii htext hwide), utf8Size_of_not_isWide hwide]

/-- One byte after the begin of a character, such a scanner comes to the end of the character. -/
theorem eq_after_char (htext : text = before ++ c :: rest)
    (hscan : ∀ pos byte, byteAt? text pos = some byte → IsWide byte → scan pos = scan (pos + 1)) :
    scan (byteLength before + 1) = scan (byteLength (before ++ [c])) := by
  rw [byteLength_append, byteLength_cons, byteLength_nil, Nat.add_zero]
  by_cases hc : IsWide c
  · exact eq_of_skips_wide htext hc hscan c.utf8Size_pos
  · rw [utf8Size_of_not_isWide hc]

end

/-! ## Cuts -/

/-- The text before an offset. -/
def front? (s : List Char) (offset : Nat) : Option (List Char) :=
  between? s 0 offset

/-- The text from an offset on. -/
def back? (s : List Char) (offset : Nat) : Option (List Char) :=
  between? s offset (byteLength s)

theorem front?_append (before after : List Char) :
    front? (before ++ after) (byteLength before) = some before := by
  simpa [front?] using between?_append [] before after

theorem back?_append (before after : List Char) :
    back? (before ++ after) (byteLength before) = some after := by
  simpa [back?] using between?_append before after []

/-- The offset of the first occurrence of `needle`. -/
def offsetOf? (needle s : List Char) : Option Nat :=
  (cut? needle s).map fun parts => byteLength parts.1

theorem offsetOf?_of_none {needle s : List Char} (h : cut? needle s = none) :
    offsetOf? needle s = none := by
  rw [offsetOf?, h, Option.map_none]

section

variable {needle s before after : List Char}

theorem offsetOf?_of_some (h : cut? needle s = some (before, after)) :
    offsetOf? needle s = some (byteLength before) := by
  rw [offsetOf?, h, Option.map_some]

theorem front?_of_cut (h : cut? needle s = some (before, after)) :
    front? s (byteLength before) = some before := by
  rw [eq_of_cut? h, List.append_assoc]
  exact front?_append before _

theorem back?_of_cut (h : cut? needle s = some (before, after)) :
    back? s (byteLength before + byteLength needle) = some after := by
  rw [eq_of_cut? h, ← byteLength_append]
  exact back?_append _ after

end

end AtomicStyle.Text

/-!
# Measures of text

A position in a source file counts bytes of UTF-8, and the length of a script string counts
16-bit units.  Both are sums over the characters.
-/

namespace AtomicStyle.Text

/-- The number of bytes of the UTF-8 form. -/
def byteLength (s : List Char) : Nat :=
  s.foldr (fun c n => c.utf8Size + n) 0

/-- The number of 16-bit units of the UTF-16 form. -/
def unitLength (s : List Char) : Nat :=
  s.foldr (fun c n => (if c.toNat < 0x10000 then 1 else 2) + n) 0

/-- The two parts of a text at a byte offset.  There are none when the offset lies beyond the end
or inside a character. -/
def splitAtByte? : Nat → List Char → Option (List Char × List Char)
  | 0, s => some ([], s)
  | _ + 1, [] => none
  | n + 1, c :: s =>
    if c.utf8Size ≤ n + 1 then
      (splitAtByte? (n + 1 - c.utf8Size) s).map fun parts => (c :: parts.1, parts.2)
    else none

@[simp] theorem byteLength_nil : byteLength [] = 0 := rfl

@[simp] theorem byteLength_cons (c : Char) (s : List Char) :
    byteLength (c :: s) = c.utf8Size + byteLength s := rfl

@[simp] theorem byteLength_append (s t : List Char) :
    byteLength (s ++ t) = byteLength s + byteLength t := by
  induction s with
  | nil => simp
  | cons c s ih => simp [ih, Nat.add_assoc]

/-- The parts at offset `n` are the text cut after its first `n` bytes. -/
theorem splitAtByte?_eq_some_iff {n : Nat} {s before after : List Char} :
    splitAtByte? n s = some (before, after) ↔ s = before ++ after ∧ byteLength before = n := by
  induction s generalizing n before with
  | nil =>
    cases n with
    | zero =>
      cases before <;> simp [splitAtByte?, eq_comm]
    | succ n =>
      constructor
      · simp [splitAtByte?]
      · rintro ⟨h, hb⟩
        obtain ⟨rfl, -⟩ := List.nil_eq_append_iff.mp h
        simp at hb
  | cons c s ih =>
    have hc := c.utf8Size_pos
    cases n with
    | zero =>
      cases before with
      | nil => simp [splitAtByte?, eq_comm]
      | cons d before =>
        have hd := d.utf8Size_pos
        simp only [splitAtByte?, Option.some.injEq, Prod.mk.injEq, reduceCtorEq, false_and,
          byteLength_cons, false_iff, not_and]
        intro _
        omega
    | succ n =>
      simp only [splitAtByte?]
      split
      · next hle =>
        cases before with
        | nil => simp
        | cons d before =>
          simp only [Option.map_eq_some_iff, Prod.exists, Prod.mk.injEq, List.cons.injEq,
            List.cons_append, byteLength_cons]
          constructor
          · rintro ⟨b, a, h, ⟨rfl, rfl⟩, rfl⟩
            obtain ⟨rfl, hb⟩ := ih.mp h
            exact ⟨⟨rfl, rfl⟩, by omega⟩
          · rintro ⟨⟨rfl, rfl⟩, hb⟩
            exact ⟨before, after, ih.mpr ⟨rfl, by omega⟩, ⟨rfl, rfl⟩, rfl⟩
      · next hle =>
        simp only [reduceCtorEq, false_iff, not_and]
        cases before with
        | nil => simp
        | cons d before =>
          simp only [List.cons_append, List.cons.injEq, byteLength_cons]
          rintro ⟨rfl, -⟩
          omega

end AtomicStyle.Text

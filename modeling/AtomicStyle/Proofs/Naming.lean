import AtomicStyle.Proofs.Composition
import AtomicStyle.Rule.Atomize

/-!
# The shape of class names

A class name is an underscore and two tokens of four digits.  The first token is made from the text
that stands for the context and the property (`slotSeed`), the second from the text that stands for
the value (`valueSeed`).

Results:
1. `length_token`, `isTokenChar_of_mem_token`: a token is four digits of base 36, whatever the text.
2. `slot_className`, `splitCompressed?_className`: the slot of a class name is its first token, and
   a class name is never compressed.
3. `token_eq_of_className_eq`: a class name determines its two tokens.
-/

namespace AtomicStyle

open AtomicStyle.Text

/-! ## Tokens -/

namespace Digest

theorem isTokenChar_digit {n : Nat} (h : n < 36) : ClassName.isTokenChar (digit n) = true := by
  have hall : ∀ m < 36, ClassName.isTokenChar (digit m) = true := by decide
  exact hall n h

theorem isTokenChar_of_mem_digits {n : Nat} {c : Char} (hc : c ∈ digits n) :
    ClassName.isTokenChar c = true := by
  fun_induction digits n with
  | case1 n hn =>
    rw [List.mem_singleton] at hc
    subst hc
    exact isTokenChar_digit hn
  | case2 n hn ih =>
    rcases List.mem_append.mp hc with hc | hc
    · exact ih hc
    · rw [List.mem_singleton] at hc
      subst hc
      exact isTokenChar_digit (Nat.mod_lt n (by decide))

theorem length_token (s : String) : (token s).toList.length = tokenLength := by
  simp only [token, String.toList_ofList, List.length_append, List.length_replicate,
    List.length_take]
  omega

theorem isTokenChar_of_mem_token {s : String} {c : Char} (hc : c ∈ (token s).toList) :
    ClassName.isTokenChar c = true := by
  simp only [token, String.toList_ofList] at hc
  rcases List.mem_append.mp hc with hc | hc
  · rw [List.eq_of_mem_replicate hc]
    decide
  · exact isTokenChar_of_mem_digits (List.mem_of_mem_take hc)

end Digest

namespace ClassName

theorem toNat_of_isTokenChar {c : Char} (h : isTokenChar c = true) :
    (48 ≤ c.toNat ∧ c.toNat ≤ 57) ∨ (97 ≤ c.toNat ∧ c.toNat ≤ 122) := by
  have hrange : ((c.val ≥ 48 && c.val ≤ 57) || (c.val ≥ 97 && c.val ≤ 122)) = true := h
  simp only [Bool.or_eq_true, Bool.and_eq_true, decide_eq_true_eq, ge_iff_le,
    UInt32.le_iff_toNat_le] at hrange
  exact hrange

theorem isBlank_of_isTokenChar {c : Char} (h : isTokenChar c = true) : isBlank c = false := by
  have hrange := toNat_of_isTokenChar h
  simp only [isBlank, blankRanges, List.any_eq_false, Bool.and_eq_true, decide_eq_true_eq,
    List.mem_cons, List.not_mem_nil, or_false]
  rintro range (rfl | rfl | rfl | rfl | rfl | rfl | rfl | rfl | rfl | rfl) <;> omega

theorem ne_underscore_of_isTokenChar {c : Char} (h : isTokenChar c = true) : c ≠ '_' := by
  rintro rfl
  exact absurd h (by decide)

theorem utf8Size_of_isTokenChar {c : Char} (h : isTokenChar c = true) : c.utf8Size = 1 := by
  have hrange := toNat_of_isTokenChar h
  rw [Char.utf8Size_eq_one_iff, UInt32.le_iff_toNat_le]
  have hval : c.val.toNat = c.toNat := rfl
  have hbound : (127 : UInt32).toNat = 127 := rfl
  omega

theorem byteLength_of_isTokenChar {s : List Char} (h : ∀ c ∈ s, isTokenChar c = true) :
    byteLength s = s.length := by
  induction s with
  | nil => rfl
  | cons c s ih =>
    rw [byteLength_cons, utf8Size_of_isTokenChar (h c List.mem_cons_self),
      ih fun d hd => h d (List.mem_cons_of_mem _ hd), List.length_cons]
    omega

theorem slot_of_cut {name : String} {rest before after : List Char}
    (hname : name.toList = '_' :: rest)
    (hcut : splitAtByte? slotLength name.toList = some (before, after)) :
    slot name = String.ofList before := by
  rw [hname] at hcut
  simp only [slot, hname, hcut]

theorem splitCompressed?_of_cut {name : String} {rest before after : List Char}
    (hname : name.toList = '_' :: rest)
    (hcut : splitAtByte? slotLength name.toList = some (before, after)) (hafter : '_' ∉ after) :
    splitCompressed? name = none := by
  rw [hname] at hcut
  simp only [splitCompressed?, hname, hcut]
  split
  · next before' c token hparts =>
    obtain ⟨-, htoken⟩ := Prod.mk.inj (Option.some.inj hparts)
    rw [htoken] at hafter
    exact absurd List.mem_cons_self hafter
  · rfl

end ClassName

/-! ## Class names -/

/-- The text from which the slot of a class name is made. -/
def slotSeed (salt : String) (context : Context) (property : String) : String :=
  salt ++ context.label ++ context.selector ++ property

/-- The text from which the value part of a class name is made. -/
def valueSeed (value : String) (important : Bool) : String :=
  if important then value ++ "true" else value

/-- Two values have the same seed only if they are equal, or one of them is important and the other
one is its text with `true` at the end. -/
theorem valueSeed_eq_iff {value value' : String} {important important' : Bool} :
    valueSeed value important = valueSeed value' important' ↔
      value = value' ∧ important = important' ∨
      important = true ∧ important' = false ∧ value' = value ++ "true" ∨
      important = false ∧ important' = true ∧ value = value' ++ "true" := by
  cases important with
  | true =>
    cases important' with
    | true => simp [valueSeed]
    | false => simp [valueSeed, eq_comm]
  | false =>
    cases important' with
    | true => simp [valueSeed]
    | false => simp [valueSeed]

theorem className_eq (salt : String) (context : Context) (property value : String)
    (important : Bool) :
    className salt context property value important =
      "_" ++ Digest.token (slotSeed salt context property) ++
        Digest.token (valueSeed value important) := by
  unfold className slotSeed valueSeed
  exact rfl

theorem toList_underscore_append (s : String) : ("_" ++ s).toList = '_' :: s.toList := by
  have hunderscore : "_".toList = ['_'] := rfl
  rw [String.toList_append, hunderscore, List.singleton_append]

section Shape

variable (salt : String) (context : Context) (property value : String) (important : Bool)

theorem toList_className :
    (className salt context property value important).toList =
      '_' :: ((Digest.token (slotSeed salt context property)).toList ++
        (Digest.token (valueSeed value important)).toList) := by
  rw [className_eq, String.toList_append, toList_underscore_append, List.cons_append]

/-- The slot takes exactly the bytes of the underscore and the first token. -/
theorem splitAtByte?_className :
    splitAtByte? ClassName.slotLength (className salt context property value important).toList =
      some ('_' :: (Digest.token (slotSeed salt context property)).toList,
        (Digest.token (valueSeed value important)).toList) := by
  rw [splitAtByte?_eq_some_iff]
  refine ⟨by rw [toList_className, List.cons_append], ?_⟩
  rw [byteLength_cons, ClassName.byteLength_of_isTokenChar fun c hc =>
    Digest.isTokenChar_of_mem_token hc, Digest.length_token]
  rfl

/-- The slot of a class name is decided by the context and the property. -/
theorem slot_className :
    ClassName.slot (className salt context property value important) =
      "_" ++ Digest.token (slotSeed salt context property) := by
  have hslot := ClassName.slot_of_cut (toList_className salt context property value important)
    (splitAtByte?_className salt context property value important)
  rw [hslot, ← toList_underscore_append, String.ofList_toList]

/-- No class name is compressed: its second token has no underscore. -/
theorem splitCompressed?_className :
    ClassName.splitCompressed? (className salt context property value important) = none := by
  refine ClassName.splitCompressed?_of_cut
    (toList_className salt context property value important)
    (splitAtByte?_className salt context property value important) ?_
  intro hmem
  exact ClassName.ne_underscore_of_isTokenChar (Digest.isTokenChar_of_mem_token hmem) rfl

theorem isWord_className : IsWord (className salt context property value important) := by
  refine ⟨by simp [toList_className], fun c hc => ?_⟩
  rw [toList_className] at hc
  cases hc with
  | head => decide
  | tail _ hc =>
    rcases List.mem_append.mp hc with hc | hc
    · exact ClassName.isBlank_of_isTokenChar (Digest.isTokenChar_of_mem_token hc)
    · exact ClassName.isBlank_of_isTokenChar (Digest.isTokenChar_of_mem_token hc)

end Shape

/-- A class name determines its two tokens. -/
theorem token_eq_of_className_eq {salt : String} {context context' : Context}
    {property property' value value' : String} {important important' : Bool}
    (h : className salt context property value important =
      className salt context' property' value' important') :
    Digest.token (slotSeed salt context property) =
        Digest.token (slotSeed salt context' property') ∧
      Digest.token (valueSeed value important) = Digest.token (valueSeed value' important') := by
  have hchars := congrArg String.toList h
  rw [toList_className, toList_className] at hchars
  have hlength : (Digest.token (slotSeed salt context property)).toList.length =
      (Digest.token (slotSeed salt context' property')).toList.length := by
    rw [Digest.length_token, Digest.length_token]
  obtain ⟨hslot, hvalue⟩ := List.append_inj (List.cons.inj hchars).2 hlength
  exact ⟨String.toList_inj.mp hslot, String.toList_inj.mp hvalue⟩

end AtomicStyle

import AtomicStyle.Rule.Atomize
import Mathlib.Algebra.Group.Nat.Defs
import Mathlib.Data.List.Basic
import Mathlib.Logic.Function.Basic

/-!
# Mixing

Every step of the hash can be undone: an odd factor has an inverse, and a word is recovered from its
xor with its own upper bits.  So two texts of one length that differ in one block of four bytes only
never have the same hash: the states before the block are equal, the block makes them different, and
what follows keeps them so.

Results:
1. `mul_factor_injective`, `xorShift_injective`: the steps of the hash lose nothing.
2. `absorbAll_append`, `absorbAll_state_injective`, `absorbAll_block_injective`: the state before,
   after and at a block.
3. `digits_injective`: a number is determined by its digits.
4. `hash_ne_of_differInBlock`: a local change always changes the hash.
-/

namespace AtomicStyle

namespace Digest

open Function

/-! ## Steps -/

/-- The factor is odd, so it has an inverse. -/
theorem mul_factor_injective : Injective (· * factor) := by
  intro x y h
  have hinverse : factor * 0xe59b19bd = 1 := by decide
  have hproduct : x * factor * 0xe59b19bd = y * factor * 0xe59b19bd := congrArg (· * 0xe59b19bd) h
  rwa [UInt32.mul_assoc, UInt32.mul_assoc, hinverse, UInt32.mul_one, UInt32.mul_one] at hproduct

/-- The bits in which two such words differ are their own shift, so there are none. -/
theorem xorShift_injective {k : UInt32} (hk : 0 < k.toNat % 32) :
    Injective fun x => x ^^^ (x >>> k) := by
  intro x y h
  have hself : x ^^^ y = (x ^^^ y) >>> k := by
    have hswap : (x ^^^ y) ^^^ (x >>> k ^^^ y >>> k) = 0 := by
      calc (x ^^^ y) ^^^ (x >>> k ^^^ y >>> k)
        _ = (x ^^^ x >>> k) ^^^ (y ^^^ y >>> k) := by ac_rfl
        _ = 0 := by rw [show x ^^^ x >>> k = y ^^^ y >>> k from h, UInt32.xor_self]
    rw [UInt32.shiftRight_xor]
    exact UInt32.xor_eq_zero_iff.mp hswap
  have hnat := congrArg UInt32.toNat hself
  rw [UInt32.toNat_shiftRight, Nat.shiftRight_eq_div_pow] at hnat
  have hzero : (x ^^^ y).toNat = 0 := by
    by_contra hne
    have hsmaller : (x ^^^ y).toNat / 2 ^ (k.toNat % 32) < (x ^^^ y).toNat :=
      Nat.div_lt_self (Nat.pos_of_ne_zero hne) (Nat.one_lt_two_pow (by omega))
    omega
  exact UInt32.xor_eq_zero_iff.mp (UInt32.toNat_inj.mp hzero)

theorem scramble_injective : Injective scramble :=
  mul_factor_injective.comp ((xorShift_injective (by decide)).comp mul_factor_injective)

theorem finish_injective : Injective finish :=
  (xorShift_injective (by decide)).comp
    (mul_factor_injective.comp (xorShift_injective (by decide)))

theorem absorb_word_injective (h : UInt32) : Injective (absorb h) := by
  intro k k' heq
  exact scramble_injective ((UInt32.xor_right_inj _).mp heq)

theorem absorb_state_injective (k : UInt32) : Injective (absorb · k) := by
  intro h h' heq
  exact mul_factor_injective ((UInt32.xor_left_inj _).mp heq)

theorem or_shiftLeft {x k : Nat} (hx : x < 2 ^ k) (y : Nat) : x ||| y <<< k = x + 2 ^ k * y := by
  rw [Nat.or_comm, ← Nat.shiftLeft_add_eq_or_of_lt hx, Nat.shiftLeft_eq, Nat.mul_comm, Nat.add_comm]

/-- A byte that is shifted by three bytes at most stays whole. -/
theorem toNat_byte_shiftLeft (x : UInt8) {k : UInt32} (hk : k.toNat ≤ 24) :
    (x.toUInt32 <<< k).toNat = x.toNat <<< k.toNat := by
  have hfits : x.toNat * 2 ^ k.toNat < 2 ^ 32 := by
    calc x.toNat * 2 ^ k.toNat
      _ < 2 ^ 8 * 2 ^ k.toNat := Nat.mul_lt_mul_of_pos_right x.toNat_lt (Nat.two_pow_pos _)
      _ ≤ 2 ^ 8 * 2 ^ 24 := Nat.mul_le_mul_left _ (Nat.pow_le_pow_right (by decide) hk)
      _ = 2 ^ 32 := by decide
  rw [UInt32.toNat_shiftLeft, Nat.mod_eq_of_lt (by omega : k.toNat < 32), UInt8.toNat_toUInt32,
    Nat.shiftLeft_eq, Nat.mod_eq_of_lt hfits]

theorem toNat_word (a b c d : UInt8) :
    (word a b c d).toNat =
      a.toNat + 2 ^ 8 * b.toNat + 2 ^ 16 * c.toNat + 2 ^ 24 * d.toNat := by
  have ha := a.toNat_lt
  have hb := b.toNat_lt
  have hc := c.toNat_lt
  unfold word
  rw [UInt32.toNat_or, UInt32.toNat_or, UInt32.toNat_or, toNat_byte_shiftLeft b (by decide),
    toNat_byte_shiftLeft c (by decide), toNat_byte_shiftLeft d (by decide), UInt8.toNat_toUInt32,
    show UInt32.toNat 8 = 8 from rfl, show UInt32.toNat 16 = 16 from rfl,
    show UInt32.toNat 24 = 24 from rfl, or_shiftLeft (by omega) b.toNat,
    or_shiftLeft (by omega) c.toNat, or_shiftLeft (by omega) d.toNat]

/-- A word is determined by its bytes and the other way round. -/
theorem word_inj {a b c d a' b' c' d' : UInt8} (h : word a b c d = word a' b' c' d') :
    a = a' ∧ b = b' ∧ c = c' ∧ d = d' := by
  have hnat := congrArg UInt32.toNat h
  rw [toNat_word, toNat_word] at hnat
  simp only [← UInt8.toNat_inj]
  have := a.toNat_lt
  have := b.toNat_lt
  have := c.toNat_lt
  have := a'.toNat_lt
  have := b'.toNat_lt
  have := c'.toNat_lt
  omega

/-! ## Blocks -/

/-- Whole blocks are absorbed one after the other. -/
theorem absorbAll_append {front : List UInt8} (hfront : 4 ∣ front.length) (h : UInt32)
    (rest : List UInt8) : absorbAll h (front ++ rest) = absorbAll (absorbAll h front) rest := by
  fun_induction absorbAll h front with
  | case1 h a b c d front ih =>
    have hrest : 4 ∣ front.length := by
      simp only [List.length_cons] at hfront
      omega
    exact ih hrest
  | case2 h => rfl
  | case3 h a | case4 h a b | case5 h a b c =>
    simp only [List.length_cons, List.length_nil] at hfront
    omega

/-- Different states stay different. -/
theorem absorbAll_state_injective (bytes : List UInt8) : Injective (absorbAll · bytes) := by
  suffices hstates : ∀ h h', absorbAll h bytes = absorbAll h' bytes → h = h' from
    fun h h' heq => hstates h h' heq
  intro h h'
  fun_induction absorbAll h bytes generalizing h' with
  | case1 h a b c d rest ih =>
    intro heq
    exact absorb_state_injective _ (ih _ heq)
  | case2 h => exact id
  | case3 h a | case4 h a b | case5 h a b c =>
    intro heq
    exact (UInt32.xor_left_inj _).mp (mul_factor_injective heq)

/-- Different blocks of one length make different states of one state. -/
theorem absorbAll_block_injective (h : UInt32) {block block' : List UInt8}
    (hlength : block.length = block'.length) (hblock : block.length ≤ 4)
    (heq : absorbAll h block = absorbAll h block') : block = block' := by
  have htail : ∀ {w w' : UInt32}, (h ^^^ w) * factor = (h ^^^ w') * factor → w = w' :=
    fun hw => (UInt32.xor_right_inj _).mp (mul_factor_injective hw)
  rcases block with _ | ⟨a, _ | ⟨b, _ | ⟨c, _ | ⟨d, _ | ⟨e, rest⟩⟩⟩⟩⟩
  · exact (List.length_eq_zero_iff.mp hlength.symm).symm
  · obtain ⟨a', rfl⟩ := List.length_eq_one_iff.mp hlength.symm
    obtain ⟨rfl, -⟩ := word_inj (htail heq)
    rfl
  · obtain ⟨a', b', rfl⟩ := List.length_eq_two.mp hlength.symm
    obtain ⟨rfl, rfl, -⟩ := word_inj (htail heq)
    rfl
  · obtain ⟨a', b', c', rfl⟩ := List.length_eq_three.mp hlength.symm
    obtain ⟨rfl, rfl, rfl, -⟩ := word_inj (htail heq)
    rfl
  · obtain ⟨a', tail, rfl⟩ := List.exists_cons_of_length_eq_add_one hlength.symm
    obtain ⟨b', c', d', rfl⟩ := List.length_eq_three.mp (Nat.succ.inj hlength.symm)
    obtain ⟨rfl, rfl, rfl, rfl⟩ := word_inj (absorb_word_injective h heq)
    rfl
  · simp only [List.length_cons] at hblock
    omega

/-! ## Local changes -/

/-- Lists of one length that differ, but in one aligned block of four bytes only.  The last block
may be shorter. -/
structure DifferInBlock (bytes bytes' : List UInt8) : Prop where
  length_eq : bytes.length = bytes'.length
  ne : bytes ≠ bytes'
  block : ∃ k, ∀ i, bytes[i]? ≠ bytes'[i]? → i / 4 = k

theorem exists_getElem?_ne {bytes bytes' : List UInt8} (hlength : bytes.length = bytes'.length)
    (hne : bytes ≠ bytes') : ∃ i < bytes.length, bytes[i]? ≠ bytes'[i]? := by
  by_contra hall
  refine hne (List.ext_getElem? fun i => ?_)
  by_contra hi
  refine hall ⟨i, ?_, hi⟩
  by_contra hlong
  apply hi
  rw [List.getElem?_eq_none (by omega), List.getElem?_eq_none (by omega)]

instance (bytes bytes' : List UInt8) : Decidable (DifferInBlock bytes bytes') :=
  decidable_of_iff (bytes.length = bytes'.length ∧ bytes ≠ bytes' ∧
      ∃ k ∈ List.range bytes.length, ∀ i ∈ List.range bytes.length,
        bytes[i]? ≠ bytes'[i]? → i / 4 = k) <| by
    constructor
    · rintro ⟨hlength, hne, k, -, hk⟩
      refine ⟨hlength, hne, k, fun i hi => hk i (List.mem_range.mpr ?_) hi⟩
      by_contra hlong
      exact hi (by rw [List.getElem?_eq_none (by omega), List.getElem?_eq_none (by omega)])
    · rintro ⟨hlength, hne, k, hk⟩
      obtain ⟨i, hi, hdiffers⟩ := exists_getElem?_ne hlength hne
      have hblock := hk i hdiffers
      exact ⟨hlength, hne, k, List.mem_range.mpr (by omega), fun i _ => hk i⟩

/-- What stands before, in and after the block. -/
theorem DifferInBlock.exists_blocks {bytes bytes' : List UInt8} (h : DifferInBlock bytes bytes') :
    ∃ front block block' rest, bytes = front ++ (block ++ rest) ∧ bytes' = front ++ (block' ++ rest) ∧
      4 ∣ front.length ∧ block.length = block'.length ∧ block ≠ block' ∧
      (block.length = 4 ∨ block.length ≤ 4 ∧ rest = []) := by
  obtain ⟨hlength, hne, k, hk⟩ := h
  have hfront : bytes.take (4 * k) = bytes'.take (4 * k) := by
    refine List.ext_getElem? fun i => ?_
    rw [List.getElem?_take, List.getElem?_take]
    split
    · by_contra hi
      have := hk i hi
      omega
    · rfl
  have hrest : bytes.drop (4 * k + 4) = bytes'.drop (4 * k + 4) := by
    refine List.ext_getElem? fun i => ?_
    rw [List.getElem?_drop, List.getElem?_drop]
    by_contra hi
    have := hk _ hi
    omega
  have hsplit : ∀ s : List UInt8,
      s = s.take (4 * k) ++ ((s.drop (4 * k)).take 4 ++ s.drop (4 * k + 4)) := by
    intro s
    rw [← List.drop_drop, List.take_append_drop, List.take_append_drop]
  refine ⟨bytes.take (4 * k), (bytes.drop (4 * k)).take 4, (bytes'.drop (4 * k)).take 4,
    bytes.drop (4 * k + 4), hsplit bytes, ?_, ?_, ?_, ?_, ?_⟩
  · rw [hfront, hrest]
    exact hsplit bytes'
  · have hlong : 4 * k < bytes.length := by
      by_contra hshort
      rw [List.take_of_length_le (by omega), List.take_of_length_le (by omega)] at hfront
      exact hne hfront
    rw [List.length_take, Nat.min_eq_left (Nat.le_of_lt hlong)]
    exact Nat.dvd_mul_right 4 k
  · simp [hlength]
  · intro hblock
    apply hne
    rw [hsplit bytes, hsplit bytes', hfront, hblock, hrest]
  · simp only [List.length_take, List.length_drop, List.drop_eq_nil_iff]
    omega

theorem ofBytes_ne_of_differInBlock {bytes bytes' : List UInt8} (h : DifferInBlock bytes bytes')
    (seed : UInt32) : ofBytes seed bytes ≠ ofBytes seed bytes' := by
  intro heq
  obtain ⟨front, block, block', rest, hbytes, hbytes', hfront, hlength, hne, hblock⟩ :=
    h.exists_blocks
  have hstate := finish_injective heq
  rw [h.length_eq, hbytes, hbytes', absorbAll_append hfront, absorbAll_append hfront] at hstate
  rcases hblock with hwhole | ⟨hshort, rfl⟩
  · rw [absorbAll_append (by omega), absorbAll_append (by omega)] at hstate
    exact hne (absorbAll_block_injective _ hlength (by omega) (absorbAll_state_injective rest hstate))
  · rw [List.append_nil, List.append_nil] at hstate
    exact hne (absorbAll_block_injective _ hlength hshort hstate)

/-! ## Digits -/

theorem digit_injective {m n : Nat} (hm : m < 36) (hn : n < 36) (h : digit m = digit n) : m = n := by
  have hall : ∀ a < 36, ∀ b < 36, digit a = digit b → a = b := by decide
  exact hall m hm n hn h

theorem digits_ne_nil (n : Nat) : digits n ≠ [] := by
  unfold digits
  split <;> simp

/-- A number is determined by its digits. -/
theorem digits_injective : Injective digits := by
  intro m n h
  induction m using Nat.strongRecOn generalizing n with
  | ind m ih =>
    rw [digits.eq_def m, digits.eq_def n] at h
    split at h
    · next hm =>
      split at h
      · next hn => exact digit_injective hm hn (List.singleton_inj.mp h)
      · exact absurd (List.append_eq_singleton_iff.mp h.symm)
          (by simp [digits_ne_nil])
    · next hm =>
      split at h
      · exact absurd (List.append_eq_singleton_iff.mp h) (by simp [digits_ne_nil])
      · obtain ⟨hfront, hlast⟩ := List.append_inj' h rfl
        have hquotient := ih (m / 36) (by omega) hfront
        have hrest := digit_injective (by omega) (by omega) (List.singleton_inj.mp hlast)
        omega

theorem hash_inj {s t : String} : hash s = hash t ↔ ofText 0 s = ofText 0 t := by
  constructor
  · intro h
    exact UInt32.toNat_inj.mp (digits_injective (String.ofList_injective h))
  · intro h
    rw [hash, hash, h]

/-! ## One digit at the end -/

theorem bytesOf_append (s t : String) : bytesOf (s ++ t) = bytesOf s ++ bytesOf t := by
  rw [bytesOf, String.toList_append, List.flatMap_append]
  rfl

/-- A last byte stands in the last block alone, whole or not. -/
theorem differInBlock_concat (bytes : List UInt8) {a b : UInt8} (hne : a ≠ b) :
    DifferInBlock (bytes ++ [a]) (bytes ++ [b]) where
  length_eq := by simp
  ne := by simpa using hne
  block := by
    refine ⟨bytes.length / 4, fun i hi => ?_⟩
    have hlast : i = bytes.length := by
      by_contra hother
      apply hi
      rcases Nat.lt_or_gt_of_ne hother with hlt | hgt
      · rw [List.getElem?_append_left hlt, List.getElem?_append_left hlt]
      · rw [List.getElem?_eq_none (by simp; omega), List.getElem?_eq_none (by simp; omega)]
    rw [hlast]

theorem bytesOf_toString {n : Nat} (hn : n < 10) :
    bytesOf (toString n) = [(48 + n).toUInt8] := by
  have hall : ∀ m < 10, bytesOf (toString m) = [(48 + m).toUInt8] := by decide
  exact hall n hn

end Digest

/-- Variables of one context and property with slots of one digit have different names. -/
theorem variableName_ne (context : Context) (property : String) {slot slot' : Nat} (hslot : slot < 10)
    (hslot' : slot' < 10) (hne : slot ≠ slot') :
    variableName context property slot ≠ variableName context property slot' := by
  intro heq
  have hhash := Digest.hash_inj.mp (String.append_right_inj "--_" |>.mp heq)
  refine Digest.ofBytes_ne_of_differInBlock ?_ 0 hhash
  rw [Digest.bytesOf_append _ (toString slot), Digest.bytesOf_append _ (toString slot'),
    Digest.bytesOf_toString hslot, Digest.bytesOf_toString hslot']
  refine Digest.differInBlock_concat _ fun hbyte => hne ?_
  have hnat := congrArg UInt8.toNat hbyte
  simp only [UInt8.toNat_ofNat'] at hnat
  omega

/-- A local change always changes the hash: texts of one length in bytes that differ in one aligned
block of four bytes only, or in the shorter block at the end, have different hashes under every seed,
and different digests.  So variables of one context and property whose slots have one digit never
share a name. -/
theorem Digest.hash_ne_of_differInBlock (seed : UInt32) :
    (∀ s t : String, DifferInBlock (bytesOf s) (bytesOf t) →
      ofText seed s ≠ ofText seed t ∧ hash s ≠ hash t) ∧
    ∀ (context : Context) (property : String) (slot slot' : Nat), slot < 10 → slot' < 10 →
      slot ≠ slot' → variableName context property slot ≠ variableName context property slot' := by
  refine ⟨fun s t h => ⟨ofBytes_ne_of_differInBlock h seed, fun heq => ?_⟩,
    fun context property slot slot' => variableName_ne context property⟩
  exact ofBytes_ne_of_differInBlock h 0 (hash_inj.mp heq)

/-- Two letters of two bytes each that differ in the first byte of the last block, which has two
bytes. -/
theorem Digest.hash_ne_of_differInBlock_umlaut :
    DifferInBlock (bytesOf "colör") (bytesOf "colär") ∧
      ofText 7 "colör" ≠ ofText 7 "colär" ∧ hash "colör" ≠ hash "colär" ∧
      variableName Context.root "color" 3 ≠ variableName Context.root "color" 8 := by
  have hdiffer : DifferInBlock (bytesOf "colör") (bytesOf "colär") := by decide
  have hmain := hash_ne_of_differInBlock 7
  obtain ⟨htext, hhash⟩ := hmain.1 "colör" "colär" hdiffer
  exact ⟨hdiffer, htext, hhash,
    hmain.2 Context.root "color" 3 8 (by decide) (by decide) (by decide)⟩

end AtomicStyle

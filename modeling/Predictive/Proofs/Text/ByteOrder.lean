import Mathlib.Data.String.Basic

/-! Texts are compared character by character, and that is the order of their bytes too: where
two texts first differ, the encoding of the smaller character is smaller at a byte that both
encodings have. -/

namespace Predictive.Text

def bytes (text : String) : List UInt8 := text.toUTF8.data.toList

theorem bytes_eq (text : String) : bytes text = text.toList.flatMap String.utf8EncodeChar := by
  rw [bytes, String.toUTF8_eq_toByteArray, ← String.utf8Encode_toList, List.utf8Encode,
    List.data_toByteArray]

theorem ofNat_cons_lt {a b : Nat} {xs ys : List UInt8} (hb : b < 256)
    (h : a < b ∨ a = b ∧ xs < ys) : UInt8.ofNat a :: xs < UInt8.ofNat b :: ys := by
  rw [List.cons_lt_cons_iff]
  obtain hlt | ⟨rfl, hrest⟩ := h
  · left
    rw [UInt8.lt_iff_toNat_lt, UInt8.toNat_ofNat', UInt8.toNat_ofNat', Nat.mod_eq_of_lt hb,
      Nat.mod_eq_of_lt (Nat.lt_trans hlt hb)]
    exact hlt
  · exact .inr ⟨rfl, hrest⟩

theorem toNat_lt (c : Char) : c.toNat < 0x110000 := by
  obtain h | ⟨-, h⟩ := c.valid
  · exact Nat.lt_trans h (by decide)
  · exact h

section Digits

variable {v w : Nat} (hlt : v < w) (xs ys : List UInt8)

include hlt

theorem last_byte_lt (h : v / 64 = w / 64) :
    UInt8.ofNat (v % 64 + 128) :: xs < UInt8.ofNat (w % 64 + 128) :: ys :=
  ofNat_cons_lt (by omega) (.inl (by omega))

theorem last_two_bytes_lt (h : v / 4096 = w / 4096) :
    UInt8.ofNat (v / 64 % 64 + 128) :: UInt8.ofNat (v % 64 + 128) :: xs <
      UInt8.ofNat (w / 64 % 64 + 128) :: UInt8.ofNat (w % 64 + 128) :: ys := by
  apply ofNat_cons_lt (by omega)
  by_cases hlast : v / 64 = w / 64
  · exact .inr ⟨by rw [hlast], last_byte_lt hlt xs ys hlast⟩
  · exact .inl (by omega)

theorem last_three_bytes_lt (h : v / 262144 = w / 262144) :
    UInt8.ofNat (v / 4096 % 64 + 128) :: UInt8.ofNat (v / 64 % 64 + 128) ::
        UInt8.ofNat (v % 64 + 128) :: xs <
      UInt8.ofNat (w / 4096 % 64 + 128) :: UInt8.ofNat (w / 64 % 64 + 128) ::
        UInt8.ofNat (w % 64 + 128) :: ys := by
  apply ofNat_cons_lt (by omega)
  by_cases hlast : v / 4096 = w / 4096
  · exact .inr ⟨by rw [hlast], last_two_bytes_lt hlt xs ys hlast⟩
  · exact .inl (by omega)

end Digits

/-- A shorter encoding begins with a smaller byte. Two of one length are numerals to base 64, and
so they first differ where the numbers' quotients do. -/
theorem utf8EncodeChar_append_lt {c d : Char} (h : c < d) (xs ys : List UInt8) :
    String.utf8EncodeChar c ++ xs < String.utf8EncodeChar d ++ ys := by
  have hlt : c.toNat < d.toNat := h
  have hd := toNat_lt d
  unfold String.utf8EncodeChar
  rw [Char.toNat_val, Char.toNat_val]
  generalize c.toNat = v at hlt
  generalize d.toNat = w at hlt hd
  dsimp only
  -- One case for each pair of lengths; in the first bytes stand the numbers' leading digits.
  have hquotient : v / 64 ≤ w / 64 ∧ v / 4096 ≤ w / 4096 ∧ v / 262144 ≤ w / 262144 := by omega
  split
  · split
    · exact ofNat_cons_lt (by omega) (.inl (by omega))
    · split
      · exact ofNat_cons_lt (by omega) (.inl (by omega))
      · split <;> exact ofNat_cons_lt (by omega) (.inl (by omega))
  · rw [if_neg (show ¬ w ≤ 127 by omega)]
    split
    · split
      · apply ofNat_cons_lt (by omega)
        by_cases hfirst : v / 64 = w / 64
        · exact .inr ⟨by rw [hfirst], last_byte_lt hlt xs ys hfirst⟩
        · exact .inl (by omega)
      · split <;> exact ofNat_cons_lt (by omega) (.inl (by omega))
    · rw [if_neg (show ¬ w ≤ 2047 by omega)]
      split
      · split
        · apply ofNat_cons_lt (by omega)
          by_cases hfirst : v / 4096 = w / 4096
          · exact .inr ⟨by rw [hfirst], last_two_bytes_lt hlt xs ys hfirst⟩
          · exact .inl (by omega)
        · exact ofNat_cons_lt (by omega) (.inl (by omega))
      · rw [if_neg (show ¬ w ≤ 65535 by omega)]
        apply ofNat_cons_lt (by omega)
        by_cases hfirst : v / 262144 = w / 262144
        · exact .inr ⟨by rw [hfirst], last_three_bytes_lt hlt xs ys hfirst⟩
        · exact .inl (by omega)

theorem utf8EncodeChar_ne_nil (c : Char) : String.utf8EncodeChar c ≠ [] := by
  unfold String.utf8EncodeChar
  dsimp only
  split
  · simp
  · split
    · simp
    · split <;> simp

theorem flatMap_utf8EncodeChar_lt {cs ds : List Char} (h : cs < ds) :
    cs.flatMap String.utf8EncodeChar < ds.flatMap String.utf8EncodeChar := by
  induction cs generalizing ds with
  | nil =>
    cases ds with
    | nil => exact absurd h (List.lt_irrefl _)
    | cons d ds =>
      obtain ⟨b, rest, hb⟩ := List.exists_cons_of_ne_nil (utf8EncodeChar_ne_nil d)
      rw [List.flatMap_nil, List.flatMap_cons, hb]
      exact List.nil_lt_cons b _
  | cons c cs ih =>
    cases ds with
    | nil => exact absurd h (List.not_lt_nil _)
    | cons d ds =>
      rw [List.flatMap_cons, List.flatMap_cons]
      obtain hlt | ⟨rfl, hrest⟩ := List.cons_lt_cons_iff.mp h
      · exact utf8EncodeChar_append_lt hlt _ _
      · exact List.append_left_lt (ih hrest)

theorem bytes_lt_of_lt {a b : String} (h : a < b) : bytes a < bytes b := by
  rw [bytes_eq, bytes_eq]
  exact flatMap_utf8EncodeChar_lt (String.lt_iff_toList_lt.mp h)

theorem bytes_lt_iff {a b : String} : bytes a < bytes b ↔ a < b := by
  refine ⟨fun h => ?_, bytes_lt_of_lt⟩
  obtain hlt | rfl | hgt := lt_trichotomy a b
  · exact hlt
  · exact absurd h (List.lt_irrefl _)
  · exact absurd (bytes_lt_of_lt hgt) (List.lt_asymm h)

/-- The order in which texts are kept is the order of their bytes. -/
theorem compare_eq_lt_iff {a b : String} : compare a b = .lt ↔ bytes a < bytes b := by
  rw [bytes_lt_iff]
  exact compareOfLessAndEq_eq_lt

end Predictive.Text

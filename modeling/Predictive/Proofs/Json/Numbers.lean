import Mathlib.Data.List.TakeDrop
import Predictive.Json.Outline

/-! Numbers as they are written: plain digits, without a zero in front. The scan takes exactly
these digits, provided that what follows does not go on with a number, and takes them for the
natural number that was written as long as 64 bits hold it. -/

namespace Predictive.Json

/-- The text does not start with anything that a number could go on with. -/
def Closes (after : List Char) : Prop :=
  ∀ c ∈ after.head?, c.isDigit = false ∧ c ≠ '.' ∧ c ≠ 'e' ∧ c ≠ 'E'

theorem closes_cons {c : Char} {rest : List Char}
    (h : c.isDigit = false ∧ c ≠ '.' ∧ c ≠ 'e' ∧ c ≠ 'E') : Closes (c :: rest) := by
  intro c' hc'
  cases hc'
  exact h

variable {after : List Char}

theorem scanDigits_append {ds : List Char} (hds : ∀ d ∈ ds, d.isDigit = true)
    (h : Closes after) : scanDigits (ds ++ after) = (ds, after) := by
  have hrest : after.takeWhile Char.isDigit = [] ∧ after.dropWhile Char.isDigit = after := by
    cases after with
    | nil => exact ⟨rfl, rfl⟩
    | cons c rest =>
      have hc := (h c rfl).1
      simp [hc]
  rw [scanDigits, List.span_eq_takeWhile_dropWhile, List.takeWhile_append_of_pos hds,
    List.dropWhile_append_of_pos hds, hrest.1, hrest.2, List.append_nil]

theorem scanFraction_of_closes (h : Closes after) : scanFraction after = .ok (none, after) := by
  cases after with
  | nil => rfl
  | cons c rest =>
    have hc := (h c rfl).2.1
    simp [scanFraction, hc]

theorem scanExponent_of_closes (h : Closes after) : scanExponent after = .ok (none, after) := by
  cases after with
  | nil => rfl
  | cons c rest =>
    obtain ⟨-, -, he, hE⟩ := h c rfl
    simp [scanExponent, he, hE]

theorem head?_toDigits_ne_zero {n : Nat} (h : 0 < n) :
    (Nat.toDigits 10 n).head? ≠ some '0' := by
  induction n using Nat.strongRecOn with
  | ind n ih =>
    rw [Nat.toDigits_eq_if (by decide)]
    split
    · next hlt =>
      have hdigit : ∀ n < 10, 0 < n → n.digitChar ≠ '0' := by decide
      simpa using hdigit n hlt h
    · next hge =>
      have hdiv := ih (n / 10) (by omega) (by omega)
      cases hds : Nat.toDigits 10 (n / 10) with
      | nil => exact absurd hds Nat.toDigits_ne_nil
      | cons d ds =>
        rw [hds] at hdiv
        exact hdiv

theorem scanNumber_toDigits (n : Nat) (h : Closes after) :
    scanNumber false (Nat.toDigits 10 n ++ after) =
      .ok (.ofParts false (Nat.toDigits 10 n) none none, after) := by
  have hdigits : scanDigits (Nat.toDigits 10 n ++ after) = (Nat.toDigits 10 n, after) :=
    scanDigits_append (fun d hd => Nat.isDigit_of_mem_toDigits (by decide) (by decide) hd) h
  have hzero : ∀ d ds, Nat.toDigits 10 n ≠ '0' :: d :: ds := by
    intro d ds hds
    cases Nat.eq_zero_or_pos n with
    | inl hn =>
      subst hn
      cases hds
    | inr hn => exact head?_toDigits_ne_zero hn (by rw [hds]; rfl)
  rw [scanNumber, hdigits]
  split
  · next hnil => exact absurd (congrArg Prod.fst hnil) Nat.toDigits_ne_nil
  · next hlead => exact absurd (congrArg Prod.fst hlead) (hzero _ _)
  · next hparts =>
    cases hparts
    rw [scanFraction_of_closes h]
    simp only [bind, Except.bind, scanExponent_of_closes h]
    rfl

namespace Numeral

theorem gather_append {n m : Nat} {ds : List Char} (h : gather n ds = (m, [])) (es : List Char) :
    gather n (ds ++ es) = gather m es := by
  induction ds generalizing n with
  | nil =>
    cases h
    rfl
  | cons d ds ih =>
    rw [gather] at h
    split at h
    · next hfits =>
      rw [List.cons_append, gather, if_pos hfits]
      exact ih h
    · cases h

theorem digit_digitChar : ∀ n < 10, digit n.digitChar = n := by
  decide

theorem gather_digitChar {n m : Nat} (hm : m < 10) (h : 10 * n + m < Nat.pow 2 64) :
    gather n [m.digitChar] = (10 * n + m, []) := by
  rw [gather, digit_digitChar m hm, if_pos h]
  rfl

/-- The induction takes the last digit off. -/
theorem gather_toDigits (n : Nat) (h : n < Nat.pow 2 64) :
    gather 0 (Nat.toDigits 10 n) = (n, []) := by
  induction n using Nat.strongRecOn with
  | ind n ih =>
    rw [Nat.toDigits_eq_if (by decide)]
    split
    · next hlt =>
      have honly := gather_digitChar (n := 0) hlt (by omega)
      simpa using honly
    · next hge =>
      have hinit := ih (n / 10) (by omega) (by omega)
      have hlast := gather_digitChar (n := n / 10) (Nat.mod_lt n (by decide)) (by omega)
      rw [gather_append hinit, hlast]
      exact congrArg (·, []) (Nat.div_add_mod n 10)

theorem ofParts_toDigits {n : Nat} (h : n < Nat.pow 2 64) :
    ofParts false (Nat.toDigits 10 n) none none = .natural n := by
  simp [ofParts, gather_toDigits n h]

end Numeral

end Predictive.Json

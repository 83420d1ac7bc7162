import Predictive.Json
import Predictive.Json.Outline

/-! Texts between quotes. Every character is written in a form that the scan turns back into
it, so a quoted text is found as it was, whatever characters it holds. -/

namespace Predictive.Json

theorem unit?_hexDigits : ∀ u < 0x20, unit? '0' '0' (hexDigit (u / 16)) (hexDigit u) = some u := by
  decide

theorem scanText_plain {c : Char} (hquote : c ≠ '"') (hslash : c ≠ '\\') (hc : ¬ c.toNat < 0x20)
    (done rest : List Char) :
    scanText (.sound done) (c :: rest) = scanText (.sound (c :: done)) rest := by
  simp [scanText, hslash, hc, Spelling.addChar]

theorem scanText_control {c : Char} (hc : c.toNat < 0x20) (done rest : List Char) :
    scanText (.sound done)
        ('\\' :: 'u' :: '0' :: '0' :: hexDigit (c.toNat / 16) :: hexDigit c.toNat :: rest) =
      scanText (.sound (c :: done)) rest := by
  have hfirst : Spelling.isFirstHalf c.toNat = false := by
    simp only [Spelling.isFirstHalf, Bool.and_eq_false_iff, decide_eq_false_iff_not]
    omega
  have hsecond : Spelling.isSecondHalf c.toNat = false := by
    simp only [Spelling.isSecondHalf, Bool.and_eq_false_iff, decide_eq_false_iff_not]
    omega
  simp [scanText, unit?_hexDigits _ hc, Spelling.addUnit, hfirst, hsecond]

theorem scanText_escape (c : Char) (done rest : List Char) :
    scanText (.sound done) (escape c ++ rest) = scanText (.sound (c :: done)) rest := by
  unfold escape
  split
  · rfl
  · rfl
  · rfl
  · rfl
  · rfl
  · rfl
  · rfl
  · next hquote hslash _ _ _ _ _ =>
    split
    · next hc => exact scanText_control hc done rest
    · next hc => exact scanText_plain hquote hslash hc done rest

theorem scanText_escapes (cs done rest : List Char) :
    scanText (.sound done) (cs.flatMap escape ++ '"' :: rest) =
      .ok (some (.ofList (done.reverse ++ cs)), rest) := by
  induction cs generalizing done with
  | nil => simp [scanText, Spelling.close]
  | cons c cs ih =>
    rw [List.flatMap_cons, List.append_assoc, scanText_escape, ih]
    simp

theorem scanText_quote (s : String) (after : List Char) :
    scanText (.sound []) (s.toList.flatMap escape ++ '"' :: after) = .ok (some s, after) := by
  rw [scanText_escapes]
  simp

end Predictive.Json

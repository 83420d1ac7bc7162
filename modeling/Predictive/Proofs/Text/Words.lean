import Mathlib.Data.String.Basic
import Predictive.Text.Words

/-! Words that are put side by side, and lines that are put one below the other, are found again
in the text. A word is not empty and has no white space in it, so the blank between two words
ends the first one and begins the second, however much white space stands around them all. -/

namespace Predictive.Text

def Unspaced (text : String) : Prop := ∀ c ∈ text.toList, isWhiteSpace c = false

structure IsWord (text : String) : Prop where
  ne_empty : text ≠ ""
  unspaced : Unspaced text

-- Named, because there is also an instance that goes through all characters there are.
instance (text : String) : Decidable (Unspaced text) :=
  List.decidableBAll (fun c => isWhiteSpace c = false) text.toList

instance (text : String) : Decidable (IsWord text) :=
  decidable_of_iff (text ≠ "" ∧ Unspaced text)
    ⟨fun h => ⟨h.1, h.2⟩, fun h => ⟨h.ne_empty, h.unspaced⟩⟩

theorem Unspaced.not_mem {text : String} (h : Unspaced text) {c : Char}
    (hc : isWhiteSpace c = true) : c ∉ text.toList := by
  intro hmem
  rw [h c hmem] at hc
  cases hc

variable {ws : List String} {w : String} {c : Char}

theorem wordsFrom_append {cs : List Char} (h : ∀ c ∈ cs, isWhiteSpace c = false)
    (word rest : List Char) :
    wordsFrom word (cs ++ rest) = wordsFrom (cs.reverse ++ word) rest := by
  induction cs generalizing word with
  | nil => rfl
  | cons c cs ih =>
    obtain ⟨hc, hcs⟩ := List.forall_mem_cons.mp h
    rw [List.cons_append, wordsFrom, hc, if_neg Bool.false_ne_true, ih hcs]
    simp

theorem wordsFrom_spaces {cs : List Char} (h : ∀ c ∈ cs, isWhiteSpace c = true)
    (rest : List Char) : wordsFrom [] (cs ++ rest) = wordsFrom [] rest := by
  induction cs with
  | nil => rfl
  | cons c cs ih =>
    obtain ⟨hc, hcs⟩ := List.forall_mem_cons.mp h
    rw [List.cons_append, wordsFrom, hc, if_pos rfl, ih hcs]
    rfl

theorem wordsFrom_word (h : IsWord w) {rest : List Char}
    (hrest : ∀ c ∈ rest.head?, isWhiteSpace c = true) :
    wordsFrom [] (w.toList ++ rest) = w :: wordsFrom [] rest := by
  have hcons : ∀ more, consWord w.toList.reverse more = w :: more := by
    intro more
    simp [consWord, h.ne_empty]
  rw [wordsFrom_append h.unspaced, List.append_nil]
  cases rest with
  | nil => exact hcons []
  | cons c rest =>
    have hc : isWhiteSpace c = true := hrest c rfl
    rw [wordsFrom, wordsFrom, hc, if_pos rfl, if_pos rfl, hcons]
    rfl

theorem wordsFrom_intercalate (h : ∀ w ∈ ws, IsWord w) {after : List Char}
    (hafter : ∀ c ∈ after, isWhiteSpace c = true) :
    wordsFrom [] ((" ".intercalate ws).toList ++ after) = ws := by
  have hend : wordsFrom [] after = [] := by
    have hspaces := wordsFrom_spaces hafter []
    rwa [List.append_nil] at hspaces
  induction ws with
  | nil => exact hend
  | cons w ws ih =>
    obtain ⟨hw, hws⟩ := List.forall_mem_cons.mp h
    cases ws with
    | nil =>
      rw [String.intercalate_singleton, wordsFrom_word hw, hend]
      exact fun c hc => hafter c (List.mem_of_mem_head? hc)
    | cons w' ws =>
      rw [String.intercalate_cons_cons, String.toList_append, String.toList_append,
        List.append_assoc, List.append_assoc, wordsFrom_word hw]
      · exact congrArg (w :: ·) (ih hws)
      · simp [isWhiteSpace]

theorem words_intercalate (h : ∀ w ∈ ws, IsWord w) : words (" ".intercalate ws) = ws := by
  have hwords := wordsFrom_intercalate h (List.forall_mem_nil _)
  rwa [List.append_nil] at hwords

theorem words_surrounded (h : ∀ w ∈ ws, IsWord w) {before after : String}
    (hbefore : ∀ c ∈ before.toList, isWhiteSpace c = true)
    (hafter : ∀ c ∈ after.toList, isWhiteSpace c = true) :
    words (before ++ " ".intercalate ws ++ after) = ws := by
  rw [words, String.toList_append, String.toList_append, List.append_assoc,
    wordsFrom_spaces hbefore, wordsFrom_intercalate h hafter]

theorem not_mem_intercalate {sep : String} (hsep : c ∉ sep.toList) (h : ∀ w ∈ ws, c ∉ w.toList) :
    c ∉ (sep.intercalate ws).toList := by
  induction ws with
  | nil => simp
  | cons w ws ih =>
    obtain ⟨hw, hws⟩ := List.forall_mem_cons.mp h
    cases ws with
    | nil => rwa [String.intercalate_singleton]
    | cons w' ws =>
      rw [String.intercalate_cons_cons, String.toList_append, String.toList_append,
        List.mem_append, List.mem_append, not_or, not_or]
      exact ⟨⟨hw, hsep⟩, ih hws⟩

/-- What stands between line breaks; behind a final line break stands one more line, which is
empty. -/
def lines (text : String) : List String := (text.split '\n').toList.map (·.copy)

variable {ls : List String}

theorem lines_intercalate (hne : ls ≠ []) (h : ∀ s ∈ ls, '\n' ∉ s.toList) :
    lines ("\n".intercalate ls) = ls := by
  have hsplit := String.toList_split_intercalate h
  rwa [if_neg hne] at hsplit

theorem join_terminated (ls : List String) :
    String.join (ls.map (· ++ "\n")) = "\n".intercalate (ls ++ [""]) := by
  induction ls with
  | nil => rfl
  | cons s ls ih =>
    have hne : ls ++ [""] ≠ [] := List.append_ne_nil_of_right_ne_nil ls (List.cons_ne_nil _ _)
    rw [List.map_cons, String.join_cons, ih, List.cons_append,
      String.intercalate_cons_of_ne_nil hne]

theorem lines_join_terminated (h : ∀ s ∈ ls, '\n' ∉ s.toList) :
    lines (String.join (ls.map (· ++ "\n"))) = ls ++ [""] := by
  rw [join_terminated]
  refine lines_intercalate (List.append_ne_nil_of_right_ne_nil ls (List.cons_ne_nil _ _)) ?_
  exact List.forall_mem_append.mpr ⟨h, by simp⟩

end Predictive.Text

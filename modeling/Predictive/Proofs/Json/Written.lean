import Predictive.Proofs.Json.Numbers
import Predictive.Proofs.Json.Texts

/-! The outline of a written value. Scanning the text of a value, in either style and with
any text behind it that does not go on with a number, finds the outline of that value and
stops right behind it. The fuel that the scan starts with is enough, because every three
steps of it pass a character at least. -/

namespace Predictive.Json

mutual

def outline : Json → Outline
  | null => .null
  | number n => .number (.ofParts false (Nat.toDigits 10 n) none none)
  | text s => .text (some s)
  | list items => .list (outlines items) none
  | object fields => .object (fieldOutlines fields) none

def outlines : List Json → List Outline
  | [] => []
  | j :: rest => outline j :: outlines rest

def fieldOutlines : List (String × Json) → List (Option String × Outline)
  | [] => []
  | (k, j) :: rest => (some k, outline j) :: fieldOutlines rest

end

theorem skipBlanks_cons {c : Char} (h : isBlank c = false) (rest : List Char) :
    skipBlanks (c :: rest) = c :: rest := by
  simp [skipBlanks, h]

theorem skipBlanks_gap (style : Style) (level : Nat) (cs : List Char) :
    skipBlanks (style.gap level ++ cs) = skipBlanks cs := by
  refine List.dropWhile_append_of_pos fun c hc => ?_
  cases style with
  | compact => cases hc
  | spread =>
    rcases List.mem_cons.mp hc with rfl | hc
    · rfl
    · rw [List.eq_of_mem_replicate hc]
      rfl

theorem scanValue_congr {cs ds : List Char} (h : skipBlanks cs = skipBlanks ds) (fuel : Nat) :
    scanValue fuel cs = scanValue fuel ds := by
  cases fuel with
  | zero => rfl
  | succ fuel => rw [scanValue, scanValue, h]

theorem scanValue_gap (style : Style) (level fuel : Nat) (cs : List Char) :
    scanValue fuel (style.gap level ++ cs) = scanValue fuel cs :=
  scanValue_congr (skipBlanks_gap style level cs) fuel

theorem scanValue_colon (style : Style) (fuel : Nat) (cs : List Char) :
    ∃ cs', style.colon ++ cs = ':' :: cs' ∧ scanValue fuel cs' = scanValue fuel cs := by
  cases style with
  | compact => exact ⟨cs, rfl, rfl⟩
  | spread =>
    have hblank : skipBlanks (' ' :: cs) = skipBlanks cs := by simp [skipBlanks, isBlank]
    exact ⟨' ' :: cs, rfl, scanValue_congr hblank fuel⟩

theorem exists_digit (n : Nat) :
    ∃ d ds, Nat.toDigits 10 n = d :: ds ∧ d.isDigit = true := by
  cases hds : Nat.toDigits 10 n with
  | nil => exact absurd hds Nat.toDigits_ne_nil
  | cons d ds =>
    have hd : d ∈ Nat.toDigits 10 n := by simp [hds]
    exact ⟨d, ds, rfl, Nat.isDigit_of_mem_toDigits (by decide) (by decide) hd⟩

theorem ne_of_isDigit {d c : Char} (hd : d.isDigit = true) (hc : c.isDigit = false) : d ≠ c := by
  rintro rfl
  rw [hd] at hc
  cases hc

theorem isBlank_of_isDigit {d : Char} (hd : d.isDigit = true) : isBlank d = false := by
  have hspace := ne_of_isDigit hd (c := ' ') rfl
  have hline := ne_of_isDigit hd (c := '\n') rfl
  have htab := ne_of_isDigit hd (c := '\t') rfl
  have hreturn := ne_of_isDigit hd (c := '\r') rfl
  simp [isBlank, hspace, hline, htab, hreturn]

def listTail (style : Style) (level outer : Nat) (others : List Json) (after : List Char) :
    List Char :=
  comma others (writeItems style level others (style.gap outer ++ ']' :: after))

def objectTail (style : Style) (level outer : Nat) (others : List (String × Json))
    (after : List Char) : List Char :=
  comma others (writeFields style level others (style.gap outer ++ '\x7d' :: after))

def writeField (style : Style) (level : Nat) (k : String) (j : Json) (after : List Char) :
    List Char :=
  quote k (style.colon ++ write style level j after)

variable {style : Style} {level outer fuel : Nat} {after rest cs : List Char}

theorem write_list_nil : write style level (.list []) after = '[' :: ']' :: after := by
  rw [write]
  rfl

theorem write_list_cons (j : Json) (others : List Json) :
    write style level (.list (j :: others)) after =
      '[' :: (style.gap (level + 1) ++
        write style (level + 1) j (listTail style (level + 1) level others after)) := by
  rw [write, writeItems]
  rfl

theorem write_object_nil : write style level (.object []) after = '\x7b' :: '\x7d' :: after := by
  rw [write]
  rfl

theorem write_object_cons (k : String) (j : Json) (others : List (String × Json)) :
    write style level (.object ((k, j) :: others)) after =
      '\x7b' :: (style.gap (level + 1) ++
        writeField style (level + 1) k j (objectTail style (level + 1) level others after)) := by
  rw [write, writeFields]
  rfl

theorem listTail_nil : listTail style level outer [] after = style.gap outer ++ ']' :: after := by
  rw [listTail, writeItems]
  rfl

theorem objectTail_nil :
    objectTail style level outer [] after = style.gap outer ++ '\x7d' :: after := by
  rw [objectTail, writeFields]
  rfl

theorem listTail_cons (j : Json) (others : List Json) :
    listTail style level outer (j :: others) after =
      ',' :: (style.gap level ++
        write style level j (listTail style level outer others after)) := by
  rw [listTail, writeItems]
  rfl

theorem objectTail_cons (k : String) (j : Json) (others : List (String × Json)) :
    objectTail style level outer ((k, j) :: others) after =
      ',' :: (style.gap level ++
        writeField style level k j (objectTail style level outer others after)) := by
  rw [objectTail, writeFields]
  rfl

theorem write_head (style : Style) (level : Nat) (j : Json) (after : List Char) :
    ∃ c rest, write style level j after = c :: rest ∧ isBlank c = false ∧ c ≠ ']' := by
  cases j with
  | null => exact ⟨_, _, by rw [write], rfl, by decide⟩
  | number n =>
    obtain ⟨d, ds, hds, hd⟩ := exists_digit n
    refine ⟨d, ds ++ after, ?_, isBlank_of_isDigit hd, ne_of_isDigit hd rfl⟩
    rw [write, hds]
    rfl
  | text s => exact ⟨_, _, by rw [write, quote], rfl, by decide⟩
  | list items =>
    cases items with
    | nil => exact ⟨_, _, write_list_nil, rfl, by decide⟩
    | cons j others => exact ⟨_, _, write_list_cons j others, rfl, by decide⟩
  | object fields =>
    cases fields with
    | nil => exact ⟨_, _, write_object_nil, rfl, by decide⟩
    | cons f others => exact ⟨_, _, write_object_cons f.1 f.2 others, rfl, by decide⟩

theorem length_lt_quote (s : String) (after : List Char) :
    after.length < (quote s after).length := by
  simp only [quote, List.length_cons, List.length_append]
  omega

theorem length_write_lt_writeField (style : Style) (level : Nat) (k : String) (j : Json)
    (after : List Char) :
    (write style level j after).length < (writeField style level k j after).length := by
  have hk := length_lt_quote k (style.colon ++ write style level j after)
  rw [List.length_append] at hk
  rw [writeField]
  omega

mutual

theorem length_lt_write (style : Style) : ∀ (j : Json) (level : Nat) (after : List Char),
    after.length < (write style level j after).length
  | .null, level, after => by
    simp only [write, List.length_cons]
    omega
  | .number n, level, after => by
    have hn : 0 < (Nat.toDigits 10 n).length := Nat.length_toDigits_pos
    simp only [write, List.length_append]
    omega
  | .text s, level, after => by
    rw [write]
    exact length_lt_quote s after
  | .list [], level, after => by
    simp only [write_list_nil, List.length_cons]
    omega
  | .list (j :: others), level, after => by
    have hothers := length_lt_listTail style others (level + 1) level after
    have hj := length_lt_write style j (level + 1)
      (listTail style (level + 1) level others after)
    simp only [write_list_cons, List.length_append, List.length_cons]
    omega
  | .object [], level, after => by
    simp only [write_object_nil, List.length_cons]
    omega
  | .object ((k, j) :: others), level, after => by
    have hothers := length_lt_objectTail style others (level + 1) level after
    have hj := length_lt_write style j (level + 1)
      (objectTail style (level + 1) level others after)
    have hfield := length_write_lt_writeField style (level + 1) k j
      (objectTail style (level + 1) level others after)
    simp only [write_object_cons, List.length_append, List.length_cons]
    omega

theorem length_lt_listTail (style : Style) :
    ∀ (others : List Json) (level outer : Nat) (after : List Char),
      after.length < (listTail style level outer others after).length
  | [], level, outer, after => by
    simp only [listTail_nil, List.length_append, List.length_cons]
    omega
  | j :: others, level, outer, after => by
    have hothers := length_lt_listTail style others level outer after
    have hj := length_lt_write style j level (listTail style level outer others after)
    simp only [listTail_cons, List.length_append, List.length_cons]
    omega

theorem length_lt_objectTail (style : Style) :
    ∀ (others : List (String × Json)) (level outer : Nat) (after : List Char),
      after.length < (objectTail style level outer others after).length
  | [], level, outer, after => by
    simp only [objectTail_nil, List.length_append, List.length_cons]
    omega
  | (k, j) :: others, level, outer, after => by
    have hothers := length_lt_objectTail style others level outer after
    have hj := length_lt_write style j level (objectTail style level outer others after)
    have hfield := length_write_lt_writeField style level k j
      (objectTail style level outer others after)
    simp only [objectTail_cons, List.length_append, List.length_cons]
    omega

end

theorem closes_gap {c : Char} (h : c.isDigit = false ∧ c ≠ '.' ∧ c ≠ 'e' ∧ c ≠ 'E') :
    Closes (style.gap level ++ c :: after) := by
  cases style with
  | compact => exact closes_cons h
  | spread => exact closes_cons (by decide)

theorem closes_listTail (style : Style) (level outer : Nat) (others : List Json)
    (after : List Char) : Closes (listTail style level outer others after) := by
  cases others with
  | nil =>
    rw [listTail_nil]
    exact closes_gap (by decide)
  | cons j others =>
    rw [listTail_cons]
    exact closes_cons (by decide)

theorem closes_objectTail (style : Style) (level outer : Nat) (others : List (String × Json))
    (after : List Char) : Closes (objectTail style level outer others after) := by
  cases others with
  | nil =>
    rw [objectTail_nil]
    exact closes_gap (by decide)
  | cons f others =>
    rw [objectTail_cons]
    exact closes_cons (by decide)

theorem scanItems_close (first : Bool) :
    scanItems (fuel + 1) first (style.gap level ++ ']' :: after) = ([], none, some after) := by
  rw [scanItems, skipBlanks_gap, skipBlanks_cons rfl]
  rfl

theorem scanFields_close (first : Bool) :
    scanFields (fuel + 1) first (style.gap level ++ '\x7d' :: after) = ([], none, some after) := by
  rw [scanFields, skipBlanks_gap, skipBlanks_cons rfl]
  rfl

theorem scanItems_comma : scanItems (fuel + 1) false (',' :: cs) = scanItem fuel cs := by
  rw [scanItems, skipBlanks_cons rfl]
  rfl

theorem scanFields_comma : scanFields (fuel + 1) false (',' :: cs) = scanField fuel cs := by
  rw [scanFields, skipBlanks_cons rfl]
  rfl

theorem scanItem_gap : scanItem fuel (style.gap level ++ cs) = scanItem fuel cs := by
  cases fuel with
  | zero => rfl
  | succ fuel => rw [scanItem, scanItem, scanValue_gap]

theorem scanField_gap : scanField fuel (style.gap level ++ cs) = scanField fuel cs := by
  cases fuel with
  | zero => rfl
  | succ fuel => rw [scanField, scanField, skipBlanks_gap]

theorem scanItem_of_scanValue {o : Outline} {os : List Outline} {tear : Option Tear}
    {left : Option (List Char)} (hvalue : scanValue fuel cs = (o, some rest))
    (hrest : scanItems fuel false rest = (os, tear, left)) :
    scanItem (fuel + 1) cs = (o :: os, tear, left) := by
  rw [scanItem, hvalue]
  simp only [hrest]

theorem scanField_of_scanValue {k : String} {j : Json} {os : List (Option String × Outline)}
    {tear : Option Tear} {left : Option (List Char)}
    (hvalue : scanValue fuel (write style level j rest) = (outline j, some rest))
    (hrest : scanFields fuel false rest = (os, tear, left)) :
    scanField (fuel + 1) (writeField style level k j rest) =
      ((some k, outline j) :: os, tear, left) := by
  obtain ⟨cs, hcolon, hcs⟩ := scanValue_colon style fuel (write style level j rest)
  rw [scanField, writeField, quote, skipBlanks_cons rfl]
  simp only [scanText_quote, hcolon, skipBlanks_cons (c := ':') rfl, hcs, hvalue, hrest]

theorem scanItems_first (j : Json) (after : List Char) :
    scanItems (fuel + 1) true (style.gap level ++ write style level j after) =
      scanItem fuel (write style level j after) := by
  obtain ⟨c, rest, hwrite, hblank, hclose⟩ := write_head style level j after
  rw [hwrite, scanItems, skipBlanks_gap, skipBlanks_cons hblank]
  split
  · next h => cases h
  · next h =>
    cases h
    exact absurd rfl hclose
  · next h =>
    cases h
    rfl

theorem scanFields_first (k : String) (j : Json) (after : List Char) :
    scanFields (fuel + 1) true (style.gap level ++ writeField style level k j after) =
      scanField fuel (writeField style level k j after) := by
  rw [scanFields, skipBlanks_gap, writeField, quote, skipBlanks_cons rfl]
  rfl

theorem scanValue_number (n : Nat) (h : Closes after) :
    scanValue (fuel + 1) (Nat.toDigits 10 n ++ after) =
      (.number (.ofParts false (Nat.toDigits 10 n) none none), some after) := by
  obtain ⟨d, ds, hds, hd⟩ := exists_digit n
  have hscan := scanNumber_toDigits n h
  have hquote := ne_of_isDigit hd (c := '"') rfl
  have hlist := ne_of_isDigit hd (c := '[') rfl
  have hobject := ne_of_isDigit hd (c := '\x7b') rfl
  have hminus := ne_of_isDigit hd (c := '-') rfl
  have hnull := ne_of_isDigit hd (c := 'n') rfl
  have htrue := ne_of_isDigit hd (c := 't') rfl
  have hfalse := ne_of_isDigit hd (c := 'f') rfl
  rw [hds, List.cons_append] at hscan
  rw [scanValue, hds, List.cons_append, skipBlanks_cons (isBlank_of_isDigit hd)]
  simp [hd, hscan, leaf]

theorem scanValue_list_nil :
    scanValue (fuel + 2) ('[' :: ']' :: after) = (.list [] none, some after) := by
  rw [scanValue, skipBlanks_cons rfl]
  simp only [scanItems, skipBlanks_cons (c := ']') rfl]

theorem scanValue_object_nil :
    scanValue (fuel + 2) ('\x7b' :: '\x7d' :: after) = (.object [] none, some after) := by
  rw [scanValue, skipBlanks_cons rfl]
  simp only [scanFields, skipBlanks_cons (c := '\x7d') rfl]

mutual

/-- The induction is on the value. Every step down passes a character, which pays for the
fuel of the steps that read the next item. -/
theorem scanValue_write (style : Style) : ∀ (j : Json) (level fuel : Nat) (after : List Char),
    Closes after → 3 * (write style level j after).length + 1 ≤ fuel →
      scanValue fuel (write style level j after) = (outline j, some after)
  | .null, level, fuel, after, _, hf => by
    obtain ⟨fuel, rfl⟩ := Nat.exists_eq_add_of_le' (m := 1) (by omega : 1 ≤ fuel)
    rw [write, scanValue, skipBlanks_cons rfl]
    rfl
  | .number n, level, fuel, after, h, hf => by
    obtain ⟨fuel, rfl⟩ := Nat.exists_eq_add_of_le' (m := 1) (by omega : 1 ≤ fuel)
    rw [write]
    exact scanValue_number n h
  | .text s, level, fuel, after, _, hf => by
    obtain ⟨fuel, rfl⟩ := Nat.exists_eq_add_of_le' (m := 1) (by omega : 1 ≤ fuel)
    rw [write, quote, scanValue, skipBlanks_cons rfl]
    simp only [scanText_quote, leaf, outline]
  | .list [], level, fuel, after, _, hf => by
    have hlen := length_lt_write style (.list []) level after
    obtain ⟨fuel, rfl⟩ := Nat.exists_eq_add_of_le' (m := 2) (by omega : 2 ≤ fuel)
    rw [write_list_nil]
    exact scanValue_list_nil
  | .list (j :: others), level, fuel, after, _, hf => by
    simp only [write_list_cons, List.length_cons, List.length_append] at hf
    obtain ⟨fuel, rfl⟩ := Nat.exists_eq_add_of_le' (m := 3) (by omega : 3 ≤ fuel)
    have hlen := length_lt_write style j (level + 1)
      (listTail style (level + 1) level others after)
    have hj := scanValue_write style j (level + 1) fuel _
      (closes_listTail style (level + 1) level others after) (by omega)
    have hothers := scanItems_listTail style others (level + 1) level fuel after (by omega)
    rw [write_list_cons, scanValue, skipBlanks_cons rfl]
    simp only [scanItems_first, scanItem_of_scanValue hj hothers, outline, outlines]
  | .object [], level, fuel, after, _, hf => by
    have hlen := length_lt_write style (.object []) level after
    obtain ⟨fuel, rfl⟩ := Nat.exists_eq_add_of_le' (m := 2) (by omega : 2 ≤ fuel)
    rw [write_object_nil]
    exact scanValue_object_nil
  | .object ((k, j) :: others), level, fuel, after, _, hf => by
    simp only [write_object_cons, List.length_cons, List.length_append] at hf
    obtain ⟨fuel, rfl⟩ := Nat.exists_eq_add_of_le' (m := 3) (by omega : 3 ≤ fuel)
    have hlen := length_lt_write style j (level + 1)
      (objectTail style (level + 1) level others after)
    have hfield := length_write_lt_writeField style (level + 1) k j
      (objectTail style (level + 1) level others after)
    have hj := scanValue_write style j (level + 1) fuel _
      (closes_objectTail style (level + 1) level others after) (by omega)
    have hothers := scanFields_objectTail style others (level + 1) level fuel after (by omega)
    rw [write_object_cons, scanValue, skipBlanks_cons rfl]
    simp only [scanFields_first, scanField_of_scanValue hj hothers, outline, fieldOutlines]

theorem scanItems_listTail (style : Style) : ∀ (others : List Json) (level outer fuel : Nat)
    (after : List Char), 3 * (listTail style level outer others after).length + 1 ≤ fuel →
      scanItems fuel false (listTail style level outer others after) =
        (outlines others, none, some after)
  | [], level, outer, fuel, after, hf => by
    obtain ⟨fuel, rfl⟩ := Nat.exists_eq_add_of_le' (m := 1) (by omega : 1 ≤ fuel)
    rw [listTail_nil]
    exact scanItems_close false
  | j :: others, level, outer, fuel, after, hf => by
    simp only [listTail_cons, List.length_cons, List.length_append] at hf
    obtain ⟨fuel, rfl⟩ := Nat.exists_eq_add_of_le' (m := 2) (by omega : 2 ≤ fuel)
    have hlen := length_lt_write style j level (listTail style level outer others after)
    have hj := scanValue_write style j level fuel _
      (closes_listTail style level outer others after) (by omega)
    have hothers := scanItems_listTail style others level outer fuel after (by omega)
    rw [listTail_cons, scanItems_comma, scanItem_gap, scanItem_of_scanValue hj hothers, outlines]

theorem scanFields_objectTail (style : Style) : ∀ (others : List (String × Json))
    (level outer fuel : Nat) (after : List Char),
    3 * (objectTail style level outer others after).length + 1 ≤ fuel →
      scanFields fuel false (objectTail style level outer others after) =
        (fieldOutlines others, none, some after)
  | [], level, outer, fuel, after, hf => by
    obtain ⟨fuel, rfl⟩ := Nat.exists_eq_add_of_le' (m := 1) (by omega : 1 ≤ fuel)
    rw [objectTail_nil]
    exact scanFields_close false
  | (k, j) :: others, level, outer, fuel, after, hf => by
    simp only [objectTail_cons, List.length_cons, List.length_append] at hf
    obtain ⟨fuel, rfl⟩ := Nat.exists_eq_add_of_le' (m := 2) (by omega : 2 ≤ fuel)
    have hlen := length_lt_write style j level (objectTail style level outer others after)
    have hfield := length_write_lt_writeField style level k j
      (objectTail style level outer others after)
    have hj := scanValue_write style j level fuel _
      (closes_objectTail style level outer others after) (by omega)
    have hothers := scanFields_objectTail style others level outer fuel after (by omega)
    rw [objectTail_cons, scanFields_comma, scanField_gap, scanField_of_scanValue hj hothers,
      fieldOutlines]

end

theorem quote_append (s : String) (after more : List Char) :
    quote s (after ++ more) = quote s after ++ more := by
  simp [quote]

theorem comma_append {α : Type} (others : List α) (after more : List Char) :
    comma others (after ++ more) = comma others after ++ more := by
  rw [comma, comma]
  split <;> rfl

mutual

theorem write_append (style : Style) : ∀ (j : Json) (level : Nat) (after more : List Char),
    write style level j (after ++ more) = write style level j after ++ more
  | .null, level, after, more => by
    rw [write, write]
    rfl
  | .number n, level, after, more => by
    rw [write, write, List.append_assoc]
  | .text s, level, after, more => by
    rw [write, write, quote_append]
  | .list items, level, after, more => by
    have hitems := writeItems_append style items (level + 1) (style.gap level ++ ']' :: after) more
    rw [List.append_assoc, List.cons_append] at hitems
    rw [write, write, hitems]
    split <;> rfl
  | .object fields, level, after, more => by
    have hfields := writeFields_append style fields (level + 1)
      (style.gap level ++ '\x7d' :: after) more
    rw [List.append_assoc, List.cons_append] at hfields
    rw [write, write, hfields]
    split <;> rfl

theorem writeItems_append (style : Style) : ∀ (items : List Json) (level : Nat)
    (after more : List Char),
    writeItems style level items (after ++ more) = writeItems style level items after ++ more
  | [], level, after, more => by
    rw [writeItems, writeItems]
  | j :: rest, level, after, more => by
    rw [writeItems, writeItems, writeItems_append, comma_append, write_append, List.append_assoc]

theorem writeFields_append (style : Style) : ∀ (fields : List (String × Json)) (level : Nat)
    (after more : List Char),
    writeFields style level fields (after ++ more) = writeFields style level fields after ++ more
  | [], level, after, more => by
    rw [writeFields, writeFields]
  | (k, j) :: rest, level, after, more => by
    rw [writeFields, writeFields, writeFields_append, comma_append, write_append,
      ← List.append_assoc, quote_append, List.append_assoc]

end

end Predictive.Json

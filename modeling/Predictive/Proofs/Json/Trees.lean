import Predictive.Proofs.Json.Records
import Predictive.Proofs.Tree.Levels
import Predictive.Tree.Json

/-! Trees in JSON. Each level of a tree below the first takes two levels of nesting, so a tree is
read back exactly up to the depth that the nesting limit allows, and is refused as no JSON when
it is deeper: the first node that lies too deep stops the reader, whatever stands behind it.
This holds for the fields of a node in either order. -/

namespace Predictive

open Json (Reader Outline outline)

namespace Json.Reader

def within {α : Type} (b levels : Nat) (a : α) : Except Fault α :=
  if levels ≤ b then .ok a else .error .malformed

variable {α : Type} {b levels : Nat} {a : α}

theorem within_of_le (h : levels ≤ b) : within b levels a = .ok a := if_pos h

theorem within_of_lt (h : b < levels) : within b levels a = .error .malformed :=
  if_neg (Nat.not_le_of_lt h)

end Json.Reader

namespace Tree

open Json.Reader (within within_of_le within_of_lt)

variable {b : Nat} {o : Outline} {rest : List (Option String × Outline)}

section Fields

variable {symbol : Option Symbol} {children : Option (List Tree)}
  {value : Option (Option String)} {read : Outline → Except Json.Fault (List Tree)}

theorem fields_symbol {s : Symbol} (h : Reader.symbol b o = .ok s) :
    Reader.fields (Draft.known read b) ⟨none, children, value⟩ ((some "symbol", o) :: rest) none =
      Reader.fields (Draft.known read b) ⟨some s, children, value⟩ rest none := by
  have hknown : Draft.known read b ⟨none, children, value⟩ "symbol" =
      some (Reader.once none (Reader.symbol b) fun s => ⟨some s, children, value⟩) := rfl
  exact Reader.fields_once hknown h rest none

theorem known_children : Draft.known read b ⟨symbol, none, value⟩ "children" =
    some (Reader.once none read fun ts => ⟨symbol, some ts, value⟩) :=
  rfl

theorem fields_value {v : Option String} (h : Reader.optional .text b o = .ok v) :
    Reader.fields (Draft.known read b) ⟨symbol, children, none⟩ ((some "value", o) :: rest) none =
      Reader.fields (Draft.known read b) ⟨symbol, children, some v⟩ rest none := by
  have hknown : Draft.known read b ⟨symbol, children, none⟩ "value" =
      some (Reader.once none (Reader.optional .text b) fun v => ⟨symbol, children, some v⟩) := rfl
  exact Reader.fields_once hknown h rest none

end Fields

def valueFields (v : Option String) : List (String × Json) :=
  (v.map fun text => ("value", Json.text text)).toList

theorem toJson_leaf (s : Symbol) (v : Option String) :
    (node s [] v).toJson = .object (("symbol", .text s.text) :: valueFields v) :=
  rfl

theorem sorted_leaf (s : Symbol) (v : Option String) :
    (node s [] v).toJson.sorted = (node s [] v).toJson := by
  cases v <;> cbv

theorem sorted_branch (s : Symbol) (c : Tree) (cs : List Tree) (v : Option String) :
    (node s (c :: cs) v).toJson.sorted =
      .object (("children", (Json.list (toJsons (c :: cs))).sorted) ::
        ("symbol", .text s.text) :: valueFields v) := by
  cases v <;> cbv

theorem reader_object (fs : List (Option String × Outline)) :
    reader (b + 1) (.object fs none) =
      (Reader.fields (Draft.known (childrenReader b) b) ⟨none, none, none⟩ fs none).bind
        Draft.finish := by
  rw [reader]
  rfl

theorem finish_valueFields {s : Symbol} {children : Option (List Tree)}
    {read : Outline → Except Json.Fault (List Tree)} (v : Option String) :
    (Reader.fields (Draft.known read b) ⟨some s, children, none⟩
      (Json.fieldOutlines (valueFields v)) none).bind Draft.finish =
        .ok (.node s (children.getD []) v) := by
  cases v with
  | none => rfl
  | some text =>
    have hvalue : Reader.optional .text b (outline (.text text)) = .ok (some text) := rfl
    change (Reader.fields _ _ [(some "value", outline (.text text))] none).bind _ = _
    rw [fields_value hvalue]
    rfl

theorem reader_leaf (b : Nat) (s : Symbol) (v : Option String) :
    reader b (outline (node s [] v).toJson) = within b 1 (node s [] v) := by
  cases b with
  | zero =>
    rw [toJson_leaf, outline, reader]
    rfl
  | succ b =>
    have hsymbol := (Reader.yields_symbol b s).given
    change reader (b + 1)
      (.object ((some "symbol", outline (.text s.text)) :: Json.fieldOutlines (valueFields v)) none) = _
    rw [reader_object, fields_symbol hsymbol, finish_valueFields, within_of_le (by omega)]
    rfl

theorem reader_branch {s : Symbol} {cs : List Tree} {v : Option String}
    {fs : List (Option String × Outline)}
    (hfs : fs = (some "symbol", outline (.text s.text)) :: (some "children", o) ::
        Json.fieldOutlines (valueFields v) ∨
      fs = (some "children", o) :: (some "symbol", outline (.text s.text)) ::
        Json.fieldOutlines (valueFields v))
    (h : ∀ b, childrenReader b o = within b (2 * heights cs) cs) (b : Nat) :
    reader b (.object fs none) = within b (2 * heights cs + 1) (node s cs v) := by
  cases b with
  | zero =>
    rw [reader]
    rfl
  | succ b =>
    have hsymbol := (Reader.yields_symbol b s).given
    rw [reader_object]
    by_cases hlevels : 2 * heights cs ≤ b
    · have hread := (h b).trans (within_of_le hlevels)
      rw [within_of_le (by omega)]
      rcases hfs with rfl | rfl
      · rw [fields_symbol hsymbol, Reader.fields_once known_children hread, finish_valueFields]
        rfl
      · rw [Reader.fields_once known_children hread, fields_symbol hsymbol, finish_valueFields]
        rfl
    · have hread := (h b).trans (within_of_lt (Nat.lt_of_not_le hlevels))
      rw [within_of_lt (by omega)]
      rcases hfs with rfl | rfl
      · rw [fields_symbol hsymbol, Reader.fields_once_error known_children hread]
        rfl
      · rw [Reader.fields_once_error known_children hread]
        rfl

section Forest

variable {t : Tree} {ts : List Tree} {os : List Outline}

theorem items_cons (ht : reader b o = within b (2 * t.height - 1) t)
    (hts : Reader.items (reader b) os none = within b (2 * heights ts - 1) ts) :
    Reader.items (reader b) (o :: os) none =
      within b (2 * heights (t :: ts) - 1) (t :: ts) := by
  rw [Reader.items, ht, hts, heights]
  by_cases hlevels : 2 * t.height - 1 ≤ b
  · rw [within_of_le hlevels]
    by_cases hrest : 2 * heights ts - 1 ≤ b
    · have hall : 2 * max t.height (heights ts) - 1 ≤ b := by omega
      rw [within_of_le hrest, within_of_le hall]
      rfl
    · have hall : b < 2 * max t.height (heights ts) - 1 := by omega
      rw [within_of_lt (Nat.lt_of_not_le hrest), within_of_lt hall]
      rfl
  · have hall : b < 2 * max t.height (heights ts) - 1 := by omega
    rw [within_of_lt (Nat.lt_of_not_le hlevels), within_of_lt hall]
    rfl

theorem childrenReader_list (hts : ts ≠ [])
    (h : ∀ b, Reader.items (reader b) os none = within b (2 * heights ts - 1) ts) (b : Nat) :
    childrenReader b (.list os none) = within b (2 * heights ts) ts := by
  have hpos := heights_pos hts
  cases b with
  | zero => rw [childrenReader, within_of_lt (by omega)]
  | succ b =>
    rw [childrenReader, h, within, within]
    exact if_congr (by omega) rfl rfl

end Forest

mutual

/-- The induction is on the tree. Whether a child is read does not depend on its siblings, but
the first one that is not stops the reader. -/
theorem yields_toJson : ∀ (t : Tree) (b : Nat),
    reader.Yields b t.toJson (within b (2 * t.height - 1) t)
  | node s [] v, b => by
    have hread := reader_leaf b s v
    constructor
    · exact hread
    · rw [sorted_leaf]
      exact hread
  | node s (c :: cs) v, b => by
    have hgiven := childrenReader_list (List.cons_ne_nil c cs) fun b => (items_toJsons (c :: cs) b).1
    have hsorted := childrenReader_list (List.cons_ne_nil c cs) fun b => (items_toJsons (c :: cs) b).2
    constructor
    · exact reader_branch (.inl rfl) hgiven b
    · rw [sorted_branch]
      exact reader_branch (.inr rfl) hsorted b

theorem items_toJsons : ∀ (ts : List Tree) (b : Nat),
    Reader.items (reader b) (Json.outlines (toJsons ts)) none =
        within b (2 * heights ts - 1) ts ∧
      Reader.items (reader b) (Json.outlines (Json.sortedItems (toJsons ts))) none =
        within b (2 * heights ts - 1) ts
  | [], b => by
    rw [within_of_le (by rw [heights]; omega)]
    exact ⟨rfl, rfl⟩
  | t :: ts, b => by
    have ht := yields_toJson t b
    have hts := items_toJsons ts b
    exact ⟨items_cons ht.given hts.1, items_cons ht.sorted hts.2⟩

end

theorem fits_valueFields (b : Nat) (v : Option String) : ∀ p ∈ valueFields v, p.2.Fits b := by
  cases v <;> simp [valueFields, Json.Fits.text]

mutual

theorem fits_toJson : ∀ (t : Tree) (b : Nat), 2 * t.height - 1 ≤ b → t.toJson.Fits b
  | node s [] v, b, h => by
    obtain ⟨b, rfl⟩ := Nat.exists_eq_add_of_le' (m := 1) (by rw [height] at h; omega : 1 ≤ b)
    exact .object (List.forall_mem_cons.mpr ⟨.text _, fits_valueFields b v⟩)
  | node s (c :: cs) v, b, h => by
    have hpos : 0 < heights (c :: cs) := heights_pos (List.cons_ne_nil c cs)
    rw [height] at h
    obtain ⟨b, rfl⟩ := Nat.exists_eq_add_of_le' (m := 2) (by omega : 2 ≤ b)
    have hchildren := fits_toJsons (c :: cs) b (by omega)
    exact .object (List.forall_mem_cons.mpr ⟨.text _,
      List.forall_mem_cons.mpr ⟨.list hchildren, fits_valueFields (b + 1) v⟩⟩)

theorem fits_toJsons : ∀ (ts : List Tree) (b : Nat), 2 * heights ts - 1 ≤ b →
    ∀ j ∈ toJsons ts, j.Fits b
  | [], b, h => List.forall_mem_nil _
  | t :: ts, b, h => by
    rw [heights] at h
    rw [toJsons]
    exact List.forall_mem_cons.mpr ⟨fits_toJson t b (by omega), fits_toJsons ts b (by omega)⟩

end

/-- The text of a tree gives the tree again up to a depth of 64. A deeper tree nests more than
127 lists and objects, and its text is refused as no JSON. -/
theorem read_back_up_to_depth (t : Tree) :
    Reader.run reader t.toJson.compact = if t.depth ≤ 64 then .ok t else .error .malformed := by
  rw [Json.compact, Reader.run_write, (yields_toJson t _).given, within, depth_eq_height]
  exact if_congr (by rw [Json.nestingLimit]; omega) rfl rfl

end Tree

end Predictive

import Mathlib.Data.List.Forall2

/-! Facts about lists that several proofs share: where a cut falls, the maximum found by a
fold, lists related entry by entry, neighbours in a chain, the first entry in some order that
fails a test, and items that are read in turn until one is refused. -/

namespace Predictive

variable {α β : Type}

theorem append_eq_append_cons {xs ys before after : List α} {s : α}
    (h : xs ++ ys = before ++ s :: after) :
    (∃ mid, xs = before ++ s :: mid ∧ after = mid ++ ys) ∨
      ∃ mid, before = xs ++ mid ∧ ys = mid ++ s :: after := by
  obtain ⟨mid, hb, hy⟩ | ⟨mid, hx, hy⟩ := List.append_eq_append_iff.mp h
  · exact .inr ⟨mid, hb, hy⟩
  · cases mid with
    | nil =>
      rw [List.append_nil] at hx
      exact .inr ⟨[], by simp [hx], hy.symm⟩
    | cons s' mid =>
      cases hy
      exact .inl ⟨mid, hx, rfl⟩

/-- Two ways to cut a list where an entry that the first part does not have stands, or at its
end, are the same. -/
theorem append_inj_of_head? {x : α} {xs xs' ys ys' : List α} (h : xs ++ ys = xs' ++ ys')
    (hxs : x ∉ xs) (hxs' : x ∉ xs') (hys : ∀ y ∈ ys.head?, y = x) (hys' : ∀ y ∈ ys'.head?, y = x) :
    xs = xs' ∧ ys = ys' := by
  obtain ⟨mid, rfl, rfl⟩ | ⟨mid, rfl, rfl⟩ := List.append_eq_append_iff.mp h
  · cases mid with
    | nil => simp
    | cons y mid =>
      cases hys y rfl
      simp at hxs'
  · cases mid with
    | nil => simp
    | cons y mid =>
      cases hys' y rfl
      simp at hxs

theorem append_inj_of_map {f : α → β} {xs xs' ys ys' : List α} (hmap : xs.map f = xs'.map f)
    (h : xs ++ ys = xs' ++ ys') : xs = xs' ∧ ys = ys' := by
  have hlen : xs.length = xs'.length := by simpa using congrArg List.length hmap
  exact List.append_inj h hlen

theorem le_foldl_max (f : α → Nat) (xs : List α) (w : Nat) :
    w ≤ xs.foldl (fun w x => max w (f x)) w ∧
      ∀ x ∈ xs, f x ≤ xs.foldl (fun w x => max w (f x)) w := by
  induction xs generalizing w with
  | nil => simp
  | cons y ys ih =>
    obtain ⟨hw, hys⟩ := ih (max w (f y))
    refine ⟨Nat.le_trans (Nat.le_max_left _ _) hw, fun x hx => ?_⟩
    rcases List.mem_cons.mp hx with rfl | hx
    · exact Nat.le_trans (Nat.le_max_right _ _) hw
    · exact hys x hx

theorem eq_of_forall₂ {R : α → β → Prop} {places : List α} {ts us : List β}
    (ht : List.Forall₂ R places ts) (hu : List.Forall₂ R places us)
    (h : ∀ i ∈ places, ∀ t u, R i t → R i u → t = u) : ts = us := by
  induction ht generalizing us with
  | nil => cases hu; rfl
  | cons hhead _ ih =>
    cases hu with
    | cons hhead' htail' =>
      rw [h _ List.mem_cons_self _ _ hhead hhead',
        ih htail' fun i hi => h i (List.mem_cons_of_mem _ hi)]

theorem rel_of_isChain {R : α → α → Prop} {xs : List α} (h : xs.IsChain R) {i : Nat} {x y : α}
    (hx : xs[i]? = some x) (hy : xs[i + 1]? = some y) : R x y := by
  obtain ⟨hlt, rfl⟩ := List.getElem?_eq_some_iff.mp hy
  obtain ⟨_, rfl⟩ := List.getElem?_eq_some_iff.mp hx
  exact List.isChain_iff_getElem.mp h i hlt

theorem exists_getElem?_pred {xs : List α} {i : Nat} {y : α} (h : xs[i + 1]? = some y) :
    ∃ x, xs[i]? = some x := by
  obtain ⟨hlt, -⟩ := List.getElem?_eq_some_iff.mp h
  exact ⟨xs[i], List.getElem?_eq_getElem (Nat.lt_of_succ_lt hlt)⟩

theorem exists_first_iff {R : α → α → Prop} (hR : ∀ a b, R a b → ¬ R b a)
    {P : α → Prop} {xs : List α} (hxs : xs.Pairwise R) {x : α} (hx : ¬ P x) :
    (∃ before after, xs = before ++ x :: after ∧ ∀ y ∈ before, P y) ↔
      x ∈ xs ∧ ∀ y ∈ xs, ¬ P y → y = x ∨ R x y := by
  constructor
  · rintro ⟨before, after, rfl, hbefore⟩
    refine ⟨by simp, fun y hy hPy => ?_⟩
    obtain hy | hy := List.mem_append.mp hy
    · exact absurd (hbefore y hy) hPy
    · obtain rfl | hy := List.mem_cons.mp hy
      · exact .inl rfl
      · exact .inr ((List.pairwise_cons.mp (List.pairwise_append.mp hxs).2.1).1 y hy)
  · rintro ⟨hmem, hfirst⟩
    obtain ⟨before, after, rfl⟩ := List.append_of_mem hmem
    refine ⟨before, after, rfl, fun y hy => ?_⟩
    have hyx : R y x := (List.pairwise_append.mp hxs).2.2 y hy x List.mem_cons_self
    by_contra hPy
    obtain rfl | hxy := hfirst y (List.mem_append_left _ hy) hPy
    · exact hR y y hyx hyx
    · exact hR x y hxy hyx

section Read

variable {ε : Type} {f : α → Except ε β} {e : ε}

theorem mapM_eq_ok {xs : List α} {ys : List β} :
    xs.mapM f = .ok ys ↔ List.Forall₂ (fun x y => f x = .ok y) xs ys := by
  induction xs generalizing ys with
  | nil => simp [pure, Except.pure, eq_comm]
  | cons x xs ih =>
    rw [List.mapM_cons, List.forall₂_cons_left_iff]
    constructor
    · intro h
      cases hx : f x with
      | error e => simp [hx, bind, Except.bind] at h
      | ok y =>
        cases hxs : xs.mapM f with
        | error e => simp [hx, hxs, bind, Except.bind] at h
        | ok more =>
          rw [hx, hxs] at h
          cases h
          exact ⟨y, more, rfl, ih.mp hxs, rfl⟩
    · intro h
      obtain ⟨y, more, hx, hmore, rfl⟩ := h
      rw [hx, ih.mpr hmore]
      rfl

theorem mapM_append_eq_error {before after : List α} {x : α}
    (hbefore : ∀ y ∈ before, ∃ b, f y = .ok b) (hx : f x = .error e) :
    (before ++ x :: after).mapM f = .error e := by
  induction before with
  | nil =>
    rw [List.nil_append, List.mapM_cons, hx]
    rfl
  | cons y before ih =>
    obtain ⟨⟨b, hy⟩, hrest⟩ := List.forall_mem_cons.mp hbefore
    rw [List.cons_append, List.mapM_cons, hy, ih hrest]
    rfl

theorem exists_refused_of_mapM {xs : List α} (h : xs.mapM f = .error e) :
    ∃ before x after, xs = before ++ x :: after ∧ (∀ y ∈ before, ∃ b, f y = .ok b) ∧
      f x = .error e := by
  induction xs with
  | nil => cases h
  | cons x xs ih =>
    rw [List.mapM_cons] at h
    cases hx : f x with
    | error e' =>
      rw [hx] at h
      cases h
      exact ⟨[], x, xs, rfl, List.forall_mem_nil _, hx⟩
    | ok b =>
      cases hxs : xs.mapM f with
      | ok bs =>
        rw [hx, hxs] at h
        cases h
      | error e' =>
        rw [hx, hxs] at h
        cases h
        obtain ⟨before, y, after, rfl, hbefore, hy⟩ := ih hxs
        exact ⟨x :: before, y, after, rfl, List.forall_mem_cons.mpr ⟨⟨b, hx⟩, hbefore⟩, hy⟩

end Read

end Predictive

import Mathlib.Algebra.GroupWithZero.Nat
import Mathlib.Data.List.Perm.Subperm
import Predictive.Proofs.Automaton.Acceptance
import Predictive.Proofs.Lists

/-! A run that ends makes no more moves than `Table.moveBound`. Between two tokens the stack
changes by expansions under one lookahead, and each symbol on it remembers the
nonterminals whose unfinished expansions it stands in. A nonterminal that comes back on
top of its own expansion does so for ever; otherwise every expansion lowers the total
weight of the stack, in which a symbol weighs less the more ancestors it has. -/

namespace Predictive

namespace Table

variable {t : Table} {l : Lookahead}

def Expands (t : Table) (l : Lookahead) (stack stack' : List Symbol) : Prop :=
  ∃ n below p, stack = .nonterminal n :: below ∧ t.cell? n l = some (.production p) ∧
    stack' = p.expansion ++ below

theorem Expands.append {u v : List Symbol} (h : t.Expands l u v) (w : List Symbol) :
    t.Expands l (u ++ w) (v ++ w) := by
  obtain ⟨n, below, p, rfl, cell, rfl⟩ := h
  exact ⟨n, below ++ w, p, rfl, cell, List.append_assoc ..⟩

theorem Executes.tail_of_expands {c : Configuration} {trace : Trace}
    {rejection : Option Rejection} {v : List Symbol} (h : t.Executes none c trace rejection)
    (front : c.input.front? = some l) (he : t.Expands l c.stack.symbols v) :
    ∃ c' trace', trace = c :: trace' ∧ t.Executes none c' trace' rejection ∧
      c'.stack.symbols = v ∧ c'.input = c.input := by
  obtain ⟨n, below, p, top, cell, rfl⟩ := he
  have hmove : t.Move c ⟨c.step + 1, ⟨_, _, rfl⟩, c.input, some p⟩ :=
    .expand top front cell rfl
  obtain ⟨trace', rfl, rest⟩ := h.rest_of_moved (next_of_move hmove)
  exact ⟨_, trace', rfl, rest, rfl, rfl⟩

theorem Executes.shorter_of_expands {c : Configuration} {trace : Trace}
    {rejection : Option Rejection} {v : List Symbol} (h : t.Executes none c trace rejection)
    (front : c.input.front? = some l)
    (he : Relation.TransGen (t.Expands l) c.stack.symbols v) :
    ∃ c' trace', trace'.length < trace.length ∧ t.Executes none c' trace' rejection ∧
      c'.stack.symbols = v ∧ c'.input = c.input := by
  induction he with
  | single he =>
    obtain ⟨c', trace', rfl, h', hs, hi⟩ := h.tail_of_expands front he
    exact ⟨c', trace', Nat.lt_succ_self _, h', hs, hi⟩
  | tail _ he ih =>
    obtain ⟨c₁, trace₁, hlt, h₁, rfl, hi₁⟩ := ih
    obtain ⟨c', trace', rfl, h', hs, hi⟩ := h₁.tail_of_expands (hi₁ ▸ front) he
    exact ⟨c', trace', Nat.lt_of_succ_lt hlt, h', hs, hi.trans hi₁⟩

/-- A nonterminal that comes back on top of its own expansion under an unchanged lookahead
does so again and again, whatever lies below it. -/
theorem not_executes_of_recurrence {n : NonTerminal} {more below : List Symbol}
    (hrec : Relation.TransGen (t.Expands l) [.nonterminal n] (.nonterminal n :: more))
    {c : Configuration} (top : c.stack.symbols = .nonterminal n :: below)
    (front : c.input.front? = some l) (trace : Trace) (rejection : Option Rejection) :
    ¬ t.Executes none c trace rejection := by
  -- The recurrence leads back to the same situation, with less of the trace to come.
  induction hk : trace.length using Nat.strongRecOn generalizing c below trace with
  | ind k ih =>
    intro h
    have hgrow : Relation.TransGen (t.Expands l) c.stack.symbols
        (.nonterminal n :: (more ++ below)) := by
      rw [top]
      exact hrec.lift (· ++ below) fun _ _ he => he.append below
    obtain ⟨c', trace', hlt, h', hs, hi⟩ := h.shorter_of_expands front hgrow
    exact ih trace'.length (hk ▸ hlt) hs (hi ▸ front) trace' rfl h'

theorem mem_cells {n : NonTerminal} {cell : Cell} :
    (n, l, cell) ∈ t.cells ↔ t.cell? n l = some cell := by
  simp only [cells, cell?, row?, List.mem_flatMap, List.mem_map, Option.bind_eq_some_iff,
    SortedMap.get?_eq_some, Prod.exists]
  constructor
  · intro h
    obtain ⟨n', row, hrow, l', cell', hcell, he⟩ := h
    cases he
    exact ⟨row, hrow, hcell⟩
  · intro h
    obtain ⟨row, hrow, hcell⟩ := h
    exact ⟨n, row, hrow, l, cell, hcell, rfl⟩

theorem length_expansion_le_widest {n : NonTerminal} {p : Production}
    (h : t.cell? n l = some (.production p)) : p.expansion.length ≤ t.widest := by
  have hmem := (le_foldl_max (fun x : NonTerminal × Lookahead × Cell =>
    x.2.2.production?.elim 0 (·.expansion.length)) t.cells 0).2 _ (mem_cells.mpr h)
  exact hmem

theorem hasRow_of_cell {n : NonTerminal} {cell : Cell} (h : t.cell? n l = some cell) :
    t.hasRow n = true := by
  obtain ⟨row, hrow, -⟩ := Option.bind_eq_some_iff.mp h
  simp [hasRow, hrow]

theorem length_le_of_hasRow {ns : List NonTerminal} (hn : ns.Nodup)
    (hr : ∀ n ∈ ns, t.hasRow n = true) : ns.length ≤ t.rows.size := by
  have hsub : ns ⊆ t.rows.keys := fun n hmem => SortedMap.mem_keys.mpr (hr n hmem)
  simpa [SortedMap.keys, SortedMap.size] using (List.subperm_of_subset hn hsub).length_le

theorem movesWithin_mono (w phases : Nat) {h h' : Nat} (hh : h ≤ h') :
    movesWithin w phases h ≤ movesWithin w phases h' := by
  induction phases generalizing h h' with
  | zero => exact Nat.le_refl _
  | succ phases ih =>
    have hmul : h * w ≤ h' * w := Nat.mul_le_mul_right w hh
    have hrest := ih hmul
    simp only [movesWithin]
    omega

end Table

/-- A symbol on the stack with the nonterminals whose expansions it belongs to since the
last token was read, the latest first. -/
structure Descendant where
  symbol : Symbol
  ancestors : List NonTerminal

namespace Descendant

def fresh (s : Symbol) : Descendant := ⟨s, []⟩

def weight (t : Table) (d : Descendant) : Nat :=
  (t.widest + 1) ^ (t.rows.size - d.ancestors.length)

def total (t : Table) (ds : List Descendant) : Nat := (ds.map (weight t)).sum

theorem one_le_weight (t : Table) (d : Descendant) : 1 ≤ d.weight t :=
  Nat.one_le_pow _ _ (Nat.succ_pos _)

theorem length_le_total (t : Table) (ds : List Descendant) : ds.length ≤ total t ds := by
  induction ds with
  | nil => exact Nat.le_refl _
  | cons d ds ih =>
    have hd := one_le_weight t d
    simp only [total, List.map_cons, List.sum_cons, List.length_cons] at ih ⊢
    omega

theorem total_append (t : Table) (ds es : List Descendant) :
    total t (ds ++ es) = total t ds + total t es := by
  simp [total]

theorem total_born (t : Table) (ancestors : List NonTerminal) (symbols : List Symbol) :
    total t (symbols.map fun s => ⟨s, ancestors⟩) =
      symbols.length * (t.widest + 1) ^ (t.rows.size - ancestors.length) := by
  induction symbols with
  | nil => simp [total]
  | cons s symbols ih =>
    simp only [total, List.map_cons, List.sum_cons, List.length_cons, weight] at ih ⊢
    rw [ih, Nat.succ_mul, Nat.add_comm]

end Descendant

open Descendant (total)

/-- What the ancestors on a stack promise: they are distinct rows of the table, and each of
them has been expanded into all that lies above the symbol, and the symbol itself. -/
structure Lineage (t : Table) (l : Lookahead) (ds : List Descendant) : Prop where
  distinct : ∀ d ∈ ds, d.ancestors.Nodup
  rows : ∀ d ∈ ds, ∀ n ∈ d.ancestors, t.hasRow n = true
  descends : ∀ above d below, ds = above ++ d :: below → ∀ n ∈ d.ancestors, ∃ more,
    Relation.TransGen (t.Expands l) [.nonterminal n]
      (above.map Descendant.symbol ++ d.symbol :: more)

namespace Lineage

variable {t : Table} {l : Lookahead} {ds : List Descendant}

theorem of_fresh (symbols : List Symbol) : Lineage t l (symbols.map .fresh) where
  distinct := by simp [Descendant.fresh]
  rows := by simp [Descendant.fresh]
  descends := by
    intro above d below he n hn
    have hd : d ∈ symbols.map Descendant.fresh := he ▸ by simp
    obtain ⟨s, -, rfl⟩ := List.mem_map.mp hd
    cases hn

variable {n : NonTerminal} {ancestors : List NonTerminal} {p : Production}

theorem not_mem_of_executes (h : Lineage t l (⟨.nonterminal n, ancestors⟩ :: ds))
    {c : Configuration} {trace : Trace} {rejection : Option Rejection}
    {below : List Symbol} (top : c.stack.symbols = .nonterminal n :: below)
    (front : c.input.front? = some l) (he : t.Executes none c trace rejection) :
    n ∉ ancestors := by
  intro hn
  obtain ⟨more, hrec⟩ := h.descends [] _ ds rfl n hn
  exact Table.not_executes_of_recurrence hrec top front trace rejection he

theorem rows_cons (h : Lineage t l (⟨.nonterminal n, ancestors⟩ :: ds))
    (cell : t.cell? n l = some (.production p)) : ∀ m ∈ n :: ancestors, t.hasRow m = true := by
  intro m hm
  rcases List.mem_cons.mp hm with rfl | hm
  · exact Table.hasRow_of_cell cell
  · exact h.rows _ List.mem_cons_self m hm

theorem expands_front (cell : t.cell? n l = some (.production p)) (below : List Symbol) :
    t.Expands l (.nonterminal n :: below) (p.expansion ++ below) :=
  ⟨n, below, p, rfl, cell, rfl⟩

theorem descends_born (h : Lineage t l (⟨.nonterminal n, ancestors⟩ :: ds))
    (cell : t.cell? n l = some (.production p)) {xs ys : List Symbol} {s : Symbol}
    (hp : p.expansion = xs ++ s :: ys) : ∀ m ∈ n :: ancestors, ∃ more,
      Relation.TransGen (t.Expands l) [.nonterminal m] (xs ++ s :: more) := by
  have hstep : ∀ more, t.Expands l (.nonterminal n :: more) (xs ++ s :: (ys ++ more)) := by
    intro more
    have h := expands_front cell more
    rwa [hp, List.append_assoc, List.cons_append] at h
  intro m hm
  rcases List.mem_cons.mp hm with rfl | hm
  · exact ⟨ys ++ [], .single (hstep [])⟩
  · obtain ⟨more, hrec⟩ := h.descends [] _ ds rfl m hm
    exact ⟨ys ++ more, hrec.tail (hstep more)⟩

theorem descends_below (h : Lineage t l (⟨.nonterminal n, ancestors⟩ :: ds))
    (cell : t.cell? n l = some (.production p)) {above below : List Descendant}
    {d : Descendant} (hd : ds = above ++ d :: below) : ∀ m ∈ d.ancestors, ∃ more,
      Relation.TransGen (t.Expands l) [.nonterminal m]
        (p.expansion ++ (above.map Descendant.symbol ++ d.symbol :: more)) := by
  intro m hm
  obtain ⟨more, hrec⟩ := h.descends (_ :: above) d below (congrArg _ hd) m hm
  exact ⟨more, hrec.tail (expands_front cell _)⟩

theorem expand (h : Lineage t l (⟨.nonterminal n, ancestors⟩ :: ds))
    (cell : t.cell? n l = some (.production p)) (hn : n ∉ ancestors) :
    Lineage t l (p.expansion.map (⟨·, n :: ancestors⟩) ++ ds) where
  distinct := by
    intro d hd
    rcases List.mem_append.mp hd with hd | hd
    · obtain ⟨s, -, rfl⟩ := List.mem_map.mp hd
      exact List.nodup_cons.mpr ⟨hn, h.distinct _ List.mem_cons_self⟩
    · exact h.distinct d (List.mem_cons_of_mem _ hd)
  rows := by
    intro d hd
    rcases List.mem_append.mp hd with hd | hd
    · obtain ⟨s, -, rfl⟩ := List.mem_map.mp hd
      exact h.rows_cons cell
    · exact h.rows d (List.mem_cons_of_mem _ hd)
  descends := by
    intro above d below he m hm
    obtain ⟨mid, hborn, -⟩ | ⟨mid, rfl, hds⟩ := append_eq_append_cons he
    · obtain ⟨xs, rest, hp, rfl, hrest⟩ := List.map_eq_append_iff.mp hborn
      obtain ⟨s, ys, rfl, rfl, -⟩ := List.map_eq_cons_iff.mp hrest
      obtain ⟨more, hrec⟩ := h.descends_born cell hp m hm
      exact ⟨more, by simpa [Function.comp_def] using hrec⟩
    · obtain ⟨more, hrec⟩ := h.descends_below cell hds m hm
      exact ⟨more, by simpa [Function.comp_def] using hrec⟩

theorem total_expand_lt (h : Lineage t l (⟨.nonterminal n, ancestors⟩ :: ds))
    (cell : t.cell? n l = some (.production p)) (hn : n ∉ ancestors) :
    total t (p.expansion.map (⟨·, n :: ancestors⟩) ++ ds) <
      total t (⟨.nonterminal n, ancestors⟩ :: ds) := by
  have hlen : (n :: ancestors).length ≤ t.rows.size := by
    exact Table.length_le_of_hasRow
      (List.nodup_cons.mpr ⟨hn, h.distinct _ List.mem_cons_self⟩) (h.rows_cons cell)
  obtain ⟨k, hk⟩ := Nat.exists_eq_add_of_le hlen
  have hwide := Table.length_expansion_le_widest cell
  have hborn : total t (p.expansion.map (⟨·, n :: ancestors⟩)) ≤
      t.widest * (t.widest + 1) ^ k := by
    rw [Descendant.total_born, hk, Nat.add_sub_cancel_left]
    exact Nat.mul_le_mul_right _ hwide
  have htop : Descendant.weight t ⟨.nonterminal n, ancestors⟩ =
      (t.widest + 1) * (t.widest + 1) ^ k := by
    have hsub : t.rows.size - ancestors.length = k + 1 := by
      rw [List.length_cons] at hk
      omega
    rw [Descendant.weight, hsub, Nat.pow_succ, Nat.mul_comm]
  have hpos : 0 < (t.widest + 1) ^ k := Nat.pow_pos (Nat.succ_pos _)
  have hcons : total t (⟨.nonterminal n, ancestors⟩ :: ds) =
      Descendant.weight t ⟨.nonterminal n, ancestors⟩ + total t ds := by
    simp [total]
  rw [Descendant.total_append, hcons, htop, Nat.succ_mul]
  omega

end Lineage

namespace Table

variable {t : Table}

def spread (t : Table) : Nat := (t.widest + 1) ^ t.rows.size

theorem total_fresh (t : Table) (symbols : List Symbol) :
    total t (symbols.map .fresh) = symbols.length * t.spread :=
  Descendant.total_born t [] symbols

/-- One phase: the expansions before the next token, and what the later phases add. -/
theorem Executes.length_le_of_lineage {c : Configuration} {trace : Trace}
    {rejection : Option Rejection} (h : t.Executes none c trace rejection)
    {upper : List Symbol} {read unread : List Terminal} (hc : c.At upper read unread)
    {ds : List Descendant} (hs : c.stack.symbols = ds.map Descendant.symbol)
    (hl : Lineage t (.first unread) ds) {height : Nat} (hh : total t ds ≤ height)
    (later : ∀ a rest, unread = a :: rest → ∀ c' upper' read' trace',
      c'.At upper' read' rest → t.Executes none c' trace' rejection →
      trace'.length ≤ movesWithin t.spread (rest.length + 1) (upper'.length + 1) + 1) :
    trace.length ≤ total t ds + movesWithin t.spread unread.length height + 2 := by
  induction h generalizing upper ds with
  | accepted => simp
  | stuck => simp
  | halted _ hn => simp at hn
  | @moved c c' trace rejection hnext hn rest ih =>
    -- An expansion lowers the total by at least its own move; a match ends the phase.
    obtain ⟨n, below, p, rfl, cell, -, hat⟩ | ⟨a, below, rest', rfl, rfl, -, hat⟩ :=
      (move_of_next hc hnext).cases_at hc
    · obtain ⟨⟨_, ancestors⟩, ds, rfl, rfl, hds⟩ :=
        List.map_eq_cons_iff.mp (hs.symm.trans hc.stack)
      have hmem : n ∉ ancestors :=
        hl.not_mem_of_executes (hc.stack.trans rfl) hc.front (.moved hnext hn rest)
      have hlt := hl.total_expand_lt cell hmem
      have hstack : c'.stack.symbols =
          (p.expansion.map (Descendant.mk · (n :: ancestors)) ++ ds).map Descendant.symbol := by
        simp [hat.stack, hds, Function.comp_def]
      have hrest := ih hat hstack (hl.expand cell hmem) (by omega) later
      rw [List.length_cons]
      omega
    · have hrest := later a rest' rfl c' below _ _ hat rest
      have hlen : below.length + 1 ≤ height := by
        have hds := congrArg List.length (hs.symm.trans hc.stack)
        have htotal := Descendant.length_le_total t ds
        simp only [List.length_map, List.length_append, List.length_cons, List.length_nil] at hds
        omega
      have hmono := movesWithin_mono t.spread (rest'.length + 1) hlen
      simp only [List.length_cons]
      omega

theorem Executes.length_le_phase {c : Configuration} {trace : Trace}
    {rejection : Option Rejection} (h : t.Executes none c trace rejection)
    {upper : List Symbol} {read unread : List Terminal} (hc : c.At upper read unread)
    (later : ∀ a rest, unread = a :: rest → ∀ c' upper' read' trace',
      c'.At upper' read' rest → t.Executes none c' trace' rejection →
      trace'.length ≤ movesWithin t.spread (rest.length + 1) (upper'.length + 1) + 1) :
    trace.length ≤ movesWithin t.spread (unread.length + 1) (upper.length + 1) + 1 := by
  have hs : c.stack.symbols =
      ((upper ++ [Symbol.endMarker]).map Descendant.fresh).map Descendant.symbol := by
    simp [hc.stack, Descendant.fresh, Function.comp_def]
  have hphase := h.length_le_of_lineage hc hs (.of_fresh _) (Nat.le_refl _) later
  rw [total_fresh, List.length_append, List.length_singleton] at hphase
  rw [movesWithin]
  omega

theorem Executes.length_le_movesWithin {c : Configuration} {trace : Trace}
    {rejection : Option Rejection} (h : t.Executes none c trace rejection)
    {upper : List Symbol} {read unread : List Terminal} (hc : c.At upper read unread) :
    trace.length ≤ movesWithin t.spread (unread.length + 1) (upper.length + 1) + 1 := by
  induction unread generalizing c trace upper read with
  | nil => exact h.length_le_phase hc (by simp)
  | cons a rest ih =>
    refine h.length_le_phase hc ?_
    intro b rest' he c' upper' read' trace' hat h'
    cases he
    exact ih h' hat

theorem Executes.length_le_moveBound {start : NonTerminal} {tokens : List Terminal}
    {trace : Trace} {rejection : Option Rejection}
    (h : t.Executes none (.initial start tokens) trace rejection) :
    trace.length ≤ t.moveBound tokens + 1 :=
  h.length_le_movesWithin (Configuration.initial_at start tokens)

theorem Executes.length_le_of_limit {c : Configuration} {n : Nat} {trace : Trace}
    {rejection : Option Rejection} (h : t.Executes (some n) c trace rejection) (hc : c.step ≤ n) :
    c.step + trace.length ≤ n + 1 := by
  induction h with
  | accepted => simpa using hc
  | stuck => simpa using hc
  | halted => simpa using hc
  | @moved c c' trace rejection hnext hn rest ih =>
    have hle : c'.step ≤ n := by simpa using hn
    have hlen := ih hle
    have hs := step_of_next hnext
    rw [List.length_cons]
    omega

end Table

end Predictive

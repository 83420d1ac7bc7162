import Predictive.Stack

/-! Stacks under any history. Stacks are collected, pushed to and popped, copies of them are kept
and put back, in any order and as often as wanted. Through all of it every stack and every copy
is the plain list of its symbols from the bottom up: each operation moves that list as it would
move a list, and each question is answered by the list. The height is counted along with no look
at the symbols, and no history makes the two disagree. -/

namespace Predictive.Stack

structure Kind (σ : Type) where
  collect : List Symbol → σ
  push : σ → Symbol → σ
  pop : σ → Option Symbol × σ

/-- Stacks stand on a shelf and are named by their places. -/
inductive Operation where
  | collect (xs : List Symbol)
  | push (i : Nat) (x : Symbol)
  | pop (i : Nat)
  | snapshot (i : Nat)
  | restore (i j : Nat)

namespace Kind

variable {σ τ : Type}

/-- New stacks and copies go to the end of the shelf. A place with no stack stays empty. -/
def apply (k : Kind σ) (shelf : List σ) : Operation → List σ
  | .collect xs => shelf ++ [k.collect xs]
  | .push i x => shelf.modify i (k.push · x)
  | .pop i => shelf.modify i fun s => (k.pop s).2
  | .snapshot i => shelf ++ shelf[i]?.toList
  | .restore i j => shelf[j]?.elim shelf (shelf.set i)

def run (k : Kind σ) (history : List Operation) : List σ := history.foldl k.apply []

def handedOut (k : Kind σ) (shelf : List σ) : Operation → Option (Option Symbol)
  | .pop i => shelf[i]?.map fun s => (k.pop s).1
  | _ => none

def answers (k : Kind σ) : List σ → List Operation → List (Option Symbol)
  | _, [] => []
  | shelf, o :: history => (k.handedOut shelf o).toList ++ answers k (k.apply shelf o) history

/-- Seen through the view, stacks of the one kind move like those of the other. -/
structure SeenAs (k : Kind σ) (k' : Kind τ) (view : σ → τ) : Prop where
  collect : ∀ xs, view (k.collect xs) = k'.collect xs
  push : ∀ s x, view (k.push s x) = k'.push (view s) x
  pop : ∀ s, Prod.map id view (k.pop s) = k'.pop (view s)

theorem map_modify {view : σ → τ} {f : σ → σ} {g : τ → τ} (h : ∀ s, view (f s) = g (view s))
    (shelf : List σ) (i : Nat) : (shelf.modify i f).map view = (shelf.map view).modify i g := by
  induction shelf generalizing i with
  | nil => simp
  | cons s shelf ih =>
    cases i with
    | zero => simp [h]
    | succ i => simp [ih]

section SeenAs

variable {k : Kind σ} {k' : Kind τ} {view : σ → τ}

theorem SeenAs.map_apply (h : SeenAs k k' view) (shelf : List σ) (o : Operation) :
    (k.apply shelf o).map view = k'.apply (shelf.map view) o := by
  cases o with
  | collect xs => rw [apply, apply, List.map_append, List.map_singleton, h.collect]
  | push i x => exact map_modify (fun s => h.push s x) shelf i
  | pop i => exact map_modify (fun s => congrArg Prod.snd (h.pop s)) shelf i
  | snapshot i => rw [apply, apply, List.map_append, List.getElem?_map, Option.toList_map]
  | restore i j =>
    rw [apply, apply, List.getElem?_map]
    cases shelf[j]? with
    | none => rfl
    | some s => exact List.map_set

theorem SeenAs.map_foldl (h : SeenAs k k' view) (history : List Operation) (shelf : List σ) :
    (history.foldl k.apply shelf).map view = history.foldl k'.apply (shelf.map view) := by
  induction history generalizing shelf with
  | nil => rfl
  | cons o history ih => rw [List.foldl_cons, List.foldl_cons, ih, h.map_apply]

theorem SeenAs.map_run (h : SeenAs k k' view) (history : List Operation) :
    (k.run history).map view = k'.run history :=
  h.map_foldl history []

theorem SeenAs.handedOut_eq (h : SeenAs k k' view) (shelf : List σ) (o : Operation) :
    k.handedOut shelf o = k'.handedOut (shelf.map view) o := by
  cases o with
  | pop i =>
    rw [handedOut, handedOut, List.getElem?_map, Option.map_map]
    exact congrArg (shelf[i]?.map ·) (funext fun s => congrArg Prod.fst (h.pop s))
  | collect | push | snapshot | restore => rfl

theorem SeenAs.answers_eq (h : SeenAs k k' view) (history : List Operation) (shelf : List σ) :
    k.answers shelf history = k'.answers (shelf.map view) history := by
  induction history generalizing shelf with
  | nil => rfl
  | cons o history ih => rw [answers, answers, h.handedOut_eq, ih, h.map_apply]

end SeenAs

def linked : Kind Stack := ⟨ofList, Stack.push, Stack.pop⟩

def plain : Kind (List Symbol) :=
  ⟨id, fun xs x => xs ++ [x], fun xs => (xs.getLast?, xs.dropLast)⟩

end Kind

/-- Frames with a count beside them that nothing ties to them. It is an integer, so that taking
too much off would show. -/
structure Loose where
  frames : List Symbol
  count : Int

namespace Loose

def push (s : Loose) (x : Symbol) : Loose := ⟨x :: s.frames, s.count + 1⟩

def pop (s : Loose) : Option Symbol × Loose :=
  match s.frames with
  | [] => (none, s)
  | x :: rest => (some x, ⟨rest, s.count - 1⟩)

def collect (xs : List Symbol) : Loose := xs.foldl push ⟨[], 0⟩

end Loose

def Kind.loose : Kind Loose := ⟨Loose.collect, Loose.push, Loose.pop⟩

def loosen (s : Stack) : Loose := ⟨s.symbols, s.height⟩

theorem loosen_push (s : Stack) (x : Symbol) : (s.push x).loosen = s.loosen.push x := rfl

theorem loosen_pop (s : Stack) : Prod.map id loosen s.pop = s.loosen.pop := by
  obtain ⟨_ | ⟨x, rest⟩, height, hheight⟩ := s
  · rfl
  · have hpos : 1 ≤ height := by
      rw [hheight]
      exact Nat.succ_pos _
    exact congrArg (fun count => (some x, Loose.mk rest count)) (Int.ofNat_sub hpos)

theorem loosen_foldl_push (xs : List Symbol) (s : Stack) :
    (xs.foldl Stack.push s).loosen = xs.foldl Loose.push s.loosen := by
  induction xs generalizing s with
  | nil => rfl
  | cons x xs ih => rw [List.foldl_cons, List.foldl_cons, ih, loosen_push]

theorem toList_pop (s : Stack) : s.pop.2.toList = s.toList.dropLast := by
  rw [toList, symbols_pop, toList, List.dropLast_reverse]

theorem top?_eq_getLast? (s : Stack) : s.top? = s.toList.getLast? := by
  rw [top?, toList, List.getLast?_reverse]

theorem pop_fst_eq_getLast? (s : Stack) : s.pop.1 = s.toList.getLast? :=
  s.pop_fst.trans s.top?_eq_getLast?

theorem map_pop (s : Stack) :
    Prod.map id toList s.pop = (s.toList.getLast?, s.toList.dropLast) :=
  Prod.ext s.pop_fst_eq_getLast? s.toList_pop

theorem toList_pop_append_fst (s : Stack) : s.pop.2.toList ++ s.pop.1.toList = s.toList := by
  rw [toList, symbols_pop, pop_fst, top?, toList]
  cases s.symbols with
  | nil => rfl
  | cons x rest => exact List.reverse_cons.symm

theorem Kind.linked_seenAs_plain : SeenAs linked plain toList where
  collect := toList_ofList
  push := toList_push
  pop := map_pop

theorem Kind.linked_seenAs_loose : SeenAs linked loose loosen where
  collect xs := loosen_foldl_push xs empty
  push := loosen_push
  pop := loosen_pop

structure ListLike (s : Stack) : Prop where
  frames : s.height = s.symbols.length
  height : s.height = s.toList.length
  isEmpty : s.isEmpty = true ↔ s.toList = []
  top? : s.top? = s.toList.getLast?
  popped : s.pop.1 = s.toList.getLast?
  pop : s.pop.2.toList = s.toList.dropLast
  pop_append : s.pop.2.toList ++ s.pop.1.toList = s.toList
  pop_empty : s.toList = [] → s.pop = (none, s)
  get? : ∀ i, s.get? i = s.toList[i]?
  /-- The place that is looked up is counted with no underflow. -/
  place : ∀ i < s.height, ((s.height - 1 - i : Nat) : Int) = s.height - 1 - i
  symbols : s.symbols = s.toList.reverse
  ofList : ofList s.toList = s

theorem listLike (s : Stack) : s.ListLike where
  frames := s.height_eq
  height := s.length_toList.symm
  isEmpty := by rw [Stack.isEmpty, beq_iff_eq, ← length_toList, List.length_eq_zero_iff]
  top? := s.top?_eq_getLast?
  popped := s.pop_fst_eq_getLast?
  pop := s.toList_pop
  pop_append := s.toList_pop_append_fst
  pop_empty h := by
    have hfst : s.pop.1 = none := by rw [pop_fst_eq_getLast?, h, List.getLast?_nil]
    have hsnd : s.pop.2 = s := toList_injective (by rw [toList_pop, h, List.dropLast_nil])
    exact Prod.ext hfst hsnd
  get? := s.get?_eq_toList
  place i hi := by omega
  symbols := (List.reverse_reverse _).symm
  ofList := s.ofList_toList

/-- Comparing two stacks takes their heights first and then their symbols from the top. -/
theorem beq_eq (a b : Stack) :
    (a == b) = (a.height == b.height && a.symbols == b.symbols) := by
  rw [Bool.eq_iff_iff, Bool.and_eq_true, beq_iff_eq, beq_iff_eq, beq_iff_eq]
  exact ⟨fun h => h ▸ ⟨rfl, rfl⟩, fun h => ext h.2⟩

theorem beq_iff_toList (a b : Stack) : (a == b) = true ↔ a.toList = b.toList := by
  rw [beq_iff_eq]
  exact ⟨congrArg toList, toList_injective⟩

/-- After any history the shelf holds the lists that the same history makes of plain lists, its
pops have handed out what they hand out, the heights are the numbers of frames that are linked,
and every stack, copy or not, answers as its list does. -/
theorem histories_plain (history : List Operation) :
    (Kind.linked.run history).map toList = Kind.plain.run history ∧
    Kind.linked.answers [] history = Kind.plain.answers [] history ∧
    (Kind.linked.run history).map loosen = Kind.loose.run history ∧
    (∀ s ∈ Kind.loose.run history, s.count = s.frames.length) ∧
    (∀ s ∈ Kind.linked.run history, s.ListLike) ∧
    ∀ a ∈ Kind.linked.run history, ∀ b ∈ Kind.linked.run history,
      (a == b) = (a.height == b.height && a.symbols == b.symbols) ∧
      ((a == b) = true ↔ a.toList = b.toList) := by
  have hloose := Kind.linked_seenAs_loose.map_run history
  refine ⟨Kind.linked_seenAs_plain.map_run history, Kind.linked_seenAs_plain.answers_eq history [],
    hloose, ?_, fun s _ => s.listLike, fun a _ b _ => ⟨beq_eq a b, beq_iff_toList a b⟩⟩
  rw [← hloose]
  refine List.forall_mem_map.mpr fun s _ => ?_
  exact congrArg Nat.cast s.height_eq

/-- A copy stays what it was while the stack that it was taken from goes on, also after that
stack is put back to it. -/
example : (Kind.linked.run [.collect [.endMarker, .epsilon], .snapshot 0, .pop 0, .pop 0, .pop 0,
    .snapshot 0, .restore 0 1, .push 0 .epsilon]).map toList =
      [[.endMarker, .epsilon, .epsilon], [.endMarker, .epsilon], []] := by
  rfl

end Predictive.Stack

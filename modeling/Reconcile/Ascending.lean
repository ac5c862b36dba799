/-! Strictly ascending lists stand for finite sets of ordered things. A list is brought into this
form by merging: runs wait in places, one run to a place and each twice as long as the last, and two
runs that meet in a place make one for the next. -/

namespace Reconcile

variable {α : Type} [LT α] [DecidableLT α] [DecidableEq α]

/-- Merge `x`, which leads an ascending list, into another one. `rest` merges what follows `x`. -/
def mergeFrom (x : α) (rest : List α → List α) : List α → List α
  | [] => x :: rest []
  | y :: ys =>
    if x = y then x :: rest ys
    else if x < y then x :: rest (y :: ys)
    else y :: mergeFrom x rest ys

def mergeAscending : List α → List α → List α
  | [], ys => ys
  | x :: xs, ys => mergeFrom x (mergeAscending xs) ys

/-- Put a run into the first place that is free, together with all runs that wait before it. A place
is free if it holds the empty run. -/
def carry (run : List α) : List (List α) → List (List α)
  | [] => [run]
  | [] :: places => run :: places
  | waiting :: places => [] :: carry (mergeAscending waiting run) places

/-- The distinct members of a list, least first. -/
def ascending (l : List α) : List α :=
  (l.foldl (fun places a => carry [a] places) []).foldr mergeAscending []

theorem mem_mergeFrom {x a : α} {rest : List α → List α} {xs : List α}
    (h : ∀ ys, a ∈ rest ys ↔ a ∈ xs ∨ a ∈ ys) (ys : List α) :
    a ∈ mergeFrom x rest ys ↔ a ∈ x :: xs ∨ a ∈ ys := by
  induction ys with
  | nil => simp [mergeFrom, h]
  | cons y ys ih =>
    simp only [mergeFrom]
    split
    · subst x
      by_cases hy : a = y <;> simp [h, hy]
    · split
      · simp [h, or_assoc]
      · rw [List.mem_cons, ih, List.mem_cons, List.mem_cons, or_left_comm]

@[simp] theorem mem_mergeAscending {a : α} {xs ys : List α} :
    a ∈ mergeAscending xs ys ↔ a ∈ xs ∨ a ∈ ys := by
  induction xs generalizing ys with
  | nil => simp [mergeAscending]
  | cons x xs ih => exact mem_mergeFrom (fun _ => ih) ys

theorem mem_flatten_carry {a : α} (run : List α) (places : List (List α)) :
    a ∈ (carry run places).flatten ↔ a ∈ run ∨ a ∈ places.flatten := by
  fun_induction carry run places with
  | case1 => simp
  | case2 => simp
  | case3 run waiting places _ ih =>
    rw [List.flatten_cons, List.nil_append, ih, mem_mergeAscending, List.flatten_cons,
      List.mem_append, or_assoc, or_left_comm]

theorem mem_foldl_carry {a : α} (l : List α) (places : List (List α)) :
    a ∈ (l.foldl (fun places b => carry [b] places) places).flatten ↔
      a ∈ places.flatten ∨ a ∈ l := by
  induction l generalizing places with
  | nil => simp
  | cons b rest ih =>
    rw [List.foldl_cons, ih, mem_flatten_carry, List.mem_singleton, List.mem_cons, or_assoc,
      or_left_comm]

theorem mem_foldr_mergeAscending {a : α} (runs : List (List α)) :
    a ∈ runs.foldr mergeAscending [] ↔ a ∈ runs.flatten := by
  induction runs with
  | nil => simp
  | cons run runs ih => simp [ih]

@[simp] theorem mem_ascending {a : α} {l : List α} : a ∈ ascending l ↔ a ∈ l := by
  rw [ascending, mem_foldr_mergeAscending, mem_foldl_carry]
  simp

end Reconcile

/-! A finite map over ordered keys, kept as a search tree. Reading and writing take the same way
through the tree, so what is read after a write does not depend on the order of the keys; the order
only keeps the way short. The tree is not balanced, because digests, which it is meant for, fall on
both sides of any other digest alike. -/

namespace Reconcile

/-- Keyed values in a search tree. A key that was taken out keeps its place without a value. -/
inductive Catalog (κ α : Type)
  | empty
  | node (left : Catalog κ α) (key : κ) (value : Option α) (right : Catalog κ α)
deriving Repr, DecidableEq

namespace Catalog

variable {κ α : Type}

instance : Inhabited (Catalog κ α) := ⟨empty⟩

/-- Go through all that is held, the greatest key first. -/
def foldr {β : Type} (f : κ → α → β → β) : Catalog κ α → β → β
  | empty, b => b
  | node left _ none right, b => left.foldr f (right.foldr f b)
  | node left key (some v) right, b => left.foldr f (f key v (right.foldr f b))

def size (t : Catalog κ α) : Nat := t.foldr (fun _ _ n => n + 1) 0

def entries (t : Catalog κ α) : List (κ × α) := t.foldr (fun k v rest => (k, v) :: rest) []

theorem mem_foldr_cons (t : Catalog κ α) {e : κ × α} {rest : List (κ × α)} (h : e ∈ rest) :
    e ∈ t.foldr (fun k v rest => (k, v) :: rest) rest := by
  induction t generalizing rest with
  | empty => exact h
  | node left key value right ihl ihr =>
    cases value with
    | none => exact ihl (ihr h)
    | some v => exact ihl (List.mem_cons_of_mem _ (ihr h))

variable [LT κ] [DecidableLT κ] [DecidableEq κ]

def get? (t : Catalog κ α) (k : κ) : Option α :=
  match t with
  | empty => none
  | node left key value right =>
    if k = key then value else if k < key then left.get? k else right.get? k

def contains (t : Catalog κ α) (k : κ) : Bool := (t.get? k).isSome

def insert (t : Catalog κ α) (k : κ) (v : α) : Catalog κ α :=
  match t with
  | empty => node empty k (some v) empty
  | node left key value right =>
    if k = key then node left key (some v) right
    else if k < key then node (left.insert k v) key value right
    else node left key value (right.insert k v)

def erase (t : Catalog κ α) (k : κ) : Catalog κ α :=
  match t with
  | empty => empty
  | node left key value right =>
    if k = key then node left key none right
    else if k < key then node (left.erase k) key value right
    else node left key value (right.erase k)

/-- Put everything into `t` that another catalog holds. A key goes in before those below it, so the
way to them is no longer than it was. -/
def union (t : Catalog κ α) : Catalog κ α → Catalog κ α
  | empty => t
  | node left _ none right => (t.union left).union right
  | node left key (some v) right => ((t.insert key v).union left).union right

@[simp] theorem get?_empty (k : κ) : (empty : Catalog κ α).get? k = none := rfl

@[simp] theorem get?_insert (t : Catalog κ α) (k k' : κ) (v : α) :
    (t.insert k v).get? k' = if k = k' then some v else t.get? k' := by
  induction t with
  | empty => by_cases h : k = k' <;> simp [insert, get?, h, eq_comm]
  | node left key value right ihl ihr =>
    by_cases hk : k = key
    · subst hk
      by_cases h : k = k'
      · simp [insert, get?, h]
      · simp [insert, get?, h, Ne.symm h]
    · by_cases h : k = k'
      · subst h
        by_cases hlt : k < key <;> simp [insert, get?, hk, hlt, ihl, ihr]
      · by_cases hlt : k < key <;> simp [insert, get?, hk, hlt, ihl, ihr, h]

@[simp] theorem get?_erase (t : Catalog κ α) (k k' : κ) :
    (t.erase k).get? k' = if k = k' then none else t.get? k' := by
  induction t with
  | empty => simp [erase, get?]
  | node left key value right ihl ihr =>
    by_cases hk : k = key
    · subst hk
      by_cases h : k = k'
      · simp [erase, get?, h]
      · simp [erase, get?, h, Ne.symm h]
    · by_cases h : k = k'
      · subst h
        by_cases hlt : k < key <;> simp [erase, get?, hk, hlt, ihl, ihr]
      · by_cases hlt : k < key <;> simp [erase, get?, hk, hlt, ihl, ihr, h]

theorem insert_get? (t : Catalog κ α) (k : κ) (v : α) (h : t.get? k = some v) :
    t.insert k v = t := by
  induction t with
  | empty => cases h
  | node left key value right ihl ihr =>
    simp only [get?] at h
    simp only [insert]
    split
    · simp_all
    · split <;> simp_all

theorem mem_entries_of_get? {t : Catalog κ α} {k : κ} {v : α} (h : t.get? k = some v) :
    (k, v) ∈ t.entries := by
  unfold entries
  generalize [] = rest
  induction t generalizing rest with
  | empty => cases h
  | node left key value right ihl ihr =>
    simp only [get?] at h
    split at h
    · rename_i hk
      subst hk h
      exact mem_foldr_cons left List.mem_cons_self
    · split at h
      · cases value with
        | none => exact ihl h _
        | some w => exact ihl h _
      · cases value with
        | none => exact mem_foldr_cons left (ihr h rest)
        | some w => exact mem_foldr_cons left (List.mem_cons_of_mem _ (ihr h rest))

end Catalog

end Reconcile

/-! A finite table of keyed values. A key keeps the place of its first insertion, so writing back
what a key already holds leaves the table as it was. -/

namespace Reconcile

/-- Keyed values in the order in which their keys were first inserted. -/
structure Table (κ α : Type) where
  entries : List (κ × α) := []
deriving Repr, DecidableEq

namespace Table

variable {κ α : Type} [DecidableEq κ]

def empty : Table κ α := ⟨[]⟩

instance : Inhabited (Table κ α) := ⟨empty⟩

def size (t : Table κ α) : Nat := t.entries.length

def keys (t : Table κ α) : List κ := t.entries.map Prod.fst

def values (t : Table κ α) : List α := t.entries.map Prod.snd

def find (k : κ) : List (κ × α) → Option α
  | [] => none
  | (k', v) :: rest => if k' = k then some v else find k rest

def put (k : κ) (v : α) : List (κ × α) → List (κ × α)
  | [] => [(k, v)]
  | (k', v') :: rest => if k' = k then (k', v) :: rest else (k', v') :: put k v rest

def get? (t : Table κ α) (k : κ) : Option α := find k t.entries

def contains (t : Table κ α) (k : κ) : Bool := (t.get? k).isSome

def insert (t : Table κ α) (k : κ) (v : α) : Table κ α := ⟨put k v t.entries⟩

def erase (t : Table κ α) (k : κ) : Table κ α := ⟨t.entries.filter (fun e => e.1 ≠ k)⟩

theorem find_put (k k' : κ) (v : α) (l : List (κ × α)) :
    find k' (put k v l) = if k = k' then some v else find k' l := by
  induction l with
  | nil => simp [put, find]
  | cons e rest ih =>
    obtain ⟨key, value⟩ := e
    by_cases h : key = k
    · subst h
      by_cases hk : key = k' <;> simp [put, find, hk]
    · by_cases hk : key = k'
      · subst hk
        simp [put, find, h, Ne.symm h]
      · simp [put, find, h, hk, ih]

@[simp] theorem get?_insert (t : Table κ α) (k k' : κ) (v : α) :
    (t.insert k v).get? k' = if k = k' then some v else t.get? k' :=
  find_put k k' v t.entries

@[simp] theorem get?_empty (k : κ) : (empty : Table κ α).get? k = none := rfl

theorem put_find (k : κ) (v : α) (l : List (κ × α)) (h : find k l = some v) :
    put k v l = l := by
  induction l with
  | nil => simp [find] at h
  | cons e rest ih =>
    obtain ⟨key, value⟩ := e
    by_cases he : key = k <;> simp_all [put, find]

theorem find_filter_ne (k k' : κ) (l : List (κ × α)) :
    find k' (l.filter (fun e => e.1 ≠ k)) = if k = k' then none else find k' l := by
  induction l with
  | nil => simp [find]
  | cons e rest ih =>
    obtain ⟨key, value⟩ := e
    by_cases h : key = k
    · subst h
      by_cases hk : key = k' <;> simp_all [find]
    · by_cases hk : key = k'
      · subst hk
        simp [find, h, Ne.symm h]
      · simp_all [find]

@[simp] theorem get?_erase (t : Table κ α) (k k' : κ) :
    (t.erase k).get? k' = if k = k' then none else t.get? k' :=
  find_filter_ne k k' t.entries

theorem mem_of_find {k : κ} {v : α} {l : List (κ × α)} (h : find k l = some v) : (k, v) ∈ l := by
  induction l with
  | nil => simp [find] at h
  | cons e rest ih =>
    obtain ⟨key, value⟩ := e
    by_cases he : key = k <;> simp_all [find]

theorem size_erase_lt {t : Table κ α} {k : κ} {v : α} (h : t.get? k = some v) :
    (t.erase k).size < t.size := by
  apply List.length_filter_lt_length_iff_exists.mpr
  exact ⟨(k, v), mem_of_find h, by simp⟩

theorem insert_get? (t : Table κ α) (k : κ) (v : α) (h : t.get? k = some v) :
    t.insert k v = t := by
  rw [insert, put_find k v t.entries h]

end Table

end Reconcile

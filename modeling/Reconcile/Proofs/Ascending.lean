import Mathlib.Data.List.Sort
import Reconcile.Ascending

/-! # Ascending lists are in strict order

Merging keeps two runs in strict order, so every run that waits in a place is in strict order too. -/

namespace Reconcile

variable {α : Type} [LinearOrder α]

theorem pairwise_mergeFrom {x : α} {xs : List α} {rest : List α → List α}
    (hmem : ∀ a ys, a ∈ rest ys ↔ a ∈ xs ∨ a ∈ ys)
    (hrest : ∀ ys, ys.Pairwise (· < ·) → (rest ys).Pairwise (· < ·))
    (hx : ∀ a ∈ xs, x < a) (ys : List α) (hys : ys.Pairwise (· < ·)) :
    (mergeFrom x rest ys).Pairwise (· < ·) := by
  induction ys with
  | nil =>
      refine List.pairwise_cons.mpr ⟨?_, hrest [] hys⟩
      intro a ha
      rcases (hmem a []).mp ha with ha | ha
      · exact hx a ha
      · cases ha
  | cons y ys ih =>
      obtain ⟨hy, hys'⟩ := List.pairwise_cons.mp hys
      rw [mergeFrom]
      split
      · subst x
        refine List.pairwise_cons.mpr ⟨?_, hrest ys hys'⟩
        intro a ha
        rcases (hmem a ys).mp ha with ha | ha
        · exact hx a ha
        · exact hy a ha
      · rename_i hne
        split
        · rename_i hlt
          refine List.pairwise_cons.mpr ⟨?_, hrest (y :: ys) hys⟩
          intro a ha
          rcases (hmem a (y :: ys)).mp ha with ha | ha
          · exact hx a ha
          · rcases List.mem_cons.mp ha with rfl | ha
            · exact hlt
            · exact lt_trans hlt (hy a ha)
        · rename_i hnlt
          have hyx : y < x := lt_of_le_of_ne (not_lt.mp hnlt) (Ne.symm hne)
          refine List.pairwise_cons.mpr ⟨?_, ih hys'⟩
          intro a ha
          rcases (mem_mergeFrom (fun ys => hmem a ys) ys).mp ha with ha | ha
          · rcases List.mem_cons.mp ha with rfl | ha
            · exact hyx
            · exact lt_trans hyx (hx a ha)
          · exact hy a ha

theorem pairwise_mergeAscending {xs ys : List α} (hxs : xs.Pairwise (· < ·))
    (hys : ys.Pairwise (· < ·)) : (mergeAscending xs ys).Pairwise (· < ·) := by
  induction xs generalizing ys with
  | nil => exact hys
  | cons x xs ih =>
      obtain ⟨hx, hxs'⟩ := List.pairwise_cons.mp hxs
      exact pairwise_mergeFrom (fun a ys => mem_mergeAscending) (fun ys => ih hxs') hx ys hys

theorem pairwise_of_mem_carry {run : List α} {places : List (List α)}
    (hrun : run.Pairwise (· < ·)) (hplaces : ∀ p ∈ places, p.Pairwise (· < ·)) :
    ∀ p ∈ carry run places, p.Pairwise (· < ·) := by
  fun_induction carry run places with
  | case1 run => simpa using hrun
  | case2 run places =>
      intro p hp
      rcases List.mem_cons.mp hp with rfl | hp
      · exact hrun
      · exact hplaces p (List.mem_cons_of_mem _ hp)
  | case3 run waiting places _ ih =>
      intro p hp
      rcases List.mem_cons.mp hp with rfl | hp
      · exact List.Pairwise.nil
      · have hwaiting := hplaces waiting List.mem_cons_self
        exact ih (pairwise_mergeAscending hwaiting hrun)
          (fun q hq => hplaces q (List.mem_cons_of_mem _ hq)) p hp

theorem pairwise_of_mem_foldl_carry (l : List α) (places : List (List α))
    (hplaces : ∀ p ∈ places, p.Pairwise (· < ·)) :
    ∀ p ∈ l.foldl (fun places b => carry [b] places) places, p.Pairwise (· < ·) := by
  induction l generalizing places with
  | nil => exact hplaces
  | cons b rest ih =>
      exact ih (carry [b] places) (pairwise_of_mem_carry (List.pairwise_singleton _ b) hplaces)

theorem pairwise_foldr_mergeAscending (runs : List (List α))
    (hruns : ∀ p ∈ runs, p.Pairwise (· < ·)) :
    (runs.foldr mergeAscending []).Pairwise (· < ·) := by
  induction runs with
  | nil => exact List.Pairwise.nil
  | cons run runs ih =>
      exact pairwise_mergeAscending (hruns run List.mem_cons_self)
        (ih (fun p hp => hruns p (List.mem_cons_of_mem _ hp)))

/-- The members of `ascending l` are in strict order. -/
theorem pairwise_ascending (l : List α) : (ascending l).Pairwise (· < ·) :=
  pairwise_foldr_mergeAscending _ (pairwise_of_mem_foldl_carry l [] (by simp))

/-! ## Lists in strict order -/

theorem eq_of_mem_iff {xs ys : List α} (hxs : xs.Pairwise (· < ·)) (hys : ys.Pairwise (· < ·))
    (h : ∀ a, a ∈ xs ↔ a ∈ ys) : xs = ys := by
  have hperm : xs.Perm ys :=
    (List.perm_ext_iff_of_nodup (hxs.imp ne_of_lt) (hys.imp ne_of_lt)).mpr h
  exact hperm.eq_of_pairwise (fun a b _ _ hab hba => absurd hba (lt_asymm hab)) hxs hys

theorem ascending_eq_self {l : List α} (h : l.Pairwise (· < ·)) : ascending l = l :=
  eq_of_mem_iff (pairwise_ascending l) h (fun _ => mem_ascending)

theorem length_ascending_le (l : List α) : (ascending l).length ≤ l.length := by
  have hnodup : (ascending l).Nodup := (pairwise_ascending l).imp ne_of_lt
  exact (List.subperm_of_subset hnodup (fun _ ha => mem_ascending.mp ha)).length_le

end Reconcile

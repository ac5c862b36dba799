import Mathlib.Order.Basic
import Reconcile.Name

/-! # Names are linearly ordered

The order of names is that of words over words of bytes. -/

namespace Reconcile.Name

theorem le_iff_components (a b : Name) : a ≤ b ↔ a.components ≤ b.components := Iff.rfl

instance : LinearOrder Name where
  le_refl a := List.le_refl a.components
  le_trans a b c hab hbc := by
    have h : a.components ≤ c.components :=
      List.le_trans ((le_iff_components a b).mp hab) ((le_iff_components b c).mp hbc)
    exact (le_iff_components a c).mpr h
  le_antisymm a b hab hba := by
    have h : a.components = b.components :=
      List.le_antisymm ((le_iff_components a b).mp hab) ((le_iff_components b a).mp hba)
    cases a
    cases b
    exact congrArg Name.mk h
  le_total a b := List.le_total a.components b.components
  lt_iff_le_not_ge a b := by
    constructor
    · intro h
      exact ⟨List.le_of_lt h, fun hba => hba h⟩
    · rintro ⟨-, h⟩
      exact Decidable.not_not.mp h
  toDecidableLE := inferInstance
  toDecidableEq := inferInstance
  toDecidableLT := inferInstance

end Reconcile.Name

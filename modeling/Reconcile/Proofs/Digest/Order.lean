import Mathlib.Order.Basic
import Reconcile.Digest

/-! # Digests are linearly ordered

The order of digests is that of their bytes, a byte string coming before its extensions. -/

namespace Reconcile.Digest

instance : LE Digest := ⟨fun a b => ¬ b < a⟩

instance : DecidableLE Digest := fun a b => inferInstanceAs (Decidable (¬ b < a))

theorem le_iff_bytes (a b : Digest) : a ≤ b ↔ a.bytes ≤ b.bytes := Iff.rfl

instance : LinearOrder Digest where
  le_refl a := List.le_refl a.bytes
  le_trans a b c hab hbc := by
    have h : a.bytes ≤ c.bytes :=
      List.le_trans ((le_iff_bytes a b).mp hab) ((le_iff_bytes b c).mp hbc)
    exact (le_iff_bytes a c).mpr h
  le_antisymm a b hab hba := by
    have h : a.bytes = b.bytes :=
      List.le_antisymm ((le_iff_bytes a b).mp hab) ((le_iff_bytes b a).mp hba)
    cases a
    cases b
    exact congrArg Digest.mk h
  le_total a b := List.le_total a.bytes b.bytes
  lt_iff_le_not_ge a b := by
    constructor
    · intro h
      exact ⟨List.le_of_lt h, fun hba => hba h⟩
    · rintro ⟨-, h⟩
      exact Decidable.not_not.mp h
  toDecidableLE := inferInstance
  toDecidableEq := inferInstance
  toDecidableLT := inferInstance

end Reconcile.Digest

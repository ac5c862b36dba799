import Reconcile.Proofs.History

/-! # No name is missed

Whatever the history, a digest that counts as known and the baseline hide no name: each name below
them lies below the baseline that the history started from, or was found. So a root that is passed
over because it is known or because it is the baseline brings no name that was not found. -/

namespace Reconcile

variable {H : Hashing}

/-- A name lies below a baseline. -/
def Held (H : Hashing) (baseline : Option Digest) (a : Name) : Prop :=
  ∃ d ∈ baseline, ∃ l, HonestTree H d l ∧ a ∈ l

theorem mem_heldNames (inj : Function.Injective H) {baseline : Option Digest} {a : Name} :
    a ∈ heldNames H baseline ↔ Held H baseline a := by
  cases baseline with
  | none => simp [Held]
  | some d =>
      constructor
      · intro ha
        have hd : Honest H d := by
          by_contra hd
          rw [heldNames_some, namesBelow, dif_neg hd] at ha
          cases ha
        exact ⟨d, rfl, namesBelow H d, hd.tree inj, ha⟩
      · rintro ⟨e, he, l, hl, ha⟩
        obtain rfl : d = e := Option.some.inj he
        rw [heldNames_some, hl.namesBelow_eq inj]
        exact ha

namespace Reconciler

/-- A reconciler that starts from honest trees stays in order in every honest history. -/
theorem orderly_after (inj : Function.Injective H) {c : Cache} (hgenuine : c.Genuine H)
    (hknown : ∀ d, c.known d = false) {start : Origin} (hstart : ∀ d, start = .root d → Honest H d)
    (firstName : Option Name) {es : List Event} (hes : ∀ e ∈ es, e.Honest H) :
    (after H (create c start firstName) es).Orderly H
      (Held H (startBaseline H (create c start firstName) es)) := by
  have hheld : ∀ d ∈ startBaseline H (create c start firstName) es, ∀ a ∈ namesBelow H d,
      Held H (startBaseline H (create c start firstName) es) a := by
    intro d hd a ha
    rw [← mem_heldNames inj, Option.mem_def.mp hd]
    exact ha
  refine Orderly.after inj (orderly_create hgenuine hknown start firstName ?_) hes (fun _ => hheld)
  intro d hd
  cases start with
  | empty => cases hd
  | current => cases hd
  | root e =>
      obtain rfl : e = d := Option.some.inj hd
      refine ⟨hstart e rfl, hheld e ?_⟩
      rw [startBaseline_of_awaits_false rfl]
      rfl

/-- Every name below a digest that is known in full, and every name below the baseline, lies below
the baseline that the history started from or was found. -/
theorem covered_names_accounted (inj : Function.Injective H) {c : Cache} (hgenuine : c.Genuine H)
    (hknown : ∀ d, c.known d = false) {start : Origin} (hstart : ∀ d, start = .root d → Honest H d)
    (firstName : Option Name) {es : List Event} (hes : ∀ e ∈ es, e.Honest H) {d : Digest}
    (hd : (after H (create c start firstName) es).cache.known d = true ∨
      (after H (create c start firstName) es).baseline = some d) :
    ∃ l, HonestTree H d l ∧ ∀ a ∈ l,
      Held H (startBaseline H (create c start firstName) es) a ∨
        a ∈ (after H (create c start firstName) es).journal.recorded := by
  have horderly := orderly_after inj hgenuine hknown hstart firstName hes
  obtain ⟨hhonest, haccounted⟩ := hd.elim (horderly.known d) (horderly.baseline d)
  exact ⟨namesBelow H d, hhonest.tree inj, haccounted⟩

open Sample in
/-- When the tree `{1, 2, 3}` was compared with the baseline `{1, 3}`, its branch `{1, 2}` is known. -/
theorem covered_names_accounted_wider :
    ∃ l, HonestTree Digest.mk (root branching) l ∧ ∀ a ∈ l,
      Held Digest.mk (startBaseline Digest.mk (comparing (flat [1, 3])) widening) a ∨
        a ∈ (after Digest.mk (comparing (flat [1, 3])) widening).journal.recorded := by
  have hstart : ∀ d, Origin.root (root (flat [1, 3])) = .root d → Honest Digest.mk d := by
    intro d hd
    obtain rfl := Origin.root.inj hd
    exact ⟨_, honestTree_flat [1, 3]⟩
  have hhonest : ∀ e ∈ widening, e.Honest Digest.mk := by
    have hroot : Honest Digest.mk (root wider) := ⟨_, honestTree_wider⟩
    simp [widening, stepping, fetched, Event.Honest, hroot]
  have hknown : (after Digest.mk (comparing (flat [1, 3])) widening).cache.known (root branching) =
      true := by decide +kernel
  unfold comparing at hknown ⊢
  exact covered_names_accounted injective_mk (Cache.genuine_ofAttempts 3)
    (Cache.known_ofAttempts 3) hstart none hhonest (.inl hknown)

end Reconciler

end Reconcile

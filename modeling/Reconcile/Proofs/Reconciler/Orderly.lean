import Reconcile.Proofs.Reconciler.Change
import Reconcile.Proofs.Traversal.Underway

/-! # Reconcilers in order

What holds of a reconciler between any two steps. Names that satisfy `S` are those that are known from
the start; every other name that the reconciler counts as known was found. -/

namespace Reconcile.Reconciler

open Traversal

variable {H : Hashing} {S S' : Name → Prop} {r r' : Reconciler}

/-- Bytes that are the root of an honest tree, if they are a node at all. -/
def HonestBody (H : Hashing) (bytes : Bytes) : Prop :=
  ∀ n, Denotes H (H bytes) n → Honest H (H bytes)

/-- A name is known from the start or was found. -/
def Accounted (S : Name → Prop) (r : Reconciler) (a : Name) : Prop := S a ∨ a ∈ r.journal.recorded

/-- An honest tree of which every name is accounted for. -/
def Settles (H : Hashing) (S : Name → Prop) (r : Reconciler) (d : Digest) : Prop :=
  Honest H d ∧ ∀ a ∈ namesBelow H d, r.Accounted S a

/-- The reconciler is in order. -/
structure Orderly (H : Hashing) (S : Name → Prop) (r : Reconciler) : Prop where
  genuine : r.cache.Genuine H
  known : ∀ d, r.cache.known d = true → r.Settles H S d
  baseline : ∀ d ∈ r.baseline, r.Settles H S d
  extra : ∀ n ∈ r.extra, ∀ a ∈ n.leaves, a ∈ r.journal.recorded
  recorded : ∀ a ∈ r.recorded, a ∈ r.journal.recorded
  roots : ∀ d ∈ r.queue.roots, Honest H d
  bodies : ∀ bytes ∈ r.queue.bodies, HonestBody H bytes
  awaiting : r.awaitsBaseline = true → r.baseline = none ∧ r.round = none
  phase : r.round = none ↔ r.phase = .choosing ∨ r.phase = .done
  active : r.queue.active = r.round
  resting : r.round = none → r.recorded = []
  honest : ∀ y ∈ r.round, Honest H y
  round : ∀ y ∈ r.round,
    Underway H (heldNames H r.baseline) (r.Accounted S) r.recorded y r.traversal

theorem Accounted.of_log {a : Name} (h : r.Accounted S a)
    (hlog : ∀ a ∈ r.journal.recorded, a ∈ r'.journal.recorded) : r'.Accounted S a :=
  h.imp_right (hlog a)

theorem Settles.of_log {d : Digest} (h : r.Settles H S d)
    (hlog : ∀ a ∈ r.journal.recorded, a ∈ r'.journal.recorded) : r'.Settles H S d :=
  ⟨h.1, fun a ha => (h.2 a ha).of_log hlog⟩

namespace Orderly

theorem baseline_honest (h : r.Orderly H S) : ∀ d ∈ r.baseline, Honest H d :=
  fun d hd => (h.baseline d hd).1

/-- Order depends on the ledger, the genuine nodes and the traversal only. -/
theorem fetches (h : r.Orderly H S) (hf : Fetches H r r') : r'.Orderly H S := by
  have hlog : ∀ a ∈ r.journal.recorded, a ∈ r'.journal.recorded := fun a ha => hf.log ▸ ha
  have haccounted : r'.Accounted S = r.Accounted S := by
    funext a
    rw [Accounted, Accounted, hf.log]
  refine ⟨hf.keeps.genuine h.genuine, ?_, ?_, ?_, ?_, ?_, ?_, ?_, ?_, ?_, ?_, ?_, ?_⟩
  · intro d hd
    exact (h.known d (hf.known ▸ hd)).of_log hlog
  · intro d hd
    exact (h.baseline d (hf.baseline ▸ hd)).of_log hlog
  · rw [hf.extra, hf.log]
    exact h.extra
  · rw [hf.recorded, hf.log]
    exact h.recorded
  · rw [hf.queue]
    exact h.roots
  · rw [hf.queue]
    exact h.bodies
  · rw [hf.awaitsBaseline, hf.baseline, hf.round]
    exact h.awaiting
  · rw [hf.round, hf.phase]
    exact h.phase
  · rw [hf.queue, hf.round]
    exact h.active
  · rw [hf.round, hf.recorded]
    exact h.resting
  · rw [hf.round]
    exact h.honest
  · rw [hf.round, hf.baseline, hf.recorded, hf.traversal, haccounted]
    exact h.round

/-- Names known from the start may be added. -/
theorem mono (h : r.Orderly H S) (hS : ∀ a, S a → S' a) : r.Orderly H S' := by
  have haccounted : ∀ a, r.Accounted S a → r.Accounted S' a := fun a => Or.imp_left (hS a)
  refine { h with known := ?_, baseline := ?_, round := ?_ }
  · intro d hd
    exact ⟨(h.known d hd).1, fun a ha => haccounted a ((h.known d hd).2 a ha)⟩
  · intro d hd
    exact ⟨(h.baseline d hd).1, fun a ha => haccounted a ((h.baseline d hd).2 a ha)⟩
  · intro y hy
    have hunderway := h.round y hy
    exact hunderway.passes (p := []) (q := []) ⟨.refl _ _, .refl _ _, rfl, by simp⟩ haccounted
      (by simp) (fun _ => .inl)

/-- The traversal moves on, and trees whose names are accounted for may be marked as known. -/
theorem walks (h : r.Orderly H S) {y : Digest} (hround : r.round = some y) {w : Traversal}
    {c : Cache} (hw : Underway H (heldNames H r.baseline) (r.Accounted S) r.recorded y w)
    (hgenuine : c.Genuine H)
    (hknown : ∀ d, c.known d = true → r.cache.known d = true ∨ r.Settles H S d) :
    Orderly H S { r with traversal := w, cache := c } := by
  refine { h with genuine := hgenuine, known := ?_, round := ?_ }
  · intro d hd
    rcases hknown d hd with hd | hd
    · exact h.known d hd
    · exact hd
  · intro z hz
    obtain rfl : y = z := Option.some.inj (hround.symm.trans hz)
    exact hw

end Orderly

/-- A step from one state in order to another. What was known in full stays so. -/
structure Evolves (H : Hashing) (S : Name → Prop) (r r' : Reconciler) : Prop where
  orderly : r'.Orderly H S
  change : Change H r.cache.known r.ledger r'.ledger
  known : ∀ d, r.cache.known d = true → r'.cache.known d = true

theorem Evolves.of_fetches {r'' : Reconciler} (hf : Fetches H r r') (h : r'.Evolves H S r'') :
    r.Evolves H S r'' := by
  obtain ⟨orderly, change, known⟩ := h
  rw [hf.known] at known change
  exact ⟨orderly, hf.ledger ▸ change, known⟩

theorem Evolves.of_fetches_right {r'' : Reconciler} (h : r.Evolves H S r')
    (hf : Fetches H r' r'') : r.Evolves H S r'' := by
  refine ⟨h.orderly.fetches hf, hf.ledger ▸ h.change, ?_⟩
  intro d hd
  rw [hf.known]
  exact h.known d hd

theorem evolves_of_fetches (h : r.Orderly H S) (hf : Fetches H r r') : r.Evolves H S r' := by
  refine ⟨h.fetches hf, ?_, ?_⟩
  · rw [hf.ledger]
    exact change_refl r.ledger
  · intro d hd
    rw [hf.known]
    exact hd

end Reconcile.Reconciler

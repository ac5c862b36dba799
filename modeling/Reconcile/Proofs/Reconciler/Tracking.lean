import Reconcile.Proofs.Reconciler.Regular
import Reconcile.Proofs.Traversal.Refusal

/-! # A round keeps its traversal on its way

Whatever the trees are like and whatever befalls a reconciler, each side of a round in progress goes
along the row of its tree: through pauses, branches that are put aside and taken up again, and fresh
starts of the current side. -/

namespace Reconcile.Reconciler

open Traversal

variable {H : Hashing} {agent : Agent} {r r' : Reconciler} {y : Digest}

/-- A step that goes on keeps both sides on their way. -/
theorem onTrack_onward (inj : Function.Injective H) (hr : r.cache.Genuine H)
    (h : r.traversal.OnTrack H r.baseline y) (goes : Onward H agent r r') :
    r'.traversal.OnTrack H r.baseline y := by
  cases goes with
  | resumed next mem consults found => exact h.restart mem
  | passedKnown next unresolved known =>
      refine h.changeNext ?_
      rw [next]
      exact fun e halong => halong.leave
  | openedNext next unresolved found =>
      have hn := denotes_of_look hr found
      refine h.changeNext ?_
      rw [next]
      exact fun e halong => halong.resolve inj unresolved hn
  | putAside next above unresolved found consults => exact h.putAside next
  | leftNext next resolved isThrough =>
      refine h.changeNext ?_
      rw [next]
      exact fun e halong => halong.leave
  | openedCurrent current unresolved found =>
      have hn := denotes_of_look hr found
      exact h.changeCurrent current (fun e halong => halong.resolve inj unresolved hn)
  | leftCurrent current resolved isThrough =>
      exact h.changeCurrent current (fun e halong => halong.leave)
  | acted plan planned meets =>
      rw [traversal_effect]
      exact h.perform planned

/-- The traversal of a round in progress is on its way. -/
structure Tracks (H : Hashing) (r : Reconciler) : Prop extends r.Regular H where
  round : ∀ y ∈ r.round, r.traversal.OnTrack H r.baseline y

theorem tracks_create {c : Cache} (hgenuine : c.Genuine H) (start : Origin)
    (firstName : Option Name) : (create c start firstName).Tracks H where
  toRegular := regular_create hgenuine start firstName
  round _ hy := nomatch hy

theorem Turns.onTrack (inj : Function.Injective H) (h : r.Tracks H) (ht : Turns H r r') :
    ∀ y ∈ r'.round, r'.traversal.OnTrack H r'.baseline y := by
  cases ht with
  | stays same =>
      rw [same.round, same.traversal, same.baseline]
      exact h.round
  | chose round =>
      intro y hy
      rw [((turned_choose h.genuine round).opens hy).traversal]
      exact onTrack_begin _ _
  | went round goes =>
      rw [goes.continues.round, goes.continues.baseline]
      exact fun y hy => onTrack_onward inj h.genuine (h.round y hy) goes
  | closed round next aside =>
      intro y hy
      simp only [closeRound, round] at hy
      cases hy
  | gaveUp round abandons =>
      obtain ⟨r₁, -, rfl⟩ := abandons.fetches
      intro y hy
      cases hy

theorem Tracks.on (inj : Function.Injective H) (h : r.Tracks H) (e : Event) :
    (r.on H e).Tracks H where
  toRegular := h.toRegular.on e
  round := (h.turns e).onTrack inj h

end Reconcile.Reconciler

import Reconcile.Proofs.History.Ascent
import Reconcile.Proofs.Reconciler.Pacing
import Reconcile.Proofs.Traversal.Descent

/-! # No position is ever lost

Over any trees and in any history, both sides of the traversal are one way down, the current one from
the baseline, and nothing is left of them between two rounds. So no item is passed that is not there,
and a traversal never blames itself: what it may find fault with is a name of a tree. -/

namespace Reconcile

namespace Reconciler

open Traversal

variable {H : Hashing} {agent : Agent} {r r' : Reconciler} {outcome : Option Outcome}
  {stride : Stride}

/-- The sides of the traversal are one way down, and there are none without a round. -/
structure Placed (r : Reconciler) : Prop where
  phase : r.round = none ↔ r.phase = .choosing ∨ r.phase = .done
  resting : r.round = none → r.traversal = {}
  descends : r.traversal.SidesDescend r.baseline

theorem placed_resting (hround : r.round = none) (hphase : r.phase = .choosing ∨ r.phase = .done)
    (htraversal : r.traversal = {}) : r.Placed := by
  refine ⟨iff_of_true hround hphase, fun _ => htraversal, ?_⟩
  rw [htraversal]
  exact ⟨Stack.descends_nil, Stack.descends_nil, fun d hd => nomatch hd⟩

/-- What the round is and where it stands is as it was. -/
structure Stands (r r' : Reconciler) : Prop where
  traversal : r'.traversal = r.traversal
  round : r'.round = r.round
  phase : r'.phase = r.phase
  baseline : r'.baseline = r.baseline

theorem Stands.refl (r : Reconciler) : Stands r r := ⟨rfl, rfl, rfl, rfl⟩

theorem Consults.stands {P : Digest → Prop} (h : Consults H agent P r r') : Stands r r' :=
  ⟨h.fetches.traversal, h.fetches.round, h.fetches.phase, h.fetches.baseline⟩

theorem Placed.stands (h : r.Placed) (hs : Stands r r') : r'.Placed := by
  obtain ⟨htraversal, hround, hphase, hbaseline⟩ := hs
  refine ⟨?_, ?_, ?_⟩
  · rw [hround, hphase]
    exact h.phase
  · rw [hround, htraversal]
    exact h.resting
  · rw [htraversal, hbaseline]
    exact h.descends

theorem Stands.altered (hs : Stands r r') : Altered r.traversal r'.traversal := by
  rw [hs.traversal]
  exact .refl _

/-! ## A step of the traversal -/

/-- The sides change only in the few ways. -/
theorem Onward.altered (h : r.traversal.SidesDescend r.baseline) (goes : Onward H agent r r') :
    Altered r.traversal r'.traversal := by
  cases goes with
  | resumed next mem consults found => exact altered_restart _ _ _
  | passedKnown next unresolved known => exact ⟨next ▸ .left _ _, .stays _⟩
  | @openedNext f fs n next unresolved found =>
      have hstart := h.next.start f (next ▸ List.mem_cons_self) unresolved
      exact ⟨next ▸ .resolved _ unresolved (hstart ▸ Nat.zero_le _), .stays _⟩
  | @putAside r' f fs givenUp next above unresolved found consults =>
      refine ⟨?_, .stays _⟩
      rw [next_putAside next, next]
      exact .putAside f fs
  | leftNext next resolved isThrough => exact ⟨next ▸ .left _ _, .stays _⟩
  | @openedCurrent g gs n current unresolved found =>
      have hstart := h.current.start g (current ▸ List.mem_cons_self) unresolved
      exact ⟨.stays _, current ▸ .resolved _ unresolved (hstart ▸ Nat.zero_le _)⟩
  | leftCurrent current resolved isThrough => exact ⟨.stays _, current ▸ .left _ _⟩
  | acted plan planned =>
      rw [traversal_effect]
      exact planned.altered

/-- The current side still starts at the baseline. -/
theorem Onward.outermost_current (h : r.traversal.SidesDescend r.baseline)
    (goes : Onward H agent r r') : ∀ d ∈ Stack.outermost r'.traversal.current, d ∈ r.baseline := by
  intro d hd
  cases goes with
  | resumed next mem consults found =>
      exact (outermost_begin r.baseline d) ▸ hd
  | passedKnown next unresolved known => exact h.baseline d hd
  | openedNext next unresolved found => exact h.baseline d hd
  | putAside next above unresolved found consults => exact h.baseline d hd
  | leftNext next resolved isThrough => exact h.baseline d hd
  | @openedCurrent g gs n current unresolved found =>
      have hsame : Stack.outermost (g.resolve n :: gs) = Stack.outermost (g :: gs) := rfl
      exact h.baseline d (current ▸ hsame ▸ hd)
  | leftCurrent current resolved isThrough => exact h.baseline d (current ▸ Stack.outermost_leave hd)
  | acted plan planned =>
      rw [traversal_effect] at hd
      exact h.baseline d (planned.outermost_current hd)

/-- What a step of the traversal finds fault with is a name. -/
theorem stride_fault {e : Fault} (h : (r.stride H agent).2 = .fault e) :
    ∃ side name, e = .outsideRange side name ∨ e = .notAscending side name := by
  have hs := strode_stride (H := H) agent r
  rw [h] at hs
  generalize (r.stride H agent).1 = r' at hs
  have hrefused : ∀ {side frames last}, Refused side frames last e →
      ∃ side name, e = .outsideRange side name ∨ e = .notAscending side name := by
    rintro side frames last ⟨f, fs, n, a, -, -, hcheck⟩
    rcases checkName_eq_error hcheck with ⟨-, he⟩ | ⟨-, -, he⟩
    · exact ⟨side, a, .inl he⟩
    · exact ⟨side, a, .inr he⟩
  cases hs with
  | faulted plan meets =>
      rcases refused_of_plan meets (congrArg Prod.snd plan) with hnext | ⟨-, hcurrent⟩
      · exact hrefused hnext
      · exact hrefused hcurrent

/-! ## Any step, and any event -/

/-- Choosing a root begins a traversal or leaves it as it was. -/
theorem traversal_choose (r : Reconciler) :
    (r.choose H).round = r.round ∧ (r.choose H).phase = .done ∧
        (r.choose H).traversal = r.traversal ∨
      ∃ y, (r.choose H).round = some y ∧ (r.choose H).phase = .loading ∧
        (r.choose H).traversal = .begin (r.choose H).baseline y := by
  obtain ⟨cache, awaits, baseline, queue, -, -, hchoose | ⟨best, hchoose⟩⟩ := choose_eq (H := H) r
  · rw [hchoose]
    exact .inl ⟨rfl, rfl, rfl⟩
  · rw [hchoose]
    exact .inr ⟨best, rfl, rfl, rfl⟩

/-- An event alters the sides in one of the ways and keeps them in place. -/
structure Follows (r r' : Reconciler) : Prop where
  placed : r'.Placed
  altered : Altered r.traversal r'.traversal

theorem Placed.choose (h : r.Placed) (hphase : r.phase = .choosing) :
    Follows r (r.choose H) := by
  have hround : r.round = none := h.phase.mpr (.inl hphase)
  rcases traversal_choose (H := H) r with ⟨hround', hphase', hsame⟩ | ⟨y, hround', hphase', hbegin⟩
  · refine ⟨placed_resting (hround'.trans hround) (.inr hphase') (hsame.trans (h.resting hround)), ?_⟩
    rw [hsame]
    exact .refl _
  · have haltered : Altered r.traversal (r.choose H).traversal := hbegin ▸ altered_begin _ _ y
    refine ⟨⟨?_, ?_, h.descends.of_altered haltered ?_⟩, haltered⟩
    · rw [hround', hphase']
      simp
    · rw [hround']
      intro hnone
      cases hnone
    · intro d hd
      rw [hbegin, outermost_begin] at hd
      exact hd

theorem Placed.follows (h : r.Placed) (hs : Stands r r') : Follows r r' :=
  ⟨h.stands hs, hs.altered⟩

theorem Placed.closeRound (h : r.Placed) (hphase : r.phase = .comparing) :
    Follows r (r.closeRound H) := by
  unfold Reconciler.closeRound
  split
  · rename_i hround
    rcases h.phase.mp hround with hr | hr <;> cases hr.symm.trans hphase
  · exact ⟨placed_resting rfl (.inr rfl) rfl, altered_clear _⟩

theorem follows_abandonRound (r₀ r : Reconciler) : Follows r₀ (r.abandonRound H) :=
  ⟨placed_resting rfl (.inl rfl) rfl, altered_clear _⟩

/-- A step of a pass. -/
theorem Placed.paced (h : r.Placed) (hr : Paced H agent r r' outcome) : Follows r r' := by
  cases hr with
  | chose phase => exact h.choose phase
  | @loaded r' phase loaded =>
      obtain ⟨P, hconsults⟩ := loaded.consults
      have hplaced := h.stands hconsults.stands
      refine ⟨{ hplaced with phase := ?_ }, hconsults.stands.altered⟩
      rw [hplaced.phase, hconsults.stands.phase, phase]
      simp
  | waits phase consults => exact h.follows consults.stands
  | went phase goes =>
      have hcontinues := goes.continues
      have haltered := goes.altered h.descends
      refine ⟨⟨?_, ?_, h.descends.of_altered haltered ?_⟩, haltered⟩
      · rw [hcontinues.round, hcontinues.phase]
        exact h.phase
      · intro hround
        have hround := hcontinues.round.symm.trans hround
        rcases h.phase.mp hround with hr | hr <;> cases hr.symm.trans phase
      · rw [hcontinues.baseline]
        exact goes.outermost_current h.descends
  | closed phase next aside => exact h.closeRound phase
  | halted halts idle =>
      obtain ⟨P, hconsults⟩ := halts.consults
      exact h.follows hconsults.stands
  | gaveUp halts work => exact follows_abandonRound r _
  | faulted phase plan meets => exact follows_abandonRound r _
  | woke phase work =>
      refine ⟨{ h with phase := iff_of_true (h.phase.mpr (.inr phase)) (.inl rfl) }, .refl _⟩
  | rested phase idle => exact h.follows (.refl r)

/-- Any event. -/
theorem Placed.on (h : r.Placed) (e : Event) : Follows r (r.on H e) := by
  cases e with
  | announce d =>
      simp only [Reconciler.on, announce]
      split <;> exact h.follows ⟨rfl, rfl, rfl, rfl⟩
  | handIn bytes => exact h.follows ⟨rfl, rfl, rfl, rfl⟩
  | complete d result => exact h.follows ⟨rfl, rfl, rfl, rfl⟩
  | call => exact h.follows ⟨rfl, rfl, rfl, rfl⟩
  | step agent => exact h.paced (paced_step agent r)

/-! ## Histories -/

theorem placed_create (c : Cache) (start : Origin) (firstName : Option Name) :
    (create c start firstName).Placed := placed_resting rfl (.inl rfl) rfl

theorem Placed.after (h : r.Placed) (es : List Event) : (after H r es).Placed :=
  after_induction h (fun _ e _ h => (h.on e).placed)

/-- Whatever trees and bytes come, both sides are one way down, the current one from the baseline,
with nothing left of them when there is no round. Every event alters a side in one of the few ways,
passing an item only where there is one, and what a step finds fault with is a name of a tree. -/
theorem sides_descend (H : Hashing) (c : Cache) (start : Origin) (firstName : Option Name)
    (es : List Event) :
    (after H (create c start firstName) es).traversal.SidesDescend
        (after H (create c start firstName) es).baseline ∧
      ((after H (create c start firstName) es).round = none →
        (after H (create c start firstName) es).traversal = {}) ∧
      (∀ e, Altered (after H (create c start firstName) es).traversal
        (after H (create c start firstName) (es ++ [e])).traversal) ∧
      ∀ agent e, ((after H (create c start firstName) es).stride H agent).2 = .fault e →
        ∃ side name, e = .outsideRange side name ∨ e = .notAscending side name := by
  have hplaced := (placed_create c start firstName).after (H := H) es
  refine ⟨hplaced.descends, hplaced.resting, ?_, ?_⟩
  · intro e
    rw [after_concat]
    exact (hplaced.on e).altered
  · intro agent e hfault
    exact stride_fault hfault

end Reconciler

namespace Sample

/-- A root with a branch is walked beside a flat baseline, up to where the branch is entered. -/
def descending : List Event :=
  [.announce (root branching), .call] ++ stepping 2 ++ [fetched branching] ++ stepping 1 ++
    [fetched (flat [3]), fetched (flat [2])] ++ stepping 6

end Sample

namespace Reconciler

open Sample in
/-- In the branch, the next side stands in two nodes and the current one in the baseline. -/
theorem sides_descend_branching :
    (after Digest.mk (comparing (flat [3])) descending).traversal.next.length = 2 ∧
      (after Digest.mk (comparing (flat [3])) descending).traversal.current.length = 1 ∧
      (after Digest.mk (comparing (flat [3])) descending).traversal.SidesDescend
        (after Digest.mk (comparing (flat [3])) descending).baseline :=
  ⟨by decide +kernel, by decide +kernel,
    (sides_descend Digest.mk (.ofAttempts 3) (.root (root (flat [3]))) none descending).1⟩

end Reconciler

end Reconcile

import Reconcile.Proofs.History.Ascent
import Reconcile.Proofs.Reconciler.Attending
import Reconcile.Proofs.Traversal.Effort

/-! # What a step of the traversal tells, and where it leads

A step that goes on finds one name at most, puts a branch aside only if its node was not to be had,
and makes the effort that is left smaller. -/

namespace Reconcile

namespace Traversal

/-- The digests of the positions in the next tree. -/
def path (w : Traversal) : List Digest := w.next.map Frame.digest

theorem path_perform (w : Traversal) (m : Move) :
    path (w.perform m) = path w ∨ ∃ d, path (w.perform m) = d :: path w := by
  have hnext : ∀ w : Traversal, path w.advanceNext = path w := by
    intro w
    unfold path advanceNext
    split
    · rfl
    · rename_i f fs h
      rw [h]
      rfl
  have hcurrent : ∀ w : Traversal, path w.advanceCurrent = path w := by
    intro w
    rw [path, next_advanceCurrent, path]
  cases m with
  | record => exact .inl (hnext w)
  | skipNext => exact .inl (hnext w)
  | skipCurrent => exact .inl (hcurrent w)
  | skipBoth => exact .inl ((hnext _).trans (hcurrent w))
  | share d => exact .inl ((hnext _).trans (hcurrent w))
  | enterNext d => exact .inr ⟨d, congrArg (d :: ·) (hnext w)⟩
  | enterCurrent d => exact .inl (hcurrent w)
  | enterBoth d e => exact .inr ⟨e, congrArg (e :: ·) ((hnext _).trans (hcurrent w))⟩
  | leaveCurrent => exact .inl rfl

end Traversal

namespace Reconciler

open Traversal

variable {H : Hashing} {agent : Agent} {P : Digest → Prop} {r r' r'' : Reconciler}

/-! ## What a step tells -/

/-- What others see of a step: it tells nothing, or finds the name `a` at the position of the next
tree. -/
inductive Tells (r r' : Reconciler) : Prop
  | nothing (log : r'.journal.recorded = r.journal.recorded)
      (delivered : r'.journal.delivered = r.journal.delivered) (firstName : r'.firstName = r.firstName)
      (faults : r'.tally.faults = r.tally.faults)
  | finds {f : Frame} {fs : List Frame} {n : Node} {a : Name} (next : r.traversal.next = f :: fs)
      (position : f.At n (.leaf a)) (log : r'.journal.recorded = r.journal.recorded ++ [a])
      (delivered : r.firstName = none → r'.firstName = none ∧
        r'.journal.delivered = r.journal.delivered ++ [a.parent])
      (faults : r'.tally.faults = r.tally.faults)

theorem Consults.says_nothing (h : Consults H agent P r r') :
    r'.journal.recorded = r.journal.recorded ∧ r'.journal.delivered = r.journal.delivered ∧
      r'.firstName = r.firstName ∧ r'.tally.faults = r.tally.faults := by
  obtain ⟨_, _, _, _, rfl⟩ := h.eq
  exact ⟨rfl, rfl, rfl, rfl⟩

theorem tells_same (log : r'.journal = r.journal) (firstName : r'.firstName = r.firstName)
    (tally : r'.tally = r.tally) : Tells r r' :=
  .nothing (by rw [log]) (by rw [log]) firstName (by rw [tally])

theorem tells_acted {c : Cache} {m : Move} {f : Frame} {fs : List Frame} {n : Node} {j : Item}
    (h : Planned H r.cache r.traversal m f fs n j) :
    Tells r (effect { r with cache := c, traversal := r.traversal.perform m } r.traversal m) := by
  have haffects := affects_effect { r with cache := c, traversal := r.traversal.perform m }
    r.traversal m
  generalize effect _ r.traversal m = r' at haffects ⊢
  cases haffects with
  | nothing => exact tells_same rfl rfl rfl
  | marks => exact tells_same rfl rfl rfl
  | records name handsOut =>
      obtain ⟨a, rfl, hleaf, -⟩ := h.record
      obtain rfl := Option.some.inj (hleaf.symm.trans name)
      exact .finds h.next h.position rfl handsOut rfl

theorem Strode.tells {stride : Stride} (h : Strode H agent r r' stride) : Tells r r' := by
  have hconsults : ∀ {r₁ : Reconciler} {w : Traversal}, Consults H agent r.traversal.Mentions r r₁ →
      Tells r { r₁ with traversal := w } := by
    intro r₁ w hc
    obtain ⟨log, delivered, firstName, faults⟩ := hc.says_nothing
    exact .nothing log delivered firstName faults
  cases h with
  | onward goes =>
      cases goes with
      | resumed next mem consults found => exact hconsults (consults.look _)
      | passedKnown next unresolved known => exact tells_same rfl rfl rfl
      | openedNext next unresolved found => exact tells_same rfl rfl rfl
      | putAside next above unresolved found consults =>
          exact hconsults ((Consults.look .refl _).trans consults)
      | leftNext next resolved isThrough => exact tells_same rfl rfl rfl
      | openedCurrent current unresolved found => exact tells_same rfl rfl rfl
      | leftCurrent current resolved isThrough => exact tells_same rfl rfl rfl
      | acted plan planned => exact tells_acted planned
  | through next aside => exact tells_same rfl rfl rfl
  | waiting waits =>
      exact hconsults (w := r'.traversal) (waits.consults.mono Traversal.Awaits.mentions)
  | exhausted next left consults missed => exact hconsults (w := r'.traversal) consults
  | lostRoot next unresolved missed => exact tells_same rfl rfl rfl
  | lostCurrent current unresolved missed => exact tells_same rfl rfl rfl
  | faulted plan => exact tells_same rfl rfl rfl

theorem Tells.faults_eq (h : Tells r r') : r'.tally.faults = r.tally.faults := by
  cases h with
  | nothing log delivered firstName faults => exact faults
  | finds next position log delivered faults => exact faults

/-- When no name has to come first, every name that is found is handed out. -/
theorem Tells.handsOut (h : Tells r r') (hfirst : r.firstName = none)
    (hdelivered : r.journal.delivered = r.journal.recorded.map Name.parent) :
    r'.firstName = none ∧ r'.journal.delivered = r'.journal.recorded.map Name.parent := by
  cases h with
  | nothing log delivered firstName faults =>
      rw [firstName, delivered, log]
      exact ⟨hfirst, hdelivered⟩
  | finds next position log delivered faults =>
      obtain ⟨hfirst', hdelivered'⟩ := delivered hfirst
      refine ⟨hfirst', ?_⟩
      rw [hdelivered', log, hdelivered, List.map_append, List.map_singleton]

/-! ## What a step leaves alone -/

theorem stays_effect (r : Reconciler) (w : Traversal) (m : Move) :
    (effect r w m).round = r.round ∧ (effect r w m).phase = r.phase := by
  have h := affects_effect r w m
  generalize effect r w m = r' at h ⊢
  cases h <;> exact ⟨rfl, rfl⟩

theorem Strode.stays {stride : Stride} (h : Strode H agent r r' stride) :
    r'.round = r.round ∧ r'.phase = r.phase := by
  have hfetches : ∀ {r₁ : Reconciler}, Consults H agent r.traversal.Mentions r r₁ →
      r₁.round = r.round ∧ r₁.phase = r.phase :=
    fun hc => ⟨hc.fetches.round, hc.fetches.phase⟩
  cases h with
  | onward goes =>
      cases goes with
      | @resumed r₁ d n next mem consults found => exact (hfetches (consults.look d) :)
      | passedKnown next unresolved known => exact ⟨rfl, rfl⟩
      | openedNext next unresolved found => exact ⟨rfl, rfl⟩
      | putAside next above unresolved found consults =>
          exact (hfetches ((Consults.look .refl _).trans consults) :)
      | leftNext next resolved isThrough => exact ⟨rfl, rfl⟩
      | openedCurrent current unresolved found => exact ⟨rfl, rfl⟩
      | leftCurrent current resolved isThrough => exact ⟨rfl, rfl⟩
      | acted plan planned => exact stays_effect _ _ _
  | through next aside => exact ⟨rfl, rfl⟩
  | waiting waits => exact hfetches (waits.consults.mono Traversal.Awaits.mentions)
  | exhausted next left consults missed => exact hfetches consults
  | lostRoot next unresolved missed => exact ⟨rfl, rfl⟩
  | lostCurrent current unresolved missed => exact ⟨rfl, rfl⟩
  | faulted plan => exact ⟨rfl, rfl⟩

/-- The outermost position stays until it is left, unless a branch is resumed that is there. -/
theorem Onward.getLast?_path (h : Onward H agent r r') {d : Digest}
    (hd : d ∈ (path r'.traversal).getLast?) :
    d ∈ (path r.traversal).getLast? ∨
      ∃ r₁ n, Consults H agent r.traversal.Mentions r r₁ ∧ (r₁.look H d).2 = .present n := by
  have houter : ∀ {f : Frame} {fs : List Frame}, r.traversal.next = f :: fs →
      d ∈ (fs.map Frame.digest).getLast? → d ∈ (path r.traversal).getLast? := by
    intro f fs hnext hd
    rw [path, hnext, List.map_cons, List.getLast?_cons]
    rw [Option.mem_def.mp hd]
    rfl
  cases h with
  | @resumed r₁ e n next mem consults found =>
      obtain rfl : e = d := Option.some.inj hd
      exact .inr ⟨r₁, n, consults, found⟩
  | passedKnown next unresolved known => exact .inl (houter next hd)
  | @openedNext f fs n next unresolved found =>
      have hpath : path { r.traversal with next := f.resolve n :: fs } = path r.traversal := by
        rw [path, path, next]
        rfl
      exact .inl (hpath ▸ hd)
  | @putAside r₁ f fs givenUp next above unresolved found consults =>
      have hpath : path (r.traversal.putAside f.digest) = fs.map Frame.digest := by
        rw [path, next_putAside next, List.map_map]
        rfl
      exact .inl (houter next (hpath ▸ hd))
  | @leftNext f fs n next resolved isThrough => exact .inl (houter next hd)
  | openedCurrent current unresolved found => exact .inl hd
  | leftCurrent current resolved isThrough => exact .inl hd
  | @acted c m f fs n j plan planned =>
      rw [traversal_effect] at hd
      rcases path_perform r.traversal m with hpath | ⟨e, hpath⟩
      · exact .inl (hpath ▸ hd)
      · have hne : path r.traversal ≠ [] := by simp [path, planned.next]
        have hd : d ∈ (path (r.traversal.perform m)).getLast? := hd
        rw [hpath, List.getLast?_cons, List.getLast?_eq_some_getLast hne] at hd
        rw [List.getLast?_eq_some_getLast hne]
        exact .inl hd

/-- A step puts a branch aside only if its node was not to be had. -/
theorem Onward.aside (h : Onward H agent r r') (haside : r.traversal.aside = []) :
    r'.traversal.aside = [] ∨
      ∃ d givenUp, (r.look H d).2 = .spoilt givenUp := by
  cases h with
  | resumed next mem consults found =>
      rw [haside] at mem
      cases mem
  | passedKnown next unresolved known => exact .inl haside
  | openedNext next unresolved found => exact .inl haside
  | putAside next above unresolved found consults => exact .inr ⟨_, _, found⟩
  | leftNext next resolved isThrough => exact .inl haside
  | openedCurrent current unresolved found => exact .inl haside
  | leftCurrent current resolved isThrough => exact .inl haside
  | acted plan planned =>
      rw [traversal_effect]
      exact .inl ((aside_perform _ _).trans haside)

/-! ## What is left to do -/

/-- A step that goes on leaves less to do. -/
theorem Attends.effort_lt {lost : Digest → Prop} {x y : Digest} {r₀ : Reconciler}
    (inj : Function.Injective H) (h : Attends H lost x y r₀ r) (hround : r.round = some y)
    (hx : Honest H x) (hy : Honest H y) (hs : Onward H agent r r') :
    effort H x r'.traversal < effort H x r.traversal := by
  obtain ⟨lx, hx⟩ := hx
  obtain ⟨ly, hy⟩ := hy
  obtain ⟨-, hbaseline, hcovers⟩ := h.round y hround
  have hnextTree : ∀ {f : Frame} {fs : List Frame}, r.traversal.next = f :: fs →
      ∃ l, HonestTree H f.digest l := by
    intro f fs hnext
    have hwithin := hcovers.next f (hnext ▸ List.mem_cons_self)
    exact hy.of_leads inj hwithin.leads
  have hcurrentTree : ∀ {g : Frame} {gs : List Frame}, r.traversal.current = g :: gs →
      ∃ l, HonestTree H g.digest l := by
    intro g gs hcurrent
    have hwithin := hcovers.current g (hcurrent ▸ List.mem_cons_self)
    exact hx.of_leads inj hwithin.leads
  have hleave : ∀ {f : Frame} {fs : List Frame}, r.traversal.next = f :: fs →
      effort H x { r.traversal with next := fs } < effort H x r.traversal := by
    intro f fs hnext
    obtain ⟨l, hl⟩ := hnextTree hnext
    refine effort_lt_of_next rfl rfl ?_
    rw [hnext]
    exact stackCost_leave inj hl
  cases hs with
  | resumed next mem consults found =>
      rw [hbaseline]
      exact effort_restart next mem
  | passedKnown next unresolved known => exact hleave next
  | @openedNext f fs n next unresolved found =>
      obtain ⟨l, hl⟩ := hnextTree next
      refine effort_lt_of_next rfl rfl ?_
      rw [next]
      exact stackCost_resolve inj hl unresolved (denotes_of_look h.genuine found)
  | putAside next above unresolved found consults => exact effort_putAside next above unresolved
  | leftNext next resolved isThrough => exact hleave next
  | @openedCurrent g gs n current unresolved found =>
      obtain ⟨l, hl⟩ := hcurrentTree current
      refine effort_lt_of_current rfl rfl ?_
      rw [current]
      exact stackCost_resolve inj hl unresolved (denotes_of_look h.genuine found)
  | leftCurrent current resolved isThrough =>
      obtain ⟨l, hl⟩ := hcurrentTree current
      refine effort_lt_of_current rfl rfl ?_
      rw [current]
      exact stackCost_leave inj hl
  | acted plan planned =>
      rw [traversal_effect]
      exact effort_perform inj hx hcovers planned

end Reconciler

end Reconcile

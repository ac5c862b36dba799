import Reconcile.Proofs.History.SingleRound
import Reconcile.Proofs.Reconciler.Attending

/-! # Trees whose nodes state their ranges loosely

A node may state a range that is wider than its names. Then an end of the range that is no name is
taken for one: a name of the next tree that is equal to it is passed over. That is the only way in
which a round that is through can miss a name, whatever else is wrong with the two trees. -/

namespace Reconcile

namespace Reconciler

variable {H : Hashing} {lost : Digest → Prop} {x y : Digest} {r₀ r : Reconciler}

/-- A reconciler between two rounds that knows nothing but its baseline. -/
structure Fresh (H : Hashing) (x : Digest) (r : Reconciler) : Prop where
  genuine : r.cache.Genuine H
  unknown : ∀ d, r.cache.known d = false
  baseline : r.baseline = some x
  extra : r.extra = none
  recorded : r.recorded = []
  roots : r.queue.roots = []
  bodies : r.queue.bodies = []
  awaits : r.awaitsBaseline = false
  round : r.round = none
  phase : r.phase = .choosing ∨ r.phase = .done

theorem Fresh.attends (h : r.Fresh H x) : Attends H lost x y r r where
  genuine := h.genuine
  known d hd := nomatch (h.unknown d).symm.trans hd
  grows := le_refl _
  extra n hn := nomatch h.extra.symm.trans hn
  recorded a ha := by simp [h.recorded] at ha
  roots d hd := by simp [h.roots] at hd
  bodies bytes hbytes := by simp [h.bodies] at hbytes
  awaits := h.awaits
  phase := iff_of_true h.round h.phase
  round d hd := nomatch h.round.symm.trans hd
  baseline := .inl ⟨h.baseline, rfl⟩

theorem fresh_create {c : Cache} (hgenuine : c.Genuine H) (hknown : ∀ d, c.known d = false)
    (x : Digest) (firstName : Option Name) : (create c (.root x) firstName).Fresh H x :=
  ⟨hgenuine, hknown, rfl, rfl, rfl, rfl, rfl, rfl, rfl, .inl rfl⟩

theorem Attends.announces (h : Attends H lost x y r₀ r) {e : Event} (he : Announces H y e) :
    Attends H lost x y r₀ (r.on H e) := by
  cases he with
  | digest =>
      simp only [on, announce]
      split
      · exact h
      · refine { h with roots := ?_ }
        intro d hd
        rcases List.mem_append.mp hd with hd | hd
        · exact h.roots d hd
        · exact List.mem_singleton.mp hd
  | @body bytes hbytes =>
      refine { h with bodies := ?_ }
      intro b hb
      rcases List.mem_append.mp hb with hb | hb
      · exact h.bodies b hb
      · exact List.mem_singleton.mp hb ▸ hbytes

/-- Over trees none of whose nodes are lost, every event keeps a reconciler attending. -/
theorem Attends.on (inj : Function.Injective H) (h : Attends H (fun _ => False) x y r₀ r) {e : Event}
    (he : e.announces = true → Announces H y e) :
    Attends H (fun _ => False) x y r₀ (r.on H e) := by
  cases e with
  | announce d => exact h.announces (he rfl)
  | handIn bytes => exact h.announces (he rfl)
  | complete d result => exact h.fetches (fetches_complete r d result)
  | call => exact h.fetches ⟨.refl _, rfl, rfl⟩
  | step agent => exact attends_step inj h (fun _ _ => id) (fun _ _ _ => id) agent

theorem Attends.after (inj : Function.Injective H) (h : Attends H (fun _ => False) x y r₀ r)
    {es : List Event} (hes : ∀ e ∈ es, e.announces = true → Announces H y e) :
    Attends H (fun _ => False) x y r₀ (after H r es) := by
  induction es generalizing r with
  | nil => exact h
  | cons e es ih =>
      exact ih (h.on inj (hes e List.mem_cons_self))
        (fun e he => hes e (List.mem_cons_of_mem _ he))

/-- When a round of `y` beside the baseline `x` is through, each name of `y` that is not in `x` was
found, or is an end of the range that is stated by a node which `x` refers to. Nothing is asked of the
nodes of either tree. -/
theorem unfound_name_bounds (inj : Function.Injective H) {P Q : Node → (Digest → List Name) → Prop}
    {lx ly : List Name} (hx : Tree H P x lx) (hy : Tree H Q y ly) (hr : r.Fresh H x)
    {es : List Event} (hes : ∀ e ∈ es, e.announces = true → Announces H y e)
    (hthrough : r.tally.completed < (after H r es).tally.completed) {a : Name} (ha : a ∈ ly)
    (hnew : a ∉ lx) : a ∈ foundSince r (after H r es) ∨ Bounds H x a := by
  have hattends : Attends H (fun _ => False) x y r (after H r es) :=
    Attends.after inj hr.attends hes
  rcases hattends.baseline with ⟨-, hcount⟩ | ⟨-, hfinishes⟩
  · rw [hcount] at hthrough
    exact absurd hthrough (lt_irrefl _)
  · rcases hfinishes (.leaf a) ((hy.mem_iff inj).mp ha) with hfound | hheld | hbounds
    · exact .inl hfound
    · exact absurd ((hx.mem_iff inj).mpr hheld) hnew
    · exact .inr hbounds

end Reconciler

namespace Sample

/-- A node that lists only the name `2`, but states a range that starts at `1`. -/
def loose : Node where
  items := [.leaf (name 2)]
  least := name 1
  greatest := name 2
  count := 1

def aboveLoose : Node where
  items := [.ref (root loose)]
  least := name 1
  greatest := name 2
  count := 1

/-- The name `1` beside the same branch. -/
def besideLoose : Node where
  items := [.leaf (name 1), .ref (root loose)]
  least := name 1
  greatest := name 2
  count := 2

theorem tree_loose : Tree Digest.mk (fun _ _ => True) (root loose) [name 2] :=
  @Tree.node _ _ _ _ (fun _ => []) (denotes_digest Digest.mk loose) (fun _ he => nomatch he) trivial

theorem tree_aboveLoose : Tree Digest.mk (fun _ _ => True) (root aboveLoose) [name 2] :=
  @Tree.node _ _ _ _ (fun _ => [name 2]) (denotes_digest Digest.mk aboveLoose)
    (fun _ he => List.mem_singleton.mp he ▸ tree_loose) trivial

theorem tree_besideLoose : Tree Digest.mk (fun _ _ => True) (root besideLoose) [name 1, name 2] :=
  @Tree.node _ _ _ _ (fun _ => [name 2]) (denotes_digest Digest.mk besideLoose)
    (fun _ he => List.mem_singleton.mp he ▸ tree_loose) trivial

/-- All nodes are fetched before the two trees are compared. -/
def loosely : List Event :=
  [.announce (root besideLoose), fetched loose, fetched aboveLoose, fetched besideLoose, .call] ++
    stepping 12

end Sample

namespace Reconciler

open Sample in
/-- The round that compares the two trees is through and misses the name `1`, which is the least name
that the branch states. -/
theorem unfound_name_bounds_loose :
    0 < (after Digest.mk (comparing aboveLoose) loosely).tally.completed ∧
      name 1 ∉ foundSince (comparing aboveLoose) (after Digest.mk (comparing aboveLoose) loosely) ∧
      (name 1 ∈ foundSince (comparing aboveLoose)
          (after Digest.mk (comparing aboveLoose) loosely) ∨
        Bounds Digest.mk (root aboveLoose) (name 1)) := by
  have hthrough : 0 < (after Digest.mk (comparing aboveLoose) loosely).tally.completed := by
    decide +kernel
  have hmissed : name 1 ∉ foundSince (comparing aboveLoose)
      (after Digest.mk (comparing aboveLoose) loosely) := by
    decide +kernel
  refine ⟨hthrough, hmissed, unfound_name_bounds injective_mk tree_aboveLoose tree_besideLoose
    (fresh_create (Cache.genuine_ofAttempts 3) (Cache.known_ofAttempts 3) _ none) ?_ hthrough
    (by decide) (by decide)⟩
  intro e he hannounces
  simp only [loosely, fetched, stepping, List.cons_append, List.nil_append, List.mem_cons,
    List.mem_replicate] at he
  rcases he with rfl | rfl | rfl | rfl | rfl | ⟨-, rfl⟩
  · exact .digest
  all_goals cases hannounces

end Reconciler

end Reconcile

import Reconcile.Proofs.Exchange.Converging

/-! # Nodes that fail stand only in the way of what is below them

Where some nodes of the next tree cannot be had, a reconciler finds all new names that they do not
stand in the way of, and then no others. When the nodes come after all, it finds the rest. -/

namespace Reconcile

variable {H : Hashing} {x y d : Digest} {lx ly : List Name} {failing : Digest → Prop}
  {published : Catalog Digest Bytes}

/-- Some nodes below the root `y` fail: nothing is published for them, or not what their digests name.
All other nodes of the two trees are there, and so are all nodes of the tree `x`. -/
structure Failing (H : Hashing) (x y : Digest) (published : Catalog Digest Bytes)
    (failing : Digest → Prop) : Prop where
  some : ∃ d, failing d
  below : ∀ d, failing d → Leads H (fun _ => False) (.ref y) (.ref d) ∧ d ≠ y
  apart : ∀ d, failing d → ¬ Leads H (fun _ => False) (.ref x) (.ref d)
  fails : ∀ d, failing d → ¬ Publishes H published d
  others : ∀ d, Leads H (fun _ => False) (.ref y) (.ref d) ∨
    Leads H (fun _ => False) (.ref x) (.ref d) → ¬ failing d → Publishes H published d

namespace Failing

theorem differ (h : Failing H x y published failing) : x ≠ y := by
  rintro rfl
  obtain ⟨d, hd⟩ := h.some
  exact h.apart d hd (h.below d hd).1

theorem baseline (h : Failing H x y published failing) (e : Digest)
    (he : Leads H failing (.ref x) (.ref e)) : ¬ failing e :=
  fun hfailing => h.apart e hfailing (he.mono (fun _ => False.elim))

theorem root (h : Failing H x y published failing) : ¬ failing y := fun hy => (h.below y hy).2 rfl

/-- The task of a reconciler that starts from `x` and gets the root `y`. -/
def task (h : Failing H x y published failing) (inj : Function.Injective H) (current : Honest H x)
    (next : Honest H y) (attempts : Nat) (firstName : Option Name) : Task H :=
  .opening failing inj current next h.differ h.baseline h.root attempts firstName

theorem serves (h : Failing H x y published failing) (inj : Function.Injective H)
    (current : Honest H x) (next : Honest H y) (attempts : Nat) (firstName : Option Name) :
    (Exchange.opening attempts x y firstName published).Serves
      (h.task inj current next attempts firstName) where
  quiet := Exchange.quiet_opening attempts x y firstName published
  brings d hd hkept := Exchange.brings_fetch.mpr (h.others d hd hkept)
  loses d hd := fun hbrings => h.fails d hd (Exchange.brings_fetch.mp hbrings)

end Failing

namespace Exchange

/-- A reconciler compares two trees in which some nodes fail. It gets stuck without a fault when it has
found exactly the new names that are reached without those nodes, each once. When the nodes come after
all, it gets through, and has found exactly the new names, each once. The answers may come in any
order. -/
theorem fault_locality (inj : Function.Injective H) (hx : HonestTree H x lx)
    (hy : HonestTree H y ly) (hfailing : Failing H x y published failing) (attempts : Nat)
    (firstName : Option Name) (order : Exchange → List Digest)
    (horder : ∀ e, (order e).Perm e.unanswered) :
    ∃ e, (opening attempts x y firstName published).convergeIn H order = some (e, some .stuck, []) ∧
      e.reconciler.tally.faults = 0 ∧ e.reconciler.journal.recorded.Nodup ∧
      (∀ a, a ∈ e.reconciler.journal.recorded ↔
        Leads H failing (.ref y) (.leaf a) ∧ a ∉ lx) ∧
      ∀ results : List (Digest × Except FetchFailure Bytes),
        (∀ result ∈ results, failing result.1 ∧ Brings H result.1 result.2) →
        (∀ d, failing d → ∃ result ∈ results, result.1 = d) →
        ∀ order' : Exchange → List Digest, (∀ e, (order' e).Perm e.unanswered) →
          ∃ e', (e.deliver results).convergeIn H order' = some (e', some .idle, []) ∧
            e'.reconciler.baseline = some y ∧ e'.reconciler.tally.completed = 1 ∧
            e'.reconciler.tally.faults = 0 ∧ e'.reconciler.journal.recorded.Nodup ∧
            ∀ a, a ∈ e'.reconciler.journal.recorded ↔ a ∈ ly ∧ a ∉ lx := by
  have hserves := hfailing.serves inj ⟨lx, hx⟩ ⟨ly, hy⟩ attempts firstName
  have hready := Reconciler.ready_opening failing inj ⟨lx, hx⟩ ⟨ly, hy⟩ hfailing.differ
    hfailing.baseline hfailing.root attempts firstName published
  rw [← hx.namesBelow_eq inj, ← hy.namesBelow_eq inj]
  obtain ⟨e, outcome, hconverges, hserves, hsettles⟩ := hserves.converges hready horder
  obtain ⟨d, hd⟩ := hfailing.some
  obtain rfl := hsettles.eq_stuck (hfailing.below d hd).1 hd
  obtain ⟨hfaults, hnodup, hfound⟩ := hsettles.of_stuck
  refine ⟨e, hconverges, hfaults, hnodup, hfound, ?_⟩
  intro results hresults hall order' horder'
  obtain ⟨hserves, hready⟩ := hserves.recovers hsettles hresults hall
  obtain ⟨e', outcome, hconverges, -, hsettles⟩ := hserves.converges hready horder'
  obtain rfl := hsettles.eq_idle (fun _ => id)
  exact ⟨e', hconverges, hsettles.of_idle⟩

end Exchange

namespace Sample

/-- The baseline `{3}` and the root above the branch `{2}`, but not the branch. -/
def publishedBranching : Catalog Digest Bytes :=
  (Catalog.empty.insert (root (flat [3])) (flat [3]).encode).insert (root branching) branching.encode

theorem eq_root_of_leads_flat {ks : List UInt8}
    (h : Leads Digest.mk (fun _ => False) (.ref (root (flat ks))) (.ref d)) : d = root (flat ks) := by
  rcases h.cases_node injective_mk (denotes_digest Digest.mk (flat ks)) with hd | ⟨i, hi, hd⟩
  · exact Item.ref.inj hd
  · obtain ⟨a, -, rfl⟩ := List.mem_map.mp hi
    cases hd.of_leaf

theorem eq_root_of_leads_branching
    (h : Leads Digest.mk (fun _ => False) (.ref (root branching)) (.ref d)) :
    d = root branching ∨ d = root (flat [2]) := by
  rcases h.cases_node injective_mk (denotes_digest Digest.mk branching) with hd | ⟨i, hi, hd⟩
  · exact .inl (Item.ref.inj hd)
  · rcases List.mem_pair.mp hi with rfl | rfl
    · cases hd.of_leaf
    · exact .inr (eq_root_of_leads_flat hd)

/-- The branch of the root fails. -/
theorem failing_branching :
    Failing Digest.mk (root (flat [3])) (root branching) publishedBranching (· = root (flat [2])) where
  some := ⟨_, rfl⟩
  below := by
    rintro d rfl
    refine ⟨leads_item id (denotes_digest Digest.mk branching) ?_, by decide⟩
    simp [branching]
  apart := by
    rintro d rfl h
    exact absurd (eq_root_of_leads_flat h) (by decide)
  fails := by
    rintro d rfl ⟨bytes, n, hbytes, -⟩
    have hnone : publishedBranching.get? (root (flat [2])) = none := by decide
    cases hnone.symm.trans hbytes
  others := by
    rintro d (hd | hd) hkept
    · obtain rfl := (eq_root_of_leads_branching hd).resolve_right hkept
      exact ⟨branching.encode, branching, by decide, by decide⟩
    · obtain rfl := eq_root_of_leads_flat hd
      exact ⟨(flat [3]).encode, flat [3], by decide, by decide⟩

end Sample

namespace Exchange

open Sample in
/-- From the baseline `{3}`, the name `1` is found beside the branch that fails, and `2` when the branch
comes. -/
theorem fault_locality_branching :
    ∃ e, (opening 1 (root (flat [3])) (root branching) none publishedBranching).convergeIn Digest.mk
        unanswered = some (e, some .stuck, []) ∧
      (∀ a, a ∈ e.reconciler.journal.recorded ↔
        Leads Digest.mk (· = root (flat [2])) (.ref (root branching)) (.leaf a) ∧
          a ∉ ascending ([3].map name)) ∧
      ∃ e', (e.deliver [(root (flat [2]), .ok (flat [2]).encode)]).convergeIn Digest.mk unanswered =
          some (e', some .idle, []) ∧
        ∀ a, a ∈ e'.reconciler.journal.recorded ↔
          a ∈ [name 1, name 2] ∧ a ∉ ascending ([3].map name) := by
  obtain ⟨e, hstuck, -, -, hfound, hresumes⟩ := fault_locality injective_mk (honestTree_flat [3])
    honestTree_branching failing_branching 1 none unanswered (fun _ => .refl _)
  have hbrings : Brings Digest.mk (root (flat [2])) (.ok (flat [2]).encode) :=
    ⟨_, flat [2], rfl, by decide⟩
  obtain ⟨e', hidle, -, -, -, -, hall⟩ := hresumes [(root (flat [2]), .ok (flat [2]).encode)]
    (by simpa using hbrings) (by simp) unanswered (fun _ => .refl _)
  exact ⟨e, hstuck, hfound, e', hidle, hall⟩

end Exchange

end Reconcile

import Reconcile.Proofs.Reconciler.Motion
import Reconcile.Proofs.Reconciler.Orderly

/-! # The steps of a traversal keep a reconciler in order

Over honest trees no step of a traversal fails, each finds at most one name, and that one is new. A
traversal that is through has every name of its tree accounted for. -/

namespace Reconcile.Reconciler

open Traversal

variable {H : Hashing} {S : Name → Prop} {r r' : Reconciler} {y : Digest}

theorem Orderly.accounted_of_held (h : r.Orderly H S) {a : Name}
    (ha : a ∈ heldNames H r.baseline) : r.Accounted S a := by
  cases hbaseline : r.baseline with
  | none => simp [hbaseline] at ha
  | some d =>
      rw [hbaseline, heldNames_some] at ha
      exact (h.baseline d hbaseline).2 a ha

/-! ## Moving on -/

theorem evolves_walks (h : r.Orderly H S) (hround : r.round = some y) {w : Traversal}
    (hw : Underway H (heldNames H r.baseline) (r.Accounted S) r.recorded y w) :
    Evolves H S r { r with traversal := w } :=
  ⟨h.walks hround hw h.genuine (fun _ => .inl), change_refl _, fun _ => id⟩

/-- The traversal moves on, and a tree that is settled is marked as known. -/
theorem evolves_marks (h : r.Orderly H S) (hround : r.round = some y) {w : Traversal} {c : Cache}
    {d : Digest} (hw : Underway H (heldNames H r.baseline) (r.Accounted S) r.recorded y w)
    (hc : Cache.Keeps H r.cache c) (hd : r.Settles H S d) :
    Evolves H S r { r with traversal := w, cache := c.markKnown d } := by
  refine ⟨h.walks hround hw (Cache.genuine_markKnown d (hc.genuine h.genuine)) ?_, change_refl _, ?_⟩
  · intro e he
    rw [Cache.known_markKnown, Bool.or_eq_true, decide_eq_true_eq] at he
    rcases he with rfl | he
    · exact .inr hd
    · exact .inl (hc.known e ▸ he)
  · intro e he
    have hknown : c.known e = true := (hc.known e).trans he
    simp [Cache.known_markKnown, hknown]

/-! ## Finding a name -/

theorem any_lists {extra : Option Node} {a : Name} :
    extra.any (fun n => n.lists a) = true ↔ ∃ n ∈ extra, a ∈ n.leaves := by
  cases extra <;> simp [Node.lists]

theorem deliver_eq (r : Reconciler) (stripped : Name) :
    r.deliver stripped =
      { r with
        firstName := (r.deliver stripped).firstName
        journal.delivered := (r.deliver stripped).journal.delivered } := by
  unfold deliver
  split <;> rfl

theorem fetches_deliver (r : Reconciler) (stripped : Name) : Fetches H r (r.deliver stripped) := by
  rw [deliver_eq]
  exact ⟨.refl _, rfl, rfl⟩

/-- A new name goes into the log. -/
theorem Orderly.notes (h : r.Orderly H S) (hround : r.round = some y) {w : Traversal} {c : Cache}
    (hc : Cache.Keeps H r.cache c) {a : Name} {q : List Name}
    (hpasses : Passes H r.traversal w [a] q) :
    Orderly H S { r with
      cache := c
      traversal := w
      recorded := r.recorded ++ [a]
      tally.recorded := r.tally.recorded + 1
      journal.recorded := r.journal.recorded ++ [a] } := by
  have hlog : ∀ b ∈ r.journal.recorded, b ∈ r.journal.recorded ++ [a] :=
    fun b hb => List.mem_append_left _ hb
  have hlast : a ∈ r.journal.recorded ++ [a] := List.mem_append_right _ (List.mem_singleton_self a)
  refine ⟨hc.genuine h.genuine, ?_, ?_, ?_, ?_, h.roots, h.bodies, h.awaiting, h.phase, h.active, ?_,
    h.honest, ?_⟩
  · intro d hd
    exact (h.known d ((hc.known d).symm.trans hd)).of_log hlog
  · intro d hd
    exact (h.baseline d hd).of_log hlog
  · intro n hn b hb
    exact hlog b (h.extra n hn b hb)
  · intro b hb
    rcases List.mem_append.mp hb with hb | hb
    · exact hlog b (h.recorded b hb)
    · exact List.mem_append_right _ hb
  · intro hnone
    cases hround.symm.trans hnone
  · intro z hz
    obtain rfl : y = z := Option.some.inj (hround.symm.trans hz)
    refine (h.round y hround).passes hpasses (fun b hb => hb.imp_right (hlog b)) ?_ ?_
    · intro b hb
      obtain rfl := List.mem_singleton.mp hb
      exact .inr hlast
    · intro b hb
      exact List.mem_append.mp hb

/-- A name comes next, and the baseline does not hold it. -/
theorem evolves_record (h : r.Orderly H S) (hround : r.round = some y) {w : Traversal} {c : Cache}
    (hc : Cache.Keeps H r.cache c) {a : Name} {q : List Name}
    (hpasses : Passes H r.traversal w [a] q) (ha : a ∉ heldNames H r.baseline) :
    Evolves H S r (record { r with cache := c, traversal := w } a) := by
  have hunderway := h.round y hround
  have hpending : a ∈ r.traversal.pending H := by
    rw [hpasses.pending_eq]
    exact List.mem_append_left _ (List.mem_singleton_self a)
  have hknown : ∀ d, c.known d = r.cache.known d := hc.known
  unfold record
  split
  · rename_i hlists
    have hlogged : a ∈ r.journal.recorded := by
      obtain ⟨n, hn, hleaf⟩ := any_lists.mp hlists
      exact h.extra n hn a hleaf
    have hw := hunderway.passes_same hpasses (fun b hb => by
      obtain rfl := List.mem_singleton.mp hb
      exact .inr hlogged)
    exact ⟨h.walks hround hw (hc.genuine h.genuine) (fun d hd => .inl (hknown d ▸ hd)),
      change_refl _, fun d hd => (hknown d).trans hd⟩
  · rename_i hlists
    have hnew : ¬ r.ledger.Remembers H a := by
      rintro (hheld | hlisted | hfound)
      · exact ha hheld
      · exact hlists (any_lists.mpr hlisted)
      · exact hunderway.found a hfound hpending
    refine .of_fetches_right ?_ (fetches_deliver _ a.parent)
    exact ⟨h.notes hround hc hpasses, .note y a hround (hunderway.mem a hpending) hnew,
      fun d hd => (hknown d).trans hd⟩

/-- Acting on two items records only a name that the baseline does not hold. -/
theorem evolves_act (h : r.Orderly H S) (hround : r.round = some y) {c : Cache} {m : Move}
    {p q : List Name} (hkeeps : Cache.Keeps H r.cache c)
    (hmove : Advances H (heldNames H r.baseline) r.cache.known r.traversal m p q) :
    Evolves H S r
      (effect { r with cache := c, traversal := r.traversal.perform m } r.traversal m) := by
  have hunderway := h.round y hround
  have hgenuine := hkeeps.genuine h.genuine
  have hknown : ∀ d, c.known d = r.cache.known d := hkeeps.known
  have hquiet : (∀ a ∈ p, a ∈ heldNames H r.baseline ∨
      ∃ d, r.cache.known d = true ∧ a ∈ namesBelow H d) →
      Evolves H S r { r with cache := c, traversal := r.traversal.perform m } := by
    intro hp
    have hw := hunderway.passes_same hmove.toPasses (fun a ha => by
      rcases hp a ha with ha | ⟨d, hd, ha⟩
      · exact h.accounted_of_held ha
      · exact (h.known d hd).2 a ha)
    exact ⟨h.walks hround hw hgenuine (fun d hd => .inl (hknown d ▸ hd)), change_refl _,
      fun d hd => (hknown d).trans hd⟩
  cases m with
  | record =>
      obtain ⟨a, hleaf, rfl, ha⟩ := hmove.sorts
      simp only [effect, hleaf]
      exact evolves_record h hround hkeeps hmove.toPasses ha
  | share d =>
      obtain ⟨hd, rfl, hheld⟩ := hmove.sorts
      have haccounted : ∀ a ∈ namesBelow H d, r.Accounted S a :=
        fun a ha => h.accounted_of_held (hheld a ha)
      exact evolves_marks h hround (hunderway.passes_same hmove.toPasses haccounted) hkeeps
        ⟨hd, haccounted⟩
  | skipNext => exact hquiet hmove.sorts
  | skipCurrent => exact hquiet hmove.sorts
  | skipBoth => exact hquiet hmove.sorts
  | enterNext d => exact hquiet hmove.sorts
  | enterCurrent d => exact hquiet hmove.sorts
  | enterBoth d e => exact hquiet hmove.sorts
  | leaveCurrent => exact hquiet hmove.sorts

/-! ## Single steps -/

/-- A node that is left without a branch put aside is rightly marked as known. -/
theorem evolves_leaveNext (h : r.Orderly H S) (hround : r.round = some y) {f : Frame}
    {above : List Frame} (hnext : r.traversal.next = f :: above) (hthrough : f.isThrough = true) :
    Evolves H S r (r.leaveNext f above) := by
  have hunderway := h.round y hround
  have hrest : f.rest H = [] := Frame.rest_of_isThrough hthrough
  have hw := hunderway.leaveNext hnext (by simp [hrest])
  have hsound : f.Sound H := hunderway.walk.next.sound f (hnext ▸ List.mem_cons_self)
  unfold leaveNext
  cases hincomplete : f.incomplete with
  | true => exact evolves_walks h hround hw
  | false =>
      exact evolves_marks h hround hw (.refl _)
        ⟨hsound.honest, hunderway.accounted_of_isThrough hnext hthrough hincomplete⟩

/-- A step that goes on first looks and asks, and then moves the positions or acts. -/
theorem evolves_onward (inj : Function.Injective H) {agent : Agent} (h : r.Orderly H S)
    (hround : r.round = some y) (goes : Onward H agent r r') : Evolves H S r r' := by
  have hunderway := h.round y hround
  have hfetched : ∀ {r₁ : Reconciler} {w : Traversal}, Fetches H r r₁ →
      Underway H (heldNames H r.baseline) (r.Accounted S) r.recorded y w →
      Evolves H S r { r₁ with traversal := w } := fun hf hw =>
    .of_fetches_right (evolves_walks h hround hw) ⟨hf.keeps, rfl, hf.ledger⟩
  cases goes with
  | resumed next mem consults found =>
      exact hfetched (consults.look _).fetches (hunderway.restart inj h.baseline_honest next mem)
  | @passedKnown f fs next unresolved known =>
      have hsound : f.Sound H := hunderway.walk.next.sound f (next ▸ List.mem_cons_self)
      refine evolves_walks h hround (hunderway.leaveNext next ?_)
      intro a ha
      exact (h.known f.digest known).2 a (Frame.rest_subset inj hsound ha)
  | openedNext next unresolved found =>
      have hnode := denotes_of_look h.genuine found
      exact hfetched (fetches_look r _) (hunderway.resolveNext inj next unresolved hnode)
  | putAside next above unresolved found consults =>
      exact hfetched ((fetches_look r _).trans consults.fetches)
        (hunderway.putAside inj next unresolved)
  | leftNext next resolved isThrough => exact evolves_leaveNext h hround next isThrough
  | openedCurrent current unresolved found =>
      have hnode := denotes_of_look h.genuine found
      exact hfetched (fetches_look r _) (hunderway.resolveCurrent inj current unresolved hnode)
  | leftCurrent current resolved isThrough =>
      exact evolves_walks h hround (hunderway.leaveCurrent current isThrough)
  | acted plan planned meets =>
      obtain ⟨hkeeps, m', p, q, hplan, hmove⟩ := plan_spec inj h.genuine hunderway.walk meets
      rw [plan] at hkeeps hplan
      obtain rfl := Except.ok.inj hplan
      exact evolves_act h hround hkeeps hmove

/-- What a step of the traversal comes to: it goes on in order, is through with nothing left, or only
asked for nodes. -/
def Strides (H : Hashing) (S : Name → Prop) (r : Reconciler) : Reconciler × Stride → Prop
  | (r', .onward) => Evolves H S r r'
  | (r', .through) => Fetches H r r' ∧ r'.traversal.next = [] ∧ r'.traversal.aside = []
  | (r', .waiting) => Fetches H r r'
  | (r', .stuck) => Fetches H r r'
  | (_, .fault _) => False

theorem stride_spec (inj : Function.Injective H) (agent : Agent) (h : r.Orderly H S)
    (hround : r.round = some y) : r.Strides H S (r.stride H agent) := by
  have hs := strode_stride (H := H) agent r
  generalize r.stride H agent = result at hs
  obtain ⟨r', stride⟩ := result
  cases hs with
  | onward goes => exact evolves_onward inj h hround goes
  | through next aside => exact ⟨.refl _, next, aside⟩
  | waiting waits => exact waits.consults.fetches
  | exhausted next left consults missed => exact consults.fetches
  | lostRoot next unresolved missed => exact fetches_look _ _
  | lostCurrent current unresolved missed => exact fetches_look _ _
  | faulted plan meets =>
      obtain ⟨-, m, p, q, hplan, -⟩ := plan_spec inj h.genuine (h.round y hround).walk meets
      rw [plan] at hplan
      cases hplan

end Reconcile.Reconciler

import Mathlib.Algebra.BigOperators.Group.Finset.Basic
import Mathlib.Algebra.Order.BigOperators.Group.Finset
import Mathlib.Data.Set.Finite.Lattice
import Reconcile.Exchange
import Reconcile.Proofs.History.Looseness
import Reconcile.Proofs.Reconciler.Conclusion

/-! # Running and answering until there is nothing to wait for

A tree has finitely many nodes, and a node is asked for again only after a failure, which happens a
limited number of times. So if every request is answered before the next run, some run does not wait,
in whatever order the answers come. -/

namespace Reconcile

variable {H : Hashing} {lost failed scope : Digest → Prop} {owed : List Digest} {limit start : Nat}
  {d : Digest}

/-! ## How many requests there can be -/

/-- A tree leads to finitely many nodes. -/
theorem Tree.finite_leads {P : Node → (Digest → List Name) → Prop} (lost : Digest → Prop)
    (inj : Function.Injective H) {l : List Name} (h : Tree H P d l) :
    {e | Leads H lost (.ref d) (.ref e)}.Finite := by
  induction h with
  | @node d n below denotes branches sound ih =>
      have hbranches : (⋃ e ∈ n.refs, {e' | Leads H lost (.ref e) (.ref e')}).Finite :=
        (List.finite_toSet n.refs).biUnion ih
      refine ((Set.finite_singleton d).union hbranches).subset ?_
      intro e he
      rcases Leads.cases_node inj he denotes with he | ⟨i, hi, he⟩
      · exact .inl (Item.ref.inj he)
      · cases i with
        | leaf a => cases he.of_leaf
        | ref e' => exact .inr (Set.mem_biUnion (Node.mem_refs.mpr hi) he)

theorem Task.exists_scope (t : Task H) : ∃ U : Finset Digest, ∀ d, t.Reaches d → d ∈ U := by
  have hnext := (t.next.tree t.inj).finite_leads t.lost t.inj
  have hcurrent := (t.current.tree t.inj).finite_leads t.lost t.inj
  exact ⟨(hnext.union hcurrent).toFinset, fun d hd => (Set.Finite.mem_toFinset _).mpr hd⟩

namespace Reconciler

variable {r : Reconciler}

theorem Supplied.length_asked_le (h : r.Supplied H lost failed scope limit owed start)
    {U : Finset Digest} (hU : ∀ d, scope d → d ∈ U) :
    r.journal.asked.length ≤ U.card * (limit + 1) := by
  have hcount : ∀ d, r.journal.asked.count d ≤ limit + 1 := fun d =>
    (h.slots d).count_le.trans (Nat.add_le_add_right (h.shows d).capped 1)
  have hscope : r.journal.asked.toFinset ⊆ U := fun d hd =>
    hU d (h.scope d (List.mem_toFinset.mp hd))
  calc r.journal.asked.length
      = ∑ d ∈ r.journal.asked.toFinset, r.journal.asked.count d :=
        (List.sum_toFinset_count_eq_length _).symm
    _ ≤ r.journal.asked.toFinset.card * (limit + 1) :=
        Finset.sum_le_card_nsmul _ _ _ (fun d _ => hcount d)
    _ ≤ U.card * (limit + 1) := Nat.mul_le_mul_right _ (Finset.card_le_card hscope)

/-- Once the open requests are answered, there is less left to ask for and to answer than there was when
the first `start` requests had been made. -/
theorem Supplied.left_lt (h : r.Supplied H lost failed scope limit owed start) {U : Finset Digest}
    (hU : ∀ d, scope d → d ∈ U) (hopen : owed ++ r.journal.asked.drop start ≠ []) :
    U.card * (limit + 1) - r.journal.asked.length < U.card * (limit + 1) - start + owed.length := by
  have hpos := List.length_pos_iff.mpr hopen
  rw [List.length_append, List.length_drop] at hpos
  have hbegun := h.begun
  have hbound := h.length_asked_le hU
  omega

/-- All that is owed is answered in a row. -/
theorem Engaged.answers {t : Task H} {fetch : Digest → Except FetchFailure Bytes}
    (hgood : ∀ d, t.Reaches d → ¬ t.failed d → Brings H d (fetch d))
    (hbad : ∀ d, t.lost d → ¬ Brings H d (fetch d)) (h : Engaged t owed start r) :
    Engaged t [] start
      { r with cache := r.cache.completeAll (owed.map (fun d => (d, fetch d))) } := by
  induction owed generalizing r with
  | nil => exact h
  | cons d owed ih =>
      exact ih (h.keeps (Cache.keeps_complete _ _ _)
        (h.supplied.answer (t.failed_of_lost d) (hbad d) (hgood d)))

end Reconciler

namespace Exchange

variable {t : Task H} {x : Exchange}

/-- Fetches end in a row, asked for or not. -/
def deliver (x : Exchange) (results : List (Digest × Except FetchFailure Bytes)) : Exchange :=
  results.foldl (fun x result => (x.complete result.1 result.2).1) x

theorem deliver_eq (x : Exchange) (results : List (Digest × Except FetchFailure Bytes)) :
    x.deliver results =
      { x with reconciler.cache := x.reconciler.cache.completeAll results } := by
  induction results generalizing x with
  | nil => rfl
  | cons result results ih => exact ih _

theorem answerEach_eq (x : Exchange) (ds : List Digest) :
    answerEach ds x = x.deliver (ds.map (fun d => (d, x.fetch d))) := by
  induction ds generalizing x with
  | nil => rfl
  | cons d ds ih => exact ih _

theorem convergeIn_of_last {order : Exchange → List Digest} {x' : Exchange}
    {outcome : Option Outcome} {replies : List Reply} (hrun : x.run H = (x', outcome, replies))
    (hlast : outcome ≠ some .waiting) :
    x.convergeIn H order = some (x', outcome, replies) := by
  have hlap : lap H order (x, []) = ((x', replies), some outcome) := by simp [lap, hrun, hlast]
  rw [convergeIn, loop_of_some hlap, Option.map_some]

theorem convergeIn_of_waiting {order : Exchange → List Digest} {x' : Exchange}
    (hrun : x.run H = (x', some .waiting, [])) (hopen : x'.unanswered ≠ []) :
    x.convergeIn H order = (x'.answerIn order).1.convergeIn H order := by
  have hlap : lap H order (x, []) = (((x'.answerIn order).1, []), none) := by
    obtain ⟨d, ds, hds⟩ := List.exists_cons_of_ne_nil hopen
    simp [lap, hrun, answerIn, hds]
  rw [convergeIn, loop_of_none hlap]
  rfl

/-- If every run is the last or leaves requests open, and what is left gets smaller from one run to the
next, there is a last one. -/
theorem converges_of_less {I : Exchange → Prop} {Q : Exchange → Outcome → Prop}
    (left : Exchange → Nat) {order : Exchange → List Digest}
    (hrun : ∀ x, I x → ∃ x' outcome, x.run H = (x', some outcome, []) ∧
      (outcome ≠ .waiting ∧ Q x' outcome ∨
        outcome = .waiting ∧ x'.unanswered ≠ [] ∧ I (x'.answerIn order).1 ∧
          left (x'.answerIn order).1 < left x)) {x : Exchange} (h : I x) :
    ∃ x' outcome, x.convergeIn H order = some (x', some outcome, []) ∧ Q x' outcome := by
  induction hleft : left x using Nat.strong_induction_on generalizing x with
  | _ k ih =>
    obtain ⟨x', outcome, hrun', hlast | ⟨rfl, hopen, hnext, hless⟩⟩ := hrun x h
    · obtain ⟨hlast, hresult⟩ := hlast
      exact ⟨x', outcome, convergeIn_of_last hrun' (by simpa using hlast), hresult⟩
    · obtain ⟨x'', outcome, hconverges, hresult⟩ := ih _ (hleft ▸ hless) hnext rfl
      exact ⟨x'', outcome, (convergeIn_of_waiting hrun' hopen).trans hconverges, hresult⟩

/-- All open requests are answered at once. -/
theorem answerIn_fst (order : Exchange → List Digest) (x : Exchange) :
    (x.answerIn order).1 =
      { x with
        reconciler.cache :=
          x.reconciler.cache.completeAll ((order x).map (fun d => (d, x.fetch d)))
        unanswered := [] } := by
  simp only [answerIn, answerEach_eq, deliver_eq]
  rfl

/-! ## Exchanges that serve a task -/

/-- All requests are accepted, and the listener does nothing. -/
structure Quiet (x : Exchange) : Prop where
  accepts : x.refusing = false
  turn : x.turn = {}
  hooks : x.hooks = .empty

theorem handOut_of_hooks (h : x.hooks = .empty) (names : List Name) :
    handOut H names x = (x, []) := by
  induction names with
  | nil => rfl
  | cons name names ih => simp [handOut, h, ih]

/-- A run is one pass. -/
theorem Quiet.run_eq (h : x.Quiet) :
    x.run H = ((x.withReconciler (·.pass H .accepting)).1,
      (x.withReconciler (·.pass H .accepting)).2, []) := by
  obtain ⟨reconciler, published, unanswered, refusing, turn, hooks⟩ := x
  obtain ⟨rfl, rfl, rfl⟩ := h
  simp [run, Turn.claim, rounds, pass, agent, withReconciler, handOut_of_hooks, Turn.release]

theorem Quiet.run_of_pass (h : x.Quiet) {r : Reconciler} {outcome : Outcome}
    (hpass : x.reconciler.pass H .accepting = (r, some outcome)) :
    x.run H =
      ({ x with
          reconciler := r
          unanswered := x.unanswered ++
            r.journal.accepted.drop x.reconciler.journal.accepted.length },
        some outcome, []) := by
  rw [h.run_eq]
  simp only [withReconciler, hpass]

/-- Fetches bring the nodes of both trees, but for those that are lost or had failed before. -/
structure Serves (t : Task H) (x : Exchange) : Prop where
  quiet : x.Quiet
  brings : ∀ d, t.regained.Reaches d → ¬ t.failed d → Brings H d (x.fetch d)
  loses : ∀ d, t.lost d → ¬ Brings H d (x.fetch d)

open Reconciler (Engaged Ends Ready)

theorem Serves.run_of_ready (h : x.Serves t) (hready : Ready t x.unanswered x.reconciler) :
    ∃ x' outcome, x.run H = (x', some outcome, []) ∧ x'.Serves t ∧
      Ends t x.unanswered x.reconciler.journal.asked.length x'.reconciler outcome ∧
      x'.unanswered = x.unanswered ++
        x'.reconciler.journal.accepted.drop x.reconciler.journal.accepted.length := by
  obtain ⟨r', outcome, hpass, hends⟩ := hready.pass
  exact ⟨_, outcome, h.quiet.run_of_pass hpass,
    ⟨⟨h.quiet.accepts, h.quiet.turn, h.quiet.hooks⟩, h.brings, h.loses⟩, hends, rfl⟩

/-- All open requests are answered, in any order. -/
theorem Serves.answerIn (h : x.Serves t)
    (hengaged : Engaged t x.unanswered start x.reconciler) {order : Exchange → List Digest}
    (horder : ∀ x, (order x).Perm x.unanswered) :
    (x.answerIn order).1.Serves t ∧
      Engaged t [] start (x.answerIn order).1.reconciler ∧
      (x.answerIn order).1.unanswered = [] ∧
      (x.answerIn order).1.reconciler.journal = x.reconciler.journal := by
  rw [answerIn_fst]
  exact ⟨⟨⟨h.quiet.accepts, h.quiet.turn, h.quiet.hooks⟩, h.brings, h.loses⟩,
    (hengaged.perm (horder x)).answers (fun d hd => h.brings d hd.regained) h.loses, rfl, rfl⟩

/-- What an exchange comes to that runs and answers until there is nothing to wait for. -/
inductive Settles (t : Task H) (x : Exchange) : Outcome → Prop
  | idle {r : Reconciler} {owed : List Digest} {start : Nat} (engaged : Engaged t owed start r)
      (next : r.traversal.next = []) (aside : r.traversal.aside = [])
      (closed : x.reconciler = r.closeRound H) : Settles t x .idle
  | stuck (engaged : Engaged t x.unanswered x.reconciler.journal.asked.length x.reconciler)
      (next : x.reconciler.traversal.next = []) (left : x.reconciler.traversal.aside ≠ [])
      (missed : ∀ d ∈ x.reconciler.traversal.aside, x.reconciler.cache.GivenUp d) :
      Settles t x .stuck

theorem Serves.converges (h : x.Serves t) (hready : Ready t x.unanswered x.reconciler)
    {order : Exchange → List Digest} (horder : ∀ x, (order x).Perm x.unanswered) :
    ∃ x' outcome, x.convergeIn H order = some (x', some outcome, []) ∧ x'.Serves t ∧
      x'.Settles t outcome := by
  obtain ⟨U, hU⟩ := t.exists_scope
  refine converges_of_less (I := fun x => x.Serves t ∧ Ready t x.unanswered x.reconciler)
    (fun x =>
      U.card * (t.limit + 1) - x.reconciler.journal.asked.length + x.unanswered.length)
    ?_ ⟨h, hready⟩
  rintro x ⟨h, hready⟩
  obtain ⟨x', outcome, hrun, hserves, hends, hunanswered⟩ := h.run_of_ready hready
  refine ⟨x', outcome, hrun, ?_⟩
  rw [hready.accepted] at hunanswered
  have hrebase : ∀ {r : Reconciler}, x'.reconciler = r →
      Engaged t x.unanswered x.reconciler.journal.asked.length r →
      Engaged t x'.unanswered x'.reconciler.journal.asked.length x'.reconciler := by
    rintro r rfl hengaged
    rw [hunanswered, hengaged.supplied.accepted]
    exact hengaged.rebase
  generalize hr : x'.reconciler = r at hends
  cases hends with
  | idle engaged next aside => exact .inl ⟨by decide, hserves, .idle engaged next aside hr⟩
  | stuck engaged next left missed =>
      subst hr
      exact .inl ⟨by decide, hserves, .stuck (hrebase rfl engaged) next left missed⟩
  | waiting engaged unanswered =>
      subst hr
      have hopen : x'.unanswered ≠ [] := by
        rw [hunanswered, engaged.supplied.accepted]
        exact unanswered
      obtain ⟨hserves', hanswered, hnone, hjournal⟩ :=
        hserves.answerIn (hrebase rfl engaged) horder
      refine .inr ⟨rfl, hopen, ⟨hserves', .engaged ?_⟩, ?_⟩
      · rw [hnone, hjournal]
        exact hanswered
      · rw [hnone, hjournal, List.length_nil, Nat.add_zero]
        exact engaged.supplied.left_lt hU unanswered

/-! ## What was found -/

namespace Settles

variable {outcome : Outcome}

theorem eq_stuck (h : x.Settles t outcome) (hd : Leads H (fun _ => False) (.ref t.y) (.ref d))
    (hlost : t.lost d) : outcome = .stuck := by
  cases h with
  | idle engaged next aside closed => exact absurd hlost (engaged.kept_of_through next aside hd)
  | stuck engaged next left missed => rfl

theorem eq_idle (h : x.Settles t outcome) (hnone : ∀ d, ¬ t.lost d) : outcome = .idle := by
  cases h with
  | idle engaged next aside closed => rfl
  | stuck engaged next left missed =>
      obtain ⟨d, hd⟩ := List.exists_mem_of_ne_nil _ left
      exact absurd (engaged.supplied.lost_of_givenUp (missed d hd)) (hnone d)

theorem of_idle (h : x.Settles t .idle) :
    x.reconciler.baseline = some t.y ∧ x.reconciler.tally.completed = 1 ∧
      x.reconciler.tally.faults = 0 ∧ x.reconciler.journal.recorded.Nodup ∧
      ∀ a, a ∈ x.reconciler.journal.recorded ↔ a ∈ namesBelow H t.y ∧ a ∉ namesBelow H t.x := by
  cases h with
  | idle engaged next aside closed =>
      obtain ⟨hjournal, hfaults, hcompleted, hbaseline⟩ := engaged.closed
      rw [closed, hjournal]
      exact ⟨hbaseline, hcompleted, hfaults, engaged.found_of_through next aside⟩

theorem of_stuck (h : x.Settles t .stuck) :
    x.reconciler.tally.faults = 0 ∧ x.reconciler.journal.recorded.Nodup ∧
      ∀ a, a ∈ x.reconciler.journal.recorded ↔
        Leads H t.lost (.ref t.y) (.leaf a) ∧ a ∉ namesBelow H t.x := by
  cases h with
  | stuck engaged next left missed =>
      exact ⟨engaged.faults, engaged.found_of_stuck next missed⟩

/-- If nothing ever failed, the names were found and handed out in order, and no node was asked for
twice. -/
theorem in_order (h : x.Settles t .idle) (hnone : ∀ d, ¬ t.failed d)
    (hfirst : t.origin.firstName = none) :
    x.reconciler.journal.recorded.Pairwise (· < ·) ∧
      x.reconciler.journal.delivered = x.reconciler.journal.recorded.map Name.parent ∧
      x.reconciler.journal.asked.Nodup := by
  cases h with
  | idle engaged next aside closed =>
      obtain ⟨hjournal, -⟩ := engaged.closed
      obtain ⟨-, -, hlog, -⟩ := engaged.during
      rw [closed, hjournal]
      refine ⟨?_, (engaged.delivered hfirst).2, engaged.supplied.nodup_asked hnone⟩
      rw [hlog]
      exact (engaged.tidy hnone).2.ordered

end Settles

/-- When all lost nodes come, an exchange that is stuck can go on, and nothing is lost any more. -/
theorem Serves.recovers (h : x.Serves t) (hstuck : x.Settles t .stuck)
    {results : List (Digest × Except FetchFailure Bytes)}
    (hresults : ∀ result ∈ results, t.lost result.1 ∧ Brings H result.1 result.2)
    (hall : ∀ d, t.lost d → ∃ result ∈ results, result.1 = d) :
    (x.deliver results).Serves t.regained ∧
      Ready t.regained (x.deliver results).unanswered (x.deliver results).reconciler := by
  rw [deliver_eq]
  refine ⟨⟨⟨h.quiet.accepts, h.quiet.turn, h.quiet.hooks⟩, h.brings, fun _ => False.elim⟩, ?_⟩
  cases hstuck with
  | stuck engaged next left missed => exact .engaged (engaged.recovers next missed hresults hall)

end Exchange

/-! ## The beginning -/

section Opening

variable {x y : Digest}

/-- What is published for a digest is its node. -/
def Publishes (H : Hashing) (published : Catalog Digest Bytes) (d : Digest) : Prop :=
  ∃ bytes n, published.get? d = some bytes ∧ Node.decodeAs H d bytes = .ok n

theorem Exchange.brings_fetch {e : Exchange} :
    Brings H d (e.fetch d) ↔ Publishes H e.published d := by
  unfold Brings Publishes fetch
  cases e.published.get? d <;> simp

/-- A root is compared with another by a reconciler that knows nothing else. -/
def Task.opening (lost : Digest → Prop) (inj : Function.Injective H) (current : Honest H x)
    (next : Honest H y) (differ : x ≠ y) (baseline : ∀ e, Leads H lost (.ref x) (.ref e) → ¬ lost e)
    (root : ¬ lost y) (attempts : Nat) (firstName : Option Name) : Task H where
  x := x
  y := y
  lost := lost
  failed := lost
  limit := max attempts 1
  origin := .create (.ofAttempts attempts) (.root x) firstName
  inj := inj
  current := current
  next := next
  differ := differ
  baseline := baseline
  root := root
  failed_of_lost := fun _ => id
  log := rfl
  completed := rfl

/-- The root was announced, and nothing else has happened. -/
def Exchange.opening (attempts : Nat) (x y : Digest) (firstName : Option Name)
    (published : Catalog Digest Bytes) : Exchange where
  reconciler := ((Reconciler.create (.ofAttempts attempts) (.root x) firstName).announce y).1
  published := published

theorem Exchange.quiet_opening (attempts : Nat) (x y : Digest) (firstName : Option Name)
    (published : Catalog Digest Bytes) : (opening attempts x y firstName published).Quiet :=
  ⟨rfl, rfl, rfl⟩

open Reconciler in
theorem Reconciler.ready_opening (lost : Digest → Prop) (inj : Function.Injective H)
    (current : Honest H x) (next : Honest H y) (differ : x ≠ y)
    (baseline : ∀ e, Leads H lost (.ref x) (.ref e) → ¬ lost e) (root : ¬ lost y) (attempts : Nat)
    (firstName : Option Name) (published : Catalog Digest Bytes) :
    Ready (.opening lost inj current next differ baseline root attempts firstName) []
      (Exchange.opening attempts x y firstName published).reconciler := by
  have hgenuine := Cache.genuine_ofAttempts (H := H) attempts
  have hknown := Cache.known_ofAttempts attempts
  refine .poised ⟨?_, ?_, ?_, ?_, rfl, rfl, rfl, hknown y, rfl, rfl, rfl, rfl, rfl⟩ rfl
  · exact (fresh_create hgenuine hknown x firstName).attends.announces .digest
  · refine (orderly_create hgenuine hknown _ firstName ?_).announce next
    rintro d hd
    obtain rfl : x = d := Option.some.inj hd
    exact ⟨current, fun a ha => ha⟩
  · exact .before ⟨rfl, rfl, rfl, rfl⟩ rfl rfl rfl (fun _ => rfl)
  · have hpositive : 0 < max attempts 1 := le_max_right attempts 1
    refine ⟨rfl, hpositive, fun d => .empty id, rfl, le_refl _, fun d hd => (nomatch hd), fun d => ?_,
      .nil⟩
    exact iff_of_false Bool.false_ne_true List.not_mem_nil

end Opening

end Reconcile

import Reconcile.Proofs.History
import Reconcile.Proofs.Reconciler.Linking

/-! # Every pass comes to an end

Whatever state a reconciler is in, over any trees: if the references of its nodes go round in no
circle, a pass takes a last step. Opening a round takes a root off what is waiting, and what goes on
inside a round makes the load of its traversal smaller. -/

namespace Reconcile

namespace Reconciler

variable {H : Hashing} {agent : Agent} {r : Reconciler}

/-- Steps that are taken from here come to a last one. -/
inductive Terminates (H : Hashing) (agent : Agent) : Reconciler → Prop
  | last {r : Reconciler} {outcome : Outcome} (last : (r.step H agent).2 = some outcome) :
      Terminates H agent r
  | onward {r : Reconciler} (rest : Terminates H agent (r.step H agent).1) : Terminates H agent r

theorem Terminates.exists_last (h : Terminates H agent r) :
    ∃ n outcome,
      (∀ k < n, ((after H r (List.replicate k (.step agent))).step H agent).2 = none) ∧
      ((after H r (List.replicate n (.step agent))).step H agent).2 = some outcome := by
  induction h with
  | last last => exact ⟨0, _, fun k hk => (nomatch hk), last⟩
  | @onward r rest ih =>
      cases hfirst : (r.step H agent).2 with
      | some outcome => exact ⟨0, outcome, fun k hk => (nomatch hk), hfirst⟩
      | none =>
          obtain ⟨n, outcome, honward, hlast⟩ := ih
          refine ⟨n + 1, outcome, ?_, hlast⟩
          intro k hk
          cases k with
          | zero => exact hfirst
          | succ k => exact honward k (Nat.lt_of_succ_lt_succ hk)

/-- So far no step was the last, or an end is at hand. -/
theorem terminates_of_paced
    (h : ∀ r' outcome, Paced H agent r r' outcome → outcome = none → Terminates H agent r') :
    Terminates H agent r := by
  have hpaced := paced_step (H := H) agent r
  cases houtcome : (r.step H agent).2 with
  | some outcome => exact .last houtcome
  | none => exact .onward (h _ _ hpaced houtcome)

/-! ## Between two rounds -/

theorem terminates_of_idle (hphase : r.phase = .done) (hidle : r.hasWork = false) :
    Terminates H agent r := by
  have hlast : (r.step H agent).2 = some .idle := by simp [step, hphase, hidle]
  exact .last hlast

/-- The steps from every state with a smaller backlog come to an end. -/
def TerminatesBelow (H : Hashing) (agent : Agent) (k : Nat) : Prop :=
  ∀ r : Reconciler, r.Acyclic H → r.backlog < k → Terminates H agent r

theorem terminates_choosing {k : Nat} (hbelow : TerminatesBelow H agent k) (h : r.Acyclic H)
    (hk : r.backlog ≤ k) (hphase : r.phase = .choosing) : Terminates H agent r := by
  have hstep : (r.step H agent).1 = r.choose H := by simp only [step, hphase]
  refine .onward ?_
  rw [hstep]
  rcases choose_rests_or_opens (H := H) r with ⟨hdone, hidle⟩ | ⟨-, hless⟩
  · exact terminates_of_idle hdone hidle
  · exact hbelow _ (h.mono fun _ _ => links_choose) (Nat.lt_of_lt_of_le hless hk)

theorem terminates_done {k : Nat} (hbelow : TerminatesBelow H agent k) (h : r.Acyclic H)
    (hk : r.backlog ≤ k) (hphase : r.phase = .done) : Terminates H agent r := by
  cases hwork : r.hasWork with
  | false => exact terminates_of_idle hphase hwork
  | true =>
      have hstep : (r.step H agent).1 = { r with phase := .choosing } := by
        simp [step, hphase, hwork]
      refine .onward ?_
      rw [hstep]
      exact terminates_choosing hbelow (SameNodes.acyclic ⟨rfl, rfl⟩ h) hk rfl

/-- A round that is over leaves the backlog as it was. -/
theorem terminates_closeRound {k : Nat} (hbelow : TerminatesBelow H agent k) (h : r.Acyclic H)
    (hk : r.backlog ≤ k) : Terminates H agent (r.closeRound H) := by
  have hacyclic : (r.closeRound H).Acyclic H := h.mono fun _ _ => links_closeRound
  refine terminates_done hbelow hacyclic ?_ ?_
  · unfold closeRound
    split <;> exact hk
  · unfold closeRound
    split <;> rfl

theorem terminates_abandonRound {k : Nat} (hbelow : TerminatesBelow H agent k) (h : r.Acyclic H)
    (hk : r.backlog ≤ k) : Terminates H agent (r.abandonRound H) :=
  terminates_choosing hbelow (h.mono fun _ _ => links_abandonRound) hk rfl

/-! ## In a round -/

/-- A stage that cannot go on only looked and asked. -/
theorem terminates_gaveUp {k : Nat} {r' : Reconciler} (hbelow : TerminatesBelow H agent k)
    (h : r.Acyclic H) (hk : r.backlog ≤ k) (halts : Halts H agent r r') :
    Terminates H agent (r'.abandonRound H) := by
  obtain ⟨P, hconsults⟩ := halts.consults
  have hqueue := hconsults.fetches.queue
  refine terminates_abandonRound hbelow (hconsults.sameNodes.acyclic h) ?_
  unfold backlog
  rwa [hqueue]

/-- The steps of a traversal come to an end, because each leaves a smaller load. -/
theorem terminates_comparing {k : Nat} (hbelow : TerminatesBelow H agent k) (h : r.Acyclic H)
    (hk : r.backlog ≤ k) (hphase : r.phase = .comparing) : Terminates H agent r := by
  obtain ⟨rank, hrank, -⟩ := Cache.exists_rank h.cache
  obtain ⟨s, hs⟩ := Scale.exists_fits hrank r.baseline
  induction hload : r.traversal.load s using Nat.strong_induction_on generalizing r with
  | _ load ih =>
      refine terminates_of_paced ?_
      intro r' outcome hpaced houtcome
      cases hpaced with
      | chose phase => cases phase.symm.trans hphase
      | loaded phase loaded => cases phase.symm.trans hphase
      | waits phase consults => cases houtcome
      | went phase goes =>
          have hnodes := goes.sameNodes
          have hcontinues := goes.continues
          have hless := goes.load_lt hs
          rw [← hnodes.shown] at hrank
          rw [← hnodes.shown, ← hcontinues.baseline] at hs
          refine ih _ (hload ▸ hless) (hnodes.acyclic h) ?_ (hcontinues.phase.trans phase) hrank hs rfl
          unfold backlog
          rwa [hcontinues.queue]
      | closed phase next aside => exact terminates_closeRound hbelow h hk
      | halted halts idle => cases houtcome
      | gaveUp halts work => exact terminates_gaveUp hbelow h hk halts
      | faulted phase plan meets => cases houtcome
      | woke phase work => cases phase.symm.trans hphase
      | rested phase idle => cases houtcome

theorem terminates_loading {k : Nat} (hbelow : TerminatesBelow H agent k) (h : r.Acyclic H)
    (hk : r.backlog ≤ k) (hphase : r.phase = .loading) : Terminates H agent r := by
  refine terminates_of_paced ?_
  intro r' outcome hpaced houtcome
  cases hpaced with
  | chose phase => cases phase.symm.trans hphase
  | @loaded r' phase loaded =>
      obtain ⟨P, hconsults⟩ := loaded.consults
      have hqueue : r'.queue = r.queue := hconsults.fetches.queue
      have hnodes : SameNodes H r r' := hconsults.sameNodes
      refine terminates_comparing hbelow (SameNodes.acyclic ⟨hnodes.shown, hnodes.bodies⟩ h) ?_ rfl
      unfold backlog
      dsimp only
      rwa [hqueue]
  | waits phase consults => cases houtcome
  | went phase goes => cases phase.symm.trans hphase
  | closed phase next aside => cases phase.symm.trans hphase
  | halted halts idle => cases houtcome
  | gaveUp halts work => exact terminates_gaveUp hbelow h hk halts
  | faulted phase plan meets => cases houtcome
  | woke phase work => cases phase.symm.trans hphase
  | rested phase idle => cases houtcome

/-! ## A pass -/

/-- Steps come to an end, because every round takes a root off what is waiting. -/
theorem terminates_of_acyclic (agent : Agent) (h : r.Acyclic H) : Terminates H agent r := by
  induction hk : r.backlog using Nat.strong_induction_on generalizing r with
  | _ k ih =>
      have hbelow : TerminatesBelow H agent k := fun r' h' hless => ih _ hless h' rfl
      have hle := Nat.le_of_eq hk
      cases hphase : r.phase with
      | choosing => exact terminates_choosing hbelow h hle hphase
      | loading => exact terminates_loading hbelow h hle hphase
      | comparing => exact terminates_comparing hbelow h hle hphase
      | done => exact terminates_done hbelow h hle hphase

theorem Acyclic.paced {r' : Reconciler} {outcome : Option Outcome} (h : r.Acyclic H)
    (hr : Paced H agent r r' outcome) : r'.Acyclic H := by
  cases hr with
  | chose phase => exact h.mono fun _ _ => links_choose
  | @loaded r' phase loaded =>
      obtain ⟨P, hconsults⟩ := loaded.consults
      have hnodes : SameNodes H r r' := hconsults.sameNodes
      exact SameNodes.acyclic ⟨hnodes.shown, hnodes.bodies⟩ h
  | waits phase consults => exact consults.sameNodes.acyclic h
  | went phase goes => exact goes.sameNodes.acyclic h
  | closed phase next aside => exact h.mono fun _ _ => links_closeRound
  | halted halts idle =>
      obtain ⟨P, hconsults⟩ := halts.consults
      exact hconsults.sameNodes.acyclic h
  | gaveUp halts work =>
      obtain ⟨P, hconsults⟩ := halts.consults
      exact (hconsults.sameNodes.acyclic h).mono fun _ _ => links_abandonRound
  | @faulted c e phase plan meets =>
      have hplan := shown_plan (H := H) r.cache r.traversal
      rw [plan] at hplan
      have hnodes : SameNodes H r { r with cache := c, tally.faults := r.tally.faults + 1 } :=
        ⟨hplan, rfl⟩
      exact (hnodes.acyclic h).mono fun _ _ => links_abandonRound
  | woke phase work => exact SameNodes.acyclic ⟨rfl, rfl⟩ h
  | rested phase idle => exact h

theorem Acyclic.steps (h : r.Acyclic H) (n : Nat) :
    (after H r (List.replicate n (.step agent))).Acyclic H := by
  refine after_induction h ?_
  intro r' e he h'
  obtain rfl := List.eq_of_mem_replicate he
  exact h'.paced (paced_step agent r')

/-- In any state, if the references of the nodes at hand and of those in waiting bodies go round in no
circle, a pass ends after finitely many steps, whoever takes the requests. Nor is a search among the
nodes ever cut short in it: to go deeper would change no answer. -/
theorem pass_ends (r : Reconciler) (agent : Agent) (acyclic : r.Acyclic H) :
    (∃ n outcome,
      r.pass H agent =
        (after H r (.call :: List.replicate (n + 1) (.step agent)), some outcome)) ∧
    ∀ n c d name more,
      c.shown H = (after H r (.call :: List.replicate n (.step agent))).cache.shown H →
      Cache.searchTree H name (c.size + 1 + more) c d = c.search H d name := by
  have hcalled : (r.on H .call).Acyclic H := SameNodes.acyclic ⟨rfl, rfl⟩ acyclic
  refine ⟨?_, ?_⟩
  · obtain ⟨n, outcome, honward, hlast⟩ := (terminates_of_acyclic agent hcalled).exists_last
    exact ⟨n, outcome, pass_of_last agent r outcome n honward hlast⟩
  · intro n c d name more hshown
    refine Cache.search_eq ?_ more
    intro e he
    have hlinks : c.Links H = (after H r (.call :: List.replicate n (.step agent))).cache.Links H := by
      funext d e
      rw [Cache.Links, Cache.Links, hshown]
    rw [hlinks] at he
    exact (hcalled.steps n).cache e he

end Reconciler

namespace Sample

/-- The nodes of a root with a branch, and of a flat baseline, are all at hand when the pass begins. -/
def provided : Reconciler :=
  Reconciler.after Digest.mk (comparing (flat [3]))
    [.announce (root branching), fetched branching, fetched (flat [2]), fetched (flat [3])]

theorem acyclic_provided : provided.Acyclic Digest.mk :=
  Reconciler.acyclic_of_rank (fun d => if d = root branching then 1 else 0) (by decide +kernel)
    (fun _ hbody => nomatch hbody)

end Sample

namespace Reconciler

open Sample in
theorem pass_ends_provided : provided.Acyclic Digest.mk ∧
    ∃ n outcome, provided.pass Digest.mk .accepting =
      (after Digest.mk provided (.call :: List.replicate (n + 1) (.step .accepting)), some outcome) :=
  ⟨acyclic_provided, (pass_ends provided .accepting acyclic_provided).1⟩

end Reconciler

end Reconcile

import Reconcile.Proofs.Reconciler.Regular

/-! # Rounds that cannot go on

A round that cannot go on is kept as long as nothing waits. As soon as anything waits, be it a body
that is no node or a root that is known already, the round is given up, before anybody looks at what
waits. Only a root that is neither the baseline nor known gets a round instead; if none is waiting,
the pass ends idle, and what was left of the round is gone. -/

namespace Reconcile

namespace Reconciler

open Traversal

variable {H : Hashing} {agent : Agent} {r r' : Reconciler} {d : Digest}

/-- The stage that the round is in cannot go on: no node that it needs can be had. -/
def Stalled (H : Hashing) (agent : Agent) (r : Reconciler) : Prop :=
  r.phase = .loading ∧ (r.load H agent).2 = .stuck ∨
    r.phase = .comparing ∧ (r.stride H agent).2 = .stuck

/-- A root is waiting that is neither the baseline nor known. -/
def Newer (H : Hashing) (r : Reconciler) (d : Digest) : Prop :=
  r.Waiting H d ∧ some d ≠ r.baseline ∧ r.cache.known d = false

/-- A stalled round only looks and asks once more before it is kept or given up. -/
theorem Stalled.step (h : r.Stalled H agent) :
    ∃ r', Halts H agent r r' ∧ r.step H agent = r'.giveWay H := by
  rcases h with ⟨hphase, hstuck⟩ | ⟨hphase, hstuck⟩
  · have hload := loaded_load (H := H) agent r
    generalize hloaded : r.load H agent = loaded at hload hstuck
    obtain ⟨r', progress⟩ := loaded
    obtain rfl : progress = .stuck := hstuck
    refine ⟨r', .loading hphase hload, ?_⟩
    simp only [Reconciler.step, hphase, hloaded]
  · have hs := strode_stride (H := H) agent r
    generalize hstrode : r.stride H agent = strode at hs hstuck
    obtain ⟨r', stride⟩ := strode
    obtain rfl : stride = .stuck := hstuck
    refine ⟨r', .comparing hphase hs, ?_⟩
    simp only [Reconciler.step, hphase, hstrode]

theorem hasWork_eq_false_iff (hawaits : r.awaitsBaseline = false) :
    r.hasWork = false ↔ r.queue.roots = [] ∧ r.queue.bodies = [] := by
  simp [hasWork, hawaits, and_comm]

/-- Giving a round up makes no waiting root newer. -/
theorem Newer.of_abandonRound (h : (r.abandonRound H).Newer H d) : r.Newer H d := by
  obtain ⟨hwaits, hbaseline, hknown⟩ := h
  obtain ⟨hkeeps, -⟩ := Cache.sift_sub (H := H) r.cache r.baseline r.remembered
  refine ⟨hwaits, ?_, (hkeeps.known d).symm.trans hknown⟩
  intro hd
  refine hbaseline ?_
  simp only [abandonRound, ← hd, Option.some_or]

theorem Newer.of_fetches (hf : Fetches H r r') (h : r'.Newer H d) : r.Newer H d := by
  unfold Newer Waiting at h ⊢
  rwa [hf.queue, hf.baseline, hf.known] at h

/-- A root whose round is opened is newer, if no baseline was awaited. -/
theorem Opens.newer (h : Opens H r r' d) (hturned : Turned H r r') (hawaits : r.awaitsBaseline = false) :
    r.Newer H d := by
  refine ⟨h.waiting, ?_, h.unknown⟩
  rcases hturned.baseline with ⟨-, hbaseline⟩ | ⟨hawaited, -⟩
  · exact hbaseline ▸ h.differs
  · cases hawaits.symm.trans hawaited

/-! ## What is left of a pass -/

theorem steps_of_choosing (hphase : r.phase = .choosing) :
    steps H agent r = steps H agent (r.choose H) :=
  loop_of_none (by simp only [step, hphase])

theorem steps_of_done (hphase : r.phase = .done) (hidle : r.hasWork = false) :
    steps H agent r = some (r, .idle) :=
  loop_of_some (by simp [step, hphase, hidle])

/-- A stalled round is kept just as long as nothing waits. If it is given up, a round follows only for
a root that is newer; if none is, the pass ends idle without a round. -/
theorem stalled_round_given_up {c : Cache} (hgenuine : c.Genuine H) (start : Origin)
    (firstName : Option Name) (es : List Event) (hr : r = after H (create c start firstName) es)
    (hstalled : r.Stalled H agent) :
    ∃ r', Fetches H r r' ∧ SameRound r r' ∧
      (r.queue.roots = [] ∧ r.queue.bodies = [] → steps H agent r = some (r', .stuck)) ∧
      (¬ (r.queue.roots = [] ∧ r.queue.bodies = []) →
        steps H agent r = steps H agent ((r'.abandonRound H).choose H) ∧
        ((r'.abandonRound H).choose H).tally.aborted = r.tally.aborted + 1 ∧
        (∀ d, ((r'.abandonRound H).choose H).round = some d → r.Newer H d) ∧
        ((∀ d, ¬ r.Newer H d) → ((r'.abandonRound H).choose H).round = none ∧
          steps H agent r = some ((r'.abandonRound H).choose H, .idle))) := by
  have hregular : r.Regular H := hr ▸ (regular_create hgenuine start firstName).after es
  obtain ⟨r', hhalts, hstep⟩ := hstalled.step
  obtain ⟨P, hconsults⟩ := hhalts.consults
  have hf := hconsults.fetches
  obtain ⟨y, hround⟩ := hregular.exists_round hhalts.phase
  have hawaits := hregular.awaits_false hround
  have hwork : r'.hasWork = false ↔ r.queue.roots = [] ∧ r.queue.bodies = [] := by
    rw [hasWork_eq_false_iff (hf.awaitsBaseline.trans hawaits), hf.queue]
  refine ⟨r', hf, hconsults.sameRound, ?_, ?_⟩
  · intro hempty
    refine loop_of_some ?_
    rw [hstep, giveWay, hwork.mpr hempty]
    rfl
  · intro hwaiting
    have hwork : r'.hasWork = true := by simpa using mt hwork.mp hwaiting
    have habandon : r.step H agent = (r'.abandonRound H, none) := by
      rw [hstep, giveWay, hwork]
      rfl
    have hsteps : steps H agent r = steps H agent ((r'.abandonRound H).choose H) :=
      (loop_of_none habandon).trans (steps_of_choosing rfl)
    have hregular' := (hregular.fetches hf).abandonRound (hf.round.trans hround)
    have hawaits' : (r'.abandonRound H).awaitsBaseline = false := hf.awaitsBaseline.trans hawaits
    have hturned := turned_choose hregular'.genuine rfl
    have hnewer : ∀ d, Opens H (r'.abandonRound H) ((r'.abandonRound H).choose H) d →
        r.Newer H d := fun d opens => (opens.newer hturned hawaits').of_abandonRound.of_fetches hf
    refine ⟨hsteps, ?_, ?_, ?_⟩
    · rw [hturned.tally]
      exact congrArg (· + 1) hconsults.sameRound.2
    · exact fun d hd => hnewer d (hturned.opens hd)
    · intro hnone
      rcases hturned.turn with idles | ⟨best, opens⟩
      · exact ⟨idles.round, hsteps.trans (steps_of_done idles.phase idles.idle)⟩
      · exact absurd (hnewer best opens) (hnone best)

end Reconciler

namespace Sample

/-- A branch of the root is given up, so its round stalls. Then the baseline is announced once
more. -/
def stalling : List Event :=
  [.announce (root branching), .call] ++ stepping 2 ++ [fetched branching] ++ stepping 1 ++
    [.complete (root (flat [2])) (.error (.notFound (root (flat [2])))), fetched (flat [3])] ++
    stepping 7 ++ [.announce (root (flat [3]))]

/-- A reconciler with the baseline `{3}` in the midst of the stalled round. -/
def stalled : Reconciler :=
  Reconciler.after Digest.mk (.create (.ofAttempts 1) (.root (root (flat [3]))) none) stalling

end Sample

namespace Reconciler

open Sample in
/-- The stalled round is given up for the baseline itself, and the pass ends idle. -/
theorem stalled_round_given_up_stalling :
    stalled.Stalled Digest.mk .accepting ∧ stalled.round = some (root branching) ∧
      stalled.queue.roots ≠ [] ∧ (∀ d, ¬ stalled.Newer Digest.mk d) ∧
      ∃ r', r'.round = none ∧ r'.tally.aborted = stalled.tally.aborted + 1 ∧
        steps Digest.mk .accepting stalled = some (r', .idle) := by
  have hstalled : stalled.Stalled Digest.mk .accepting := .inr (by decide +kernel)
  have hwaiting : stalled.queue.roots = [root (flat [3])] ∧ stalled.queue.bodies = [] := by
    decide +kernel
  have hbaseline : stalled.baseline = some (root (flat [3])) := by decide +kernel
  have hnone : ∀ d, ¬ stalled.Newer Digest.mk d := by
    rintro d ⟨hd, hdiffers, -⟩
    rcases hd with hd | ⟨body, hbody, -⟩
    · rw [hwaiting.1, List.mem_singleton] at hd
      exact hdiffers (hd ▸ hbaseline.symm)
    · rw [hwaiting.2] at hbody
      cases hbody
  obtain ⟨r', -, -, -, hgivenUp⟩ := stalled_round_given_up (r := stalled)
    (Cache.genuine_ofAttempts 1) (.root (root (flat [3]))) none stalling rfl hstalled
  obtain ⟨-, haborted, -, hidle⟩ := hgivenUp (by simp [hwaiting.1])
  exact ⟨hstalled, by decide +kernel, by simp [hwaiting.1], hnone, _, (hidle hnone).1, haborted,
    (hidle hnone).2⟩

end Reconciler

end Reconcile

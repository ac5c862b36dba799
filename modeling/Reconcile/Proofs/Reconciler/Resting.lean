import Reconcile.Proofs.Reconciler.Asking
import Reconcile.Proofs.Reconciler.Requests

/-! # Where a pass comes to rest

A pass ends while it loads, at a position of either tree, or among the branches that were put aside.
Each time it has asked for all that it can ask for. So if no request was refused, one more step would
look at the same nodes, ask for them in vain and change nothing. -/

namespace Reconcile.Reconciler

variable {H : Hashing} {agent : Agent} {r r' : Reconciler} {d : Digest} {o : Outcome}

/-! ## Where a pass rests -/

/-- A step would end a pass with an outcome and change nothing. -/
inductive AtRest (H : Hashing) (r : Reconciler) : Outcome → Prop
  | idle (phase : r.phase = .done) (idle : r.hasWork = false) : AtRest H r .idle
  /-- The root of the round is not there. -/
  | root {root : Digest} {o : Outcome} (phase : r.phase = .loading) (round : r.round = some root)
      (blocks : r.cache.Blocks H root o) (idle : o = .stuck → r.hasWork = false) : AtRest H r o
  /-- Nodes that the root refers to are not there. -/
  | refs {root : Digest} {n : Node} (phase : r.phase = .loading) (round : r.round = some root)
      (seen : r.cache.Seen H root (.present n)) (met : ∀ d ∈ n.refs, r.cache.Met d)
      (expects : n.refs.any r.cache.expects = true) : AtRest H r .waiting
  /-- The node at the position of the next tree is not there; above it a branch would be put aside
  that failed. -/
  | next {f : Frame} {above : List Frame} {o : Outcome} (phase : r.phase = .comparing)
      (next : r.traversal.next = f :: above) (unresolved : f.node = none)
      (unknown : r.cache.known f.digest = false) (blocks : r.cache.Blocks H f.digest o)
      (stays : above = [] ∨ r.cache.Seen H f.digest .missing)
      (idle : o = .stuck → r.hasWork = false) : AtRest H r o
  /-- The node at the position of the current tree is not there. -/
  | current {g : Frame} {above : List Frame} {o : Outcome} (phase : r.phase = .comparing)
      (left : r.traversal.next ≠ []) (ready : Traversal.Ready r.traversal.next)
      (current : r.traversal.current = g :: above) (unresolved : g.node = none)
      (blocks : r.cache.Blocks H g.digest o) (idle : o = .stuck → r.hasWork = false) : AtRest H r o
  /-- Only branches that were put aside are left. -/
  | aside {o : Outcome} (phase : r.phase = .comparing) (next : r.traversal.next = [])
      (left : r.traversal.aside ≠ []) (blocks : r.cache.BlocksEach H r.traversal.aside o)
      (idle : o = .stuck → r.hasWork = false) : AtRest H r o

theorem load_of_blocks {root : Digest} (agent : Agent) (round : r.round = some root)
    (h : r.cache.Blocks H root o) :
    r.load H agent = (r, if o = .waiting then .waiting else .stuck) := by
  cases h with
  | awaited hawaited =>
      have hawait := await_of_awaited agent hawaited
      rcases hawaited.1 with hseen | hseen <;> simp [load, round, look_of_seen hseen, hawait]
  | lost hseen => simp [load, round, look_of_seen hseen]

theorem enterCurrent_of_blocks {g : Frame} (above : List Frame)
    (h : r.cache.Blocks H g.digest o) :
    r.enterCurrent H agent g above = (r, if o = .waiting then .waiting else .stuck) := by
  cases h with
  | awaited hawaited =>
      have hawait := await_of_awaited agent hawaited
      rcases hawaited.1 with hseen | hseen <;> simp [enterCurrent, look_of_seen hseen, hawait]
  | lost hseen => simp [enterCurrent, look_of_seen hseen]

theorem enterNext_of_blocks {f : Frame} {above : List Frame}
    (unknown : r.cache.known f.digest = false) (h : r.cache.Blocks H f.digest o)
    (stays : above = [] ∨ r.cache.Seen H f.digest .missing) :
    r.enterNext H agent f above = (r, if o = .waiting then .waiting else .stuck) := by
  cases h with
  | awaited hawaited =>
      have hawait := await_of_awaited agent hawaited
      rcases stays with rfl | hmissing
      · rcases hawaited.1 with hseen | hseen <;>
          simp [enterNext, unknown, look_of_seen hseen, hawait]
      · simp [enterNext, unknown, look_of_seen hmissing, hawait]
  | lost hseen =>
      rcases stays with rfl | hmissing
      · simp [enterNext, unknown, look_of_seen hseen]
      · cases hseen.snd.symm.trans hmissing.snd

theorem step_of_stride (phase : r.phase = .comparing) (ho : o = .waiting ∨ o = .stuck)
    (idle : o = .stuck → r.hasWork = false)
    (h : r.stride H agent = (r, if o = .waiting then .waiting else .stuck)) :
    r.step H agent = (r, some o) := by
  rcases ho with rfl | rfl
  · simp [step, phase, h]
  · simp [step, phase, h, giveWay, idle rfl]

/-- One more step changes nothing and has the same outcome, whoever is asked. -/
theorem AtRest.step (h : AtRest H r o) (agent : Agent) : r.step H agent = (r, some o) := by
  cases h with
  | idle phase idle => simp [Reconciler.step, phase, idle]
  | root phase round blocks idle =>
      have hload := load_of_blocks agent round blocks
      rcases blocks.outcome with rfl | rfl
      · simp [Reconciler.step, phase, hload]
      · simp [Reconciler.step, phase, hload, giveWay, idle rfl]
  | refs phase round seen met expects =>
      have hload : r.load H agent = (r, .waiting) := by
        simp [load, round, look_of_seen seen, requestEach_of_met false met, expects]
      simp [Reconciler.step, phase, hload]
  | next phase next unresolved unknown blocks stays idle =>
      refine step_of_stride phase blocks.outcome idle ?_
      have hnode : Frame.hasNode _ = false := congrArg Option.isSome unresolved
      simp only [stride, next, hnode, Bool.not_false, if_true]
      exact enterNext_of_blocks unknown blocks stays
  | current phase left ready current unresolved blocks idle =>
      refine step_of_stride phase blocks.outcome idle ?_
      obtain ⟨f, fs, hnext⟩ := List.exists_cons_of_ne_nil left
      obtain ⟨hnode, hthrough⟩ := ready f (by rw [hnext]; rfl)
      have hnode' : Frame.hasNode _ = false := congrArg Option.isSome unresolved
      simp only [stride, hnext, hnode, hthrough, current, hnode', Bool.not_true, Bool.not_false,
        Bool.false_eq_true, if_false, if_true]
      exact enterCurrent_of_blocks _ blocks
  | aside phase next left blocks idle =>
      refine step_of_stride phase blocks.outcome idle ?_
      have hleft : r.traversal.aside.isEmpty = false := by simpa using left
      simpa [stride, next, resume, hleft] using resumeFrom_of_blocks blocks false

/-! ## A pass that ends comes to rest -/

theorem seen_look {f : Cache.Finding} (h : (r.look H d).2 = f) :
    (r.look H d).1.cache.Seen H d f := by
  have hfound : (r.cache.look H d).2 = f := h
  exact hfound ▸ r.cache.seen_look d

/-- A node that is not there was given up, or is waited for if the request is not refused. -/
inductive Misses (H : Hashing) (agent : Agent) (r : Reconciler) (d : Digest) :
    Reconciler → Outcome → Prop
  | lost (found : (r.look H d).2 = .spoilt true) : Misses H agent r d (r.look H d).1 .stuck
  | wants (found : r.cache.Wants H d) :
      Misses H agent r d ((r.look H d).1.await agent d) .waiting

theorem Misses.consults (h : Misses H agent r d r' o) :
    Consults H agent (fun _ => True) (r.look H d).1 r' := by
  cases h with
  | lost found => exact .refl
  | wants found => exact .ask .refl trivial

theorem Misses.blocks (h : Misses H agent r d r' o) (agreed : r'.refusals ≤ r.refusals) :
    r'.cache.Blocks H d o := by
  cases h with
  | lost found => exact .lost (seen_look found)
  | wants found => exact .awaited (awaited_await found agreed)

/-- What a pass comes to where loading does not come through. -/
def Progress.outcome : Progress → Outcome
  | .waiting => .waiting
  | .through | .stuck => .stuck

/-- What a pass comes to where the traversal does not go on. -/
def Stride.outcome : Stride → Outcome
  | .waiting => .waiting
  | .onward | .through | .stuck | .fault _ => .stuck

/-- What loading comes to: it asks for what the root refers to, or the root is not there. -/
theorem load_cases {root : Digest} (agent : Agent) (round : r.round = some root) :
    (∃ n, (r.look H root).2 = .present n ∧
        (r.load H agent).1 = (requestEach agent n.refs false (r.look H root).1).1 ∧
        (r.load H agent).2 =
          if (requestEach agent n.refs false (r.look H root).1).2 then .waiting else .through) ∨
      Misses H agent r root (r.load H agent).1 (r.load H agent).2.outcome := by
  unfold load
  rw [round]
  dsimp only
  split
  · rename_i r' n hlook
    obtain ⟨rfl, hfound⟩ := look_eq hlook
    exact .inl ⟨n, hfound, rfl, rfl⟩
  · rename_i r' hlook
    obtain ⟨rfl, hfound⟩ := look_eq hlook
    exact .inr (.lost hfound)
  · rename_i r' finding hpresent hspoilt hlook
    obtain ⟨rfl, hfound⟩ := look_eq hlook
    exact .inr (.wants (wants_of_look hfound hpresent hspoilt))

theorem enterCurrent_cases (g : Frame) (above : List Frame)
    (hstops : (r.enterCurrent H agent g above).2 ≠ .onward) :
    Misses H agent r g.digest (r.enterCurrent H agent g above).1
      (r.enterCurrent H agent g above).2.outcome := by
  unfold enterCurrent at hstops ⊢
  split at hstops
  · exact absurd rfl hstops
  · rename_i r' hlook
    obtain ⟨rfl, hfound⟩ := look_eq hlook
    exact .lost hfound
  · rename_i r' finding hpresent hspoilt hlook
    obtain ⟨rfl, hfound⟩ := look_eq hlook
    exact .wants (wants_of_look hfound hpresent hspoilt)

theorem enterNext_cases (f : Frame) (above : List Frame)
    (hstops : (r.enterNext H agent f above).2 ≠ .onward) :
    r.cache.known f.digest = false ∧ (above = [] ∨ (r.look H f.digest).2 = .missing) ∧
      Misses H agent r f.digest (r.enterNext H agent f above).1
        (r.enterNext H agent f above).2.outcome := by
  unfold enterNext at hstops ⊢
  split at hstops
  · exact absurd rfl hstops
  · rename_i hknown
    rw [if_neg hknown]
    refine ⟨by simpa using hknown, ?_⟩
    split at hstops
    · exact absurd rfl hstops
    · rename_i r' hlook
      obtain ⟨rfl, hfound⟩ := look_eq hlook
      exact ⟨.inr hfound, .wants (.inl hfound)⟩
    · rename_i r' givenUp hlook
      obtain ⟨rfl, hfound⟩ := look_eq hlook
      split at hstops
      · rename_i habove
        rw [if_pos habove]
        refine ⟨.inl (List.isEmpty_iff.mp habove), ?_⟩
        cases givenUp with
        | true => exact .lost hfound
        | false => exact .wants (.inr hfound)
      · exact absurd rfl hstops

/-- Where loading does not come through, a pass would rest. -/
theorem rests_load (agent : Agent) (phase : r.phase = .loading)
    (agreed : (r.load H agent).1.refusals ≤ r.refusals) (hstops : (r.load H agent).2 ≠ .through)
    (idle : (r.load H agent).2.outcome = .stuck → (r.load H agent).1.hasWork = false) :
    (r.load H agent).1.AtRest H (r.load H agent).2.outcome := by
  have hfetches := fetches_load (H := H) agent r
  have hphase := hfetches.phase.trans phase
  cases hround : r.round with
  | none => simp [load, hround] at hstops
  | some root =>
      have hround' := hfetches.round.trans hround
      rcases load_cases (H := H) agent hround with ⟨n, hfound, hstate, hprogress⟩ | hmisses
      · rw [hstate] at agreed
        obtain ⟨hmet, hwaiting⟩ := requestEach_agreed n.refs false agreed
        have hconsults := (consults_requestEach (H := H) agent n.refs false
          (.refl (r := (r.look H root).1)) (P := (· ∈ n.refs)) (fun _ => id)
          (fun h => nomatch h)).1
        have hexpects : (requestEach agent n.refs false (r.look H root).1).2 = true := by
          by_contra hnone
          exact hstops (hprogress.trans (if_neg hnone))
        rw [hprogress, if_pos hexpects]
        rw [hstate] at hphase hround' ⊢
        exact .refs hphase hround' (hconsults.seen (seen_look hfound)) hmet
          (by simpa [hexpects] using hwaiting.symm)
      · exact .root hphase hround' (hmisses.blocks agreed) idle

theorem act_goes_on (r : Reconciler) : (r.act H).2 ≠ .waiting ∧ (r.act H).2 ≠ .stuck := by
  unfold act
  split <;> simp

/-- Where the traversal waits or cannot go on, a pass would rest. -/
theorem rests_stride (agent : Agent) (phase : r.phase = .comparing)
    (agreed : (r.stride H agent).1.refusals ≤ r.refusals)
    (hstops : (r.stride H agent).2 = .waiting ∨ (r.stride H agent).2 = .stuck)
    (idle : (r.stride H agent).2.outcome = .stuck → (r.stride H agent).1.hasWork = false) :
    (r.stride H agent).1.AtRest H (r.stride H agent).2.outcome := by
  have hfetches : Fetches H r (r.stride H agent).1 := by
    have hstrode := strode_stride (H := H) agent r
    generalize r.stride H agent = strode at hstrode hstops
    obtain ⟨r', stride⟩ := strode
    cases hstrode with
    | onward goes => simp at hstops
    | through next aside => simp at hstops
    | waiting waits => exact waits.consults.fetches
    | exhausted next left consults missed => exact consults.fetches
    | lostRoot next unresolved missed => exact fetches_look _ _
    | lostCurrent current unresolved missed => exact fetches_look _ _
    | faulted plan meets => simp at hstops
  have hphase := hfetches.phase.trans phase
  have htraversal := hfetches.traversal
  have hgoes : (r.stride H agent).2 ≠ .onward := by
    rcases hstops with h | h <;> rw [h] <;> exact fun h => nomatch h
  have hacts : r.stride H agent ≠ r.act H := by
    intro hact
    rw [hact] at hstops
    exact hstops.elim (act_goes_on r).1 (act_goes_on r).2
  cases hnext : r.traversal.next with
  | nil =>
      cases haside : r.traversal.aside.isEmpty with
      | true => simp [stride, hnext, resume, haside] at hstops
      | false =>
          have hstride : r.stride H agent = resumeFrom H agent r.traversal.aside false r := by
            simp [stride, hnext, resume, haside]
          rw [hstride] at hgoes agreed
          obtain ⟨o, hblocks, ho⟩ := resumeFrom_agreed _ false hgoes agreed
          rw [← hstride] at hblocks ho
          rw [← htraversal] at hblocks
          have houtcome : (r.stride H agent).2.outcome = o := by
            rw [ho]
            rcases hblocks.outcome with rfl | rfl <;> rfl
          rw [houtcome] at idle ⊢
          exact .aside hphase (htraversal ▸ hnext) (by simpa [htraversal] using haside) hblocks idle
  | cons f fs =>
      cases hnode : f.hasNode with
      | false =>
          have hstride : r.stride H agent = r.enterNext H agent f fs := by
            simp [stride, hnext, hnode]
          rw [hstride] at hgoes
          obtain ⟨hunknown, habove, hmisses⟩ := enterNext_cases f fs hgoes
          rw [← hstride] at hmisses
          refine .next hphase (htraversal ▸ hnext) (Frame.hasNode_eq_false hnode) ?_
            (hmisses.blocks agreed) ?_ idle
          · rw [hfetches.keeps.known, hunknown]
          · exact habove.imp_right (fun hmissing => hmisses.consults.seen (seen_look hmissing))
      | true =>
          cases hthrough : f.isThrough with
          | true => simp [stride, hnext, hnode, hthrough] at hgoes
          | false =>
              have hleft : (r.stride H agent).1.traversal.next ≠ [] := by
                rw [htraversal, hnext]
                exact List.cons_ne_nil f fs
              have hready : Traversal.Ready (r.stride H agent).1.traversal.next := by
                rw [htraversal, hnext]
                intro f' hf'
                obtain rfl := Option.some.inj hf'
                exact ⟨hnode, hthrough⟩
              cases hcurrent : r.traversal.current with
              | nil => exact absurd (by simp [stride, hnext, hnode, hthrough, hcurrent]) hacts
              | cons g gs =>
                  cases hnode' : g.hasNode with
                  | false =>
                      have hstride : r.stride H agent = r.enterCurrent H agent g gs := by
                        simp [stride, hnext, hnode, hthrough, hcurrent, hnode']
                      rw [hstride] at hgoes
                      have hmisses := enterCurrent_cases g gs hgoes
                      rw [← hstride] at hmisses
                      exact .current hphase hleft hready (htraversal ▸ hcurrent)
                        (Frame.hasNode_eq_false hnode') (hmisses.blocks agreed) idle
                  | true =>
                      cases hthrough' : g.isThrough with
                      | true =>
                          simp [stride, hnext, hnode, hthrough, hcurrent, hnode', hthrough'] at hgoes
                      | false =>
                          refine absurd ?_ hacts
                          simp [stride, hnext, hnode, hthrough, hcurrent, hnode', hthrough']

/-- A stage that cannot go on ends a pass only if there is no other root to turn to. -/
theorem giveWay_eq_some (h : r.giveWay H = (r', some o)) :
    r' = r ∧ o = .stuck ∧ r.hasWork = false := by
  unfold giveWay at h
  split at h
  · cases h
  · rename_i hidle
    cases h
    exact ⟨rfl, rfl, by simpa using hidle⟩

/-- If no request of it is refused, the last step of a pass comes to rest, unless a tree was
malformed. -/
theorem rests_step (h : r.step H agent = (r', some o)) (ho : o ≠ .malformed)
    (agreed : r'.refusals ≤ r.refusals) : r'.AtRest H o := by
  unfold step at h
  split at h
  · cases h
  · rename_i hphase
    have hload := rests_load (H := H) agent hphase
    generalize r.load H agent = loaded at h hload
    obtain ⟨r₁, progress⟩ := loaded
    cases progress with
    | through => cases h
    | waiting =>
        cases h
        exact hload agreed (fun h => nomatch h) (fun h => nomatch h)
    | stuck =>
        obtain ⟨rfl, rfl, hidle⟩ := giveWay_eq_some h
        exact hload agreed (fun h => nomatch h) (fun _ => hidle)
  · rename_i hphase
    have hstride := rests_stride (H := H) agent hphase
    generalize r.stride H agent = strode at h hstride
    obtain ⟨r₁, stride⟩ := strode
    cases stride with
    | onward => cases h
    | through => cases h
    | waiting =>
        cases h
        exact hstride agreed (.inl rfl) (fun h => nomatch h)
    | stuck =>
        obtain ⟨rfl, rfl, hidle⟩ := giveWay_eq_some h
        exact hstride agreed (.inr rfl) (fun _ => hidle)
    | fault e =>
        cases h
        exact absurd rfl ho
  · rename_i hphase
    split at h
    · cases h
    · rename_i hidle
      cases h
      exact .idle hphase (by simpa using hidle)

/-! ## Passes -/

theorem Strode.refusals_le {stride : Stride} (h : Strode H agent r r' stride) :
    r.refusals ≤ r'.refusals := by
  obtain ⟨r₁, hconsults, hmarks⟩ := h.marks
  have hsame : r'.refusals = r₁.refusals := by rw [refusals, refusals, hmarks.asked, hmarks.accepted]
  exact hsame ▸ hconsults.refusals_le

theorem refusals_le_step (agent : Agent) (r : Reconciler) :
    r.refusals ≤ (r.step H agent).1.refusals := by
  have hpaced := paced_step (H := H) agent r
  generalize (r.step H agent).1 = r', (r.step H agent).2 = outcome at hpaced ⊢
  cases hpaced with
  | chose phase => rw [refusals, refusals, (journal_tally_choose r).1]
  | loaded phase loaded =>
      obtain ⟨P, hconsults⟩ := loaded.consults
      exact hconsults.refusals_le
  | waits phase consults => exact consults.refusals_le
  | went phase goes => exact (Strode.onward goes).refusals_le
  | closed phase next aside =>
      unfold closeRound
      split <;> exact le_refl _
  | halted halts idle =>
      obtain ⟨P, hconsults⟩ := halts.consults
      exact hconsults.refusals_le
  | gaveUp halts work =>
      obtain ⟨P, hconsults⟩ := halts.consults
      exact hconsults.refusals_le
  | faulted phase plan meets => exact le_refl _
  | woke phase work => exact le_refl _
  | rested phase idle => exact le_refl _

/-- If no request of it is refused, a pass comes to rest, unless a tree was malformed. -/
theorem rests_pass (h : r.pass H agent = (r', some o)) (ho : o ≠ .malformed)
    (agreed : r'.refusals ≤ r.refusals) : r'.AtRest H o := by
  obtain ⟨n, hlast⟩ := last_of_pass h
  refine rests_step hlast ho (agreed.trans ?_)
  refine after_induction (P := fun r₁ => r.refusals ≤ r₁.refusals) (le_refl _) ?_
  intro r₁ e he hr₁
  rcases List.mem_cons.mp he with rfl | he
  · exact hr₁
  · obtain rfl := List.eq_of_mem_replicate he
    exact hr₁.trans (refusals_le_step agent r₁)

/-- To count a pass changes nothing about where one rests. -/
theorem AtRest.call (h : r.AtRest H o) (runs : Nat) : AtRest H { r with tally.runs := runs } o := by
  cases h with
  | idle phase idle => exact .idle phase idle
  | root phase round blocks idle => exact .root phase round blocks idle
  | refs phase round seen met expects => exact .refs phase round seen met expects
  | next phase next unresolved unknown blocks stays idle =>
      exact .next phase next unresolved unknown blocks stays idle
  | current phase left ready current unresolved blocks idle =>
      exact .current phase left ready current unresolved blocks idle
  | aside phase next left blocks idle => exact .aside phase next left blocks idle

/-- A pass of a reconciler at rest changes nothing but their count. -/
theorem AtRest.pass (h : r.AtRest H o) (agent : Agent) :
    r.pass H agent = ({ r with tally.runs := r.tally.runs + 1 }, some o) := by
  have hsteps := loop_of_some ((h.call (r.tally.runs + 1)).step agent)
  unfold Reconciler.pass steps
  dsimp only
  rw [hsteps]

end Reconcile.Reconciler

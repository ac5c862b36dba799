import Reconcile.Proofs.Reconciler.Regular
import Reconcile.Proofs.Reconciler.Requests
import Reconcile.Proofs.Traversal.Alone

/-! # A reconciler that surveys one tree

It starts from nothing, one root is announced to it, and every fetch brings the node that was asked for.
Nothing is assumed of the order of the names, of the ranges or of shared subtrees. Each step gets on with
the row of the tree, until the row is through or an entry is out of order. -/

namespace Reconcile

open Reconciler Traversal

variable {H : Hashing}

/-- A tree that is compared with nothing, the row in which it is read, and the longest front of the row
that is in order. It would take `limit` failures to give a node up. -/
structure Survey (H : Hashing) where
  y : Digest
  row : List Entry
  front : List Entry
  limit : Nat
  inj : Function.Injective H
  whole : Whole H y
  reading : Reading H y row
  longest : Front front row

/-- With nothing known beside the baseline, every name that comes next is recorded. -/
theorem Reconciler.record_of_extra {r : Reconciler} (hextra : r.extra = none) (a : Name) :
    (r.record a).journal.recorded = r.journal.recorded ++ [a] ∧ (r.record a).cache = r.cache ∧
      (r.record a).traversal = r.traversal := by
  simp only [record, hextra, Option.any_none, Bool.false_eq_true, if_false, deliver]
  split <;> exact ⟨rfl, rfl, rfl⟩

namespace Survey

variable {s : Survey H} {owed owed' : List Digest} {start start' : Nat} {P : Digest → Prop}
  {passed passed' : List Entry} {r r' : Reconciler} {d : Digest} {f : Frame} {fs : List Frame}

/-- A node that may be needed. -/
def Reaches (s : Survey H) (d : Digest) : Prop := Leads H (fun _ => False) (.ref s.y) (.ref d)

/-- The requests of a reconciler none of whose fetches fails. -/
abbrev Supplies (s : Survey H) (owed : List Digest) (start : Nat) (r : Reconciler) : Prop :=
  r.Supplied H (fun _ => False) (fun _ => False) s.Reaches s.limit owed start

/-- The tree is being walked, and the first entries of its row have been passed. -/
structure Going (s : Survey H) (owed : List Digest) (start : Nat) (passed : List Entry)
    (r : Reconciler) : Prop where
  regular : r.Regular H
  supplied : s.Supplies owed start r
  round : r.round = some s.y
  queue : r.queue = { active := some s.y }
  baseline : r.baseline = none
  extra : r.extra = none
  partway : Partway H s.y s.row passed r.cache.known r.traversal
  log : r.journal.recorded = passed.map Entry.name
  completed : r.tally.completed = 0
  aborted : r.tally.aborted = 0
  faults : r.tally.faults = 0

/-- What became of the tree. Either all of its row is in order, and its root is the baseline now; or the
round was given up at the first entry that is not. -/
inductive Verdict (y : Digest) (front row : List Entry) (r : Reconciler) : Outcome → Prop
  | idle (whole : front = row) (recorded : r.journal.recorded = front.map Entry.name)
      (round : r.round = none) (baseline : r.baseline = some y) (completed : r.tally.completed = 1)
      (aborted : r.tally.aborted = 0) (faults : r.tally.faults = 0) : Verdict y front row r .idle
  | malformed (proper : front ≠ row) (recorded : r.journal.recorded = front.map Entry.name)
      (round : r.round = none) (completed : r.tally.completed = 0) (aborted : r.tally.aborted = 1)
      (faults : r.tally.faults = 1) : Verdict y front row r .malformed

/-- The round is over, and nothing is left to do. -/
structure Over (s : Survey H) (r : Reconciler) (outcome : Outcome) : Prop where
  queue : r.queue = {}
  awaits : r.awaitsBaseline = false
  phase : r.phase = .choosing ∨ r.phase = .done
  nodup : r.journal.asked.Nodup
  scope : ∀ d ∈ r.journal.asked, s.Reaches d
  verdict : Verdict s.y s.front s.row r outcome

/-! ## Steps of the traversal -/

namespace Going

theorem tree (h : s.Going owed start passed r) (hnext : r.traversal.next = f :: fs) :
    ∃ l, Tree H (fun _ _ => True) f.digest l := by
  obtain ⟨l, hl⟩ := s.whole
  exact hl.of_leads s.inj (h.partway.frames f (hnext ▸ List.mem_cons_self)).1.leads

theorem reaches (h : s.Going owed start passed r) (hd : r.traversal.Mentions d) : s.Reaches d := by
  rcases hd with ⟨f, hf, rfl⟩ | ⟨g, hg, -⟩ | hd
  · exact (h.partway.frames f hf).1.leads
  · rw [h.partway.current] at hg
    cases hg
  · rw [h.partway.aside] at hd
    cases hd

/-- What was found so far is a front in order. -/
theorem passed_front (h : s.Going owed start passed r) : passed <+: s.front := by
  obtain ⟨done, rest, hrow, -⟩ := h.partway.rest
  exact s.longest.longest passed ⟨rest, hrow.symm⟩ h.partway.inOrder

theorem continues (h : s.Going owed start passed r) (hc : Continues r r') (hregular : r'.Regular H)
    (hsupplied : s.Supplies owed' start' r')
    (hpartway : Partway H s.y s.row passed' r'.cache.known r'.traversal)
    (hlog : r'.journal.recorded = passed'.map Entry.name) : s.Going owed' start' passed' r' where
  regular := hregular
  supplied := hsupplied
  round := hc.round.trans h.round
  queue := hc.queue.trans h.queue
  baseline := hc.baseline.trans h.baseline
  extra := hc.extra.trans h.extra
  partway := hpartway
  log := hlog
  completed := hc.sameRound.1.trans h.completed
  aborted := hc.sameRound.2.trans h.aborted
  faults := hc.faults.trans h.faults

/-- Nodes are looked at and asked for. -/
theorem consults (h : s.Going owed start passed r) (hc : Consults H .accepting P r r')
    (hP : ∀ d, P d → s.Reaches d) : s.Going owed start passed r' := by
  have hf := hc.fetches
  refine h.continues hc.continues (h.regular.fetches hf) (h.supplied.consults hc hP) ?_
    (hf.log.trans h.log)
  rw [hf.known, hf.traversal]
  exact h.partway

theorem spotless (h : s.Going owed start passed r) {givenUp : Bool} :
    (r.look H d).2 ≠ .spoilt givenUp :=
  fun hfound => h.supplied.lost_of_spoilt hfound

/-- The traversal goes on, and less is left of it. -/
theorem onward (h : s.Going owed start passed r) (hphase : r.phase = .comparing)
    (goes : Onward H .accepting r r') :
    ∃ passed', s.Going owed start passed' r' ∧
      stackCost H 0 r'.traversal.next < stackCost H 0 r.traversal.next := by
  have hgoes : ∀ {passed'}, Partway H s.y s.row passed' r'.cache.known r'.traversal →
      r'.journal.recorded = passed'.map Entry.name → s.Going owed start passed' r' :=
    h.continues goes.continues (h.regular.onward hphase goes)
      (h.supplied.strides (.onward goes) (fun _ => h.reaches))
  cases goes with
  | resumed next mem => exact nomatch h.partway.aside ▸ mem
  | passedKnown next unresolved known => cases known.symm.trans (h.partway.unknown next unresolved)
  | @openedNext f fs n next unresolved found =>
      have hn := denotes_of_look h.regular.genuine found
      have hknown := (fetches_look (H := H) r f.digest).known
      have hpartway := h.partway.resolve s.inj next unresolved hn
      obtain ⟨l, hl⟩ := h.tree next
      refine ⟨passed, hgoes (hknown ▸ hpartway) h.log, ?_⟩
      rw [next]
      exact stackCost_resolve s.inj hl unresolved hn
  | putAside next above unresolved found => exact absurd found h.spotless
  | @leftNext f fs n next resolved isThrough =>
      have hcomplete := (h.partway.frames f (next ▸ List.mem_cons_self)).2
      have hpartway := h.partway.leave next resolved isThrough
      obtain ⟨l, hl⟩ := h.tree next
      refine ⟨passed, hgoes ?_ h.log, ?_⟩
      · simpa only [leaveNext, hcomplete, Bool.false_eq_true, if_false] using hpartway
      · rw [next]
        exact stackCost_leave s.inj hl
  | openedCurrent current => cases h.partway.current.symm.trans current
  | leftCurrent current => cases h.partway.current.symm.trans current
  | @acted c m f fs n j plan planned meets =>
      have hless := h.partway.stackCost_lt planned.moved
      obtain ⟨rfl, htakes⟩ := h.partway.takes meets plan
      cases htakes with
      | skips partway => exact ⟨passed, hgoes partway h.log, hless⟩
      | enters partway => exact ⟨passed, hgoes partway h.log, hless⟩
      | @passes e name partway =>
          obtain ⟨hlog, hcache, htraversal⟩ := record_of_extra
            (r := { r with traversal := r.traversal.perform .record }) h.extra e.name
          simp only [effect, name] at hgoes ⊢
          rw [htraversal]
          refine ⟨passed ++ [e], hgoes ?_ ?_, hless⟩
          · rw [hcache, htraversal]
            exact partway
          · rw [hlog, List.map_append]
            exact congrArg (· ++ [e.name]) h.log

end Going

/-! ## The end of the round -/

/-- The row is through. -/
theorem Going.closes (h : s.Going owed start passed r) (hnext : r.traversal.next = []) :
    s.Over (r.closeRound H) .idle ∧ (r.closeRound H).phase = .done := by
  obtain rfl := h.partway.eq_of_next hnext
  have hwhole : s.front = s.row := s.longest.unique (front_of_inOrder h.partway.inOrder)
  simp only [closeRound, h.round, h.queue]
  refine ⟨⟨rfl, h.regular.awaits_false h.round, .inr rfl, h.supplied.nodup_asked (fun _ => id),
    h.supplied.scope, ?_⟩, trivial⟩
  exact .idle hwhole (hwhole ▸ h.log) rfl rfl (congrArg (· + 1) h.completed) h.aborted h.faults

/-- An entry is out of order. -/
theorem Going.abandons (h : s.Going owed start passed r) (hmeets : r.traversal.Meets) {c : Cache}
    {e : Fault} (hplan : Traversal.plan H r.cache r.traversal = (c, .error e)) :
    s.Over (abandonRound H { r with cache := c, tally.faults := r.tally.faults + 1 })
      .malformed := by
  obtain ⟨hfront, hproper⟩ := h.partway.refuses hmeets hplan
  obtain rfl := s.longest.unique hfront
  simp only [abandonRound, h.queue]
  refine ⟨rfl, h.regular.awaits_false h.round, .inl rfl, h.supplied.nodup_asked (fun _ => id),
    h.supplied.scope, ?_⟩
  exact .malformed hproper h.log rfl h.completed (congrArg (· + 1) h.aborted)
    (congrArg (· + 1) h.faults)

/-! ## Steps -/

/-- What it takes to go on. -/
noncomputable def price (H : Hashing) (r : Reconciler) : Nat :=
  stackCost H 0 r.traversal.next + if r.phase = .loading then 1 else 0

/-- What a step comes to while the tree is being walked. -/
inductive Gets (s : Survey H) (owed : List Digest) (start : Nat) (r : Reconciler) :
    Reconciler × Option Outcome → Prop
  | onward {r' : Reconciler} {passed : List Entry} (going : s.Going owed start passed r')
      (less : price H r' < price H r) : Gets s owed start r (r', none)
  | through {r' : Reconciler} (decided : s.Over r' .idle) (phase : r'.phase = .done) :
      Gets s owed start r (r', none)
  | waiting {r' : Reconciler} {passed : List Entry} (going : s.Going owed start passed r')
      (unanswered : owed ++ r'.journal.asked.drop start ≠ []) :
      Gets s owed start r (r', some .waiting)
  | refused {r' : Reconciler} (decided : s.Over r' .malformed) :
      Gets s owed start r (r', some .malformed)

namespace Going

/-- The root and the nodes it refers to are asked for. -/
theorem loads (h : s.Going owed start passed r) (hphase : r.phase = .loading) :
    Gets s owed start r (r.step H .accepting) := by
  have hload := loaded_load (H := H) .accepting r
  have htraversal := (fetches_load (H := H) .accepting r).traversal
  have hrefs : ∀ {n : Node}, (r.look H s.y).2 = .present n → ∀ d ∈ n.refs, s.Reaches d := by
    intro n hfound d hd
    have hdenotes := denotes_of_look h.regular.genuine hfound
    exact leads_item id hdenotes (Node.mem_refs.mp hd)
  have hlook : s.Going owed start passed (r.look H s.y).1 :=
    h.consults (P := fun _ => False) (.look .refl _) (fun _ => False.elim)
  unfold step
  simp only [hphase]
  generalize r.load H .accepting = loaded at hload htraversal
  obtain ⟨r', progress⟩ := loaded
  have hpaced : Loaded H .accepting r r' .through → Regular H { r' with phase := .comparing } :=
    fun hload => h.regular.paced (.loaded hphase hload)
  cases hload with
  | idle round => cases round.symm.trans h.round
  | ready round found consults =>
      obtain rfl := Option.some.inj (round.symm.trans h.round)
      have hr' := hlook.consults consults (hrefs found)
      refine .onward { hr' with regular := hpaced (.ready round found consults), supplied := ?_ } ?_
      · exact hr'.supplied.marks (marks_same rfl rfl rfl)
      · have htraversal : r'.traversal = r.traversal := htraversal
        simp [price, htraversal, hphase]
  | waitingRefs round found waits =>
      obtain rfl := Option.some.inj (round.symm.trans h.round)
      exact .waiting (hlook.consults waits.consults (hrefs found))
        (hlook.supplied.unanswered waits (hrefs found))
  | waitingRoot round waits =>
      obtain rfl := Option.some.inj (round.symm.trans h.round)
      have hroot : ∀ d, d = s.y → s.Reaches d := fun d hd => hd ▸ .refl _
      exact .waiting (h.consults waits.consults hroot) (h.supplied.unanswered waits hroot)
  | stuck round missed => exact absurd missed h.spotless

/-- A step of the traversal. -/
theorem strides (h : s.Going owed start passed r) (hphase : r.phase = .comparing) :
    Gets s owed start r (r.step H .accepting) := by
  have hs := strode_stride (H := H) .accepting r
  unfold step
  simp only [hphase]
  generalize r.stride H .accepting = strode at hs
  obtain ⟨r', stride⟩ := strode
  cases hs with
  | onward goes =>
      obtain ⟨passed', hgoing, hless⟩ := h.onward hphase goes
      have hphase' : r'.phase = .comparing := goes.continues.phase.trans hphase
      refine .onward hgoing ?_
      simpa [price, hphase, hphase'] using hless
  | through next aside =>
      obtain ⟨hover, hdone⟩ := h.closes next
      exact .through hover hdone
  | waiting waits =>
      have hawaits : ∀ d, r.traversal.Awaits d → s.Reaches d := fun _ hd => h.reaches hd.mentions
      exact .waiting (h.consults waits.consults hawaits) (h.supplied.unanswered waits hawaits)
  | exhausted next left => exact absurd h.partway.aside left
  | lostRoot next unresolved missed => exact absurd missed h.spotless
  | lostCurrent current => cases h.partway.current.symm.trans current
  | faulted plan meets => exact .refused (h.abandons meets plan)

theorem step (h : s.Going owed start passed r) : Gets s owed start r (r.step H .accepting) := by
  have hround : r.round ≠ none := by simp [h.round]
  have hphase := mt h.regular.phase.mpr hround
  cases hr : r.phase with
  | choosing => exact absurd (.inl hr) hphase
  | done => exact absurd (.inr hr) hphase
  | loading => exact h.loads hr
  | comparing => exact h.strides hr

end Going

/-! ## Passes -/

/-- What a pass comes to that takes the round on. -/
inductive Ends (s : Survey H) (owed : List Digest) (start : Nat) : Reconciler → Outcome → Prop
  | waiting {r : Reconciler} {passed : List Entry} (going : s.Going owed start passed r)
      (unanswered : owed ++ r.journal.asked.drop start ≠ []) : Ends s owed start r .waiting
  | decided {r : Reconciler} {outcome : Outcome} (decided : s.Over r outcome) :
      Ends s owed start r outcome

theorem Over.step_of_done {outcome : Outcome} (h : s.Over r outcome) (hphase : r.phase = .done)
    (agent : Agent) : r.step H agent = (r, some .idle) := by
  simp [Reconciler.step, hphase, hasWork, h.queue]

theorem Going.steps (h : s.Going owed start passed r) :
    ∃ r' outcome, Reconciler.steps H .accepting r = some (r', outcome) ∧
      Ends s owed start r' outcome := by
  induction hprice : price H r using Nat.strong_induction_on generalizing r passed with
  | _ k ih =>
    have hgets := h.step
    rcases hresult : r.step H .accepting with ⟨r', outcome⟩
    rw [hresult] at hgets
    cases hgets with
    | onward going less =>
        rw [Reconciler.steps, loop_of_none hresult]
        exact ih _ (hprice ▸ less) going rfl
    | through decided phase =>
        rw [Reconciler.steps, loop_of_none hresult, loop_of_some (decided.step_of_done phase _)]
        exact ⟨r', .idle, rfl, .decided decided⟩
    | waiting going unanswered =>
        exact ⟨r', .waiting, loop_of_some hresult, .waiting going unanswered⟩
    | refused decided => exact ⟨r', .malformed, loop_of_some hresult, .decided decided⟩

/-! ## The beginning -/

/-- The root was announced to a reconciler that knows nothing. -/
structure Poised (s : Survey H) (owed : List Digest) (start : Nat) (r : Reconciler) : Prop where
  regular : r.Regular H
  supplied : s.Supplies owed start r
  phase : r.phase = .choosing
  queue : r.queue = { roots := [s.y] }
  awaits : r.awaitsBaseline = false
  baseline : r.baseline = none
  extra : r.extra = none
  known : ∀ d, r.cache.known d = false
  log : r.journal.recorded = []
  completed : r.tally.completed = 0
  aborted : r.tally.aborted = 0
  faults : r.tally.faults = 0

theorem Poised.choose_eq (h : s.Poised owed start r) :
    r.choose H = openRound { r with queue := { active := some s.y } } s.y := by
  have hcandidates : [s.y].filter (fun d => some d ≠ none && !r.cache.known d) = [s.y] := by
    simp [h.known]
  have hascending : ascending [s.y] = [s.y] := rfl
  simp only [choose, h.queue, takeBodies, h.awaits, Bool.false_eq_true, if_false, h.baseline,
    List.nil_append, hcandidates, hascending]
  rfl

/-- The root is taken up. -/
theorem Poised.goes (h : s.Poised owed start r) : s.Going owed start [] (r.choose H) := by
  have hregular := h.regular.choose h.phase
  rw [h.choose_eq] at hregular ⊢
  have hpartway : Partway H s.y s.row [] r.cache.known (Traversal.begin r.baseline s.y) := by
    rw [h.baseline]
    exact partway_begin s.reading h.known
  exact ⟨hregular, h.supplied.marks (marks_same rfl rfl rfl), rfl, rfl, h.baseline, h.extra, hpartway,
    h.log, h.completed, h.aborted, h.faults⟩

/-- A reconciler that has a tree to survey or is at it. -/
inductive Ready (s : Survey H) (owed : List Digest) (start : Nat) (r : Reconciler) : Prop
  | poised (h : s.Poised owed start r)
  | going {passed : List Entry} (h : s.Going owed start passed r)

namespace Ready

theorem supplied (h : s.Ready owed start r) : s.Supplies owed start r := by
  cases h with
  | poised h => exact h.supplied
  | going h => exact h.supplied

/-- The requests may be reckoned anew. -/
theorem supplies (h : s.Ready owed start r) (hsupplied : s.Supplies owed' start' r) :
    s.Ready owed' start' r := by
  cases h with
  | poised h => exact .poised { h with supplied := hsupplied }
  | going h => exact .going { h with supplied := hsupplied }

/-- Fetches end. -/
theorem keeps (h : s.Ready owed start r) {c : Cache} (hc : Cache.Keeps H r.cache c)
    (hsupplied : s.Supplies owed' start' { r with cache := c }) :
    s.Ready owed' start' { r with cache := c } := by
  have hf := fetches_cache r hc
  cases h with
  | poised h =>
      exact .poised { h with
        regular := h.regular.fetches hf
        supplied := hsupplied
        known := fun d => (hc.known d).trans (h.known d) }
  | going h =>
      refine .going (h.continues { Continues.refl r with } (h.regular.fetches hf) hsupplied ?_ h.log)
      rw [hf.known]
      exact h.partway

/-- A pass begins. -/
theorem called (h : s.Ready owed start r) :
    s.Ready owed start { r with tally.runs := r.tally.runs + 1 } := by
  have hmarks : Marks r { r with tally.runs := r.tally.runs + 1 } := marks_same rfl rfl rfl
  have hsupplied := h.supplied.marks hmarks
  cases h with
  | poised h => exact .poised { h with regular := h.regular.on .call, supplied := hsupplied }
  | going h => exact .going { h with regular := h.regular.on .call, supplied := hsupplied }

theorem steps (h : s.Ready owed start r) :
    ∃ r' outcome, Reconciler.steps H .accepting r = some (r', outcome) ∧
      Ends s owed start r' outcome := by
  cases h with
  | poised h =>
      have hstep : r.step H .accepting = (r.choose H, none) := by
        simp only [Reconciler.step, h.phase]
      rw [Reconciler.steps, loop_of_none hstep]
      exact h.goes.steps
  | going h => exact h.steps

/-- A pass takes the round on until it waits or the round is over. -/
theorem pass (h : s.Ready owed start r) :
    ∃ r' outcome, r.pass H .accepting = (r', some outcome) ∧ Ends s owed start r' outcome := by
  obtain ⟨r', outcome, hsteps, hends⟩ := h.called.steps
  refine ⟨r', outcome, ?_, hends⟩
  rw [Reconciler.pass, hsteps]

/-- A single step. -/
theorem step (h : s.Ready owed start r) :
    s.Ready owed start (r.step H .accepting).1 ∨ ∃ outcome, s.Over (r.step H .accepting).1 outcome := by
  cases h with
  | poised h =>
      simp only [Reconciler.step, h.phase]
      exact .inl (.going h.goes)
  | going h =>
      have hgets := h.step
      generalize r.step H .accepting = result at hgets ⊢
      cases hgets with
      | onward going less => exact .inl (.going going)
      | through decided phase => exact .inr ⟨_, decided⟩
      | waiting going unanswered => exact .inl (.going going)
      | refused decided => exact .inr ⟨_, decided⟩

/-- A node comes, asked for or not. -/
theorem complete (h : s.Ready owed start r) {result : Except FetchFailure Bytes}
    (hresult : Brings H d result) :
    ∃ owed' start', s.Ready owed' start' { r with cache := (r.cache.complete d result).1 } := by
  have hkeeps : Cache.Keeps H r.cache (r.cache.complete d result).1 := Cache.keeps_complete _ _ _
  have hrebased := h.supplied.rebase
  by_cases hpending : r.cache.pending d = true
  · have hmem := (h.supplied.pending d).mp hpending
    have hfirst := hrebased.perm (List.perm_cons_erase hmem).symm
    exact ⟨_, _, h.keeps hkeeps (hfirst.answer id False.elim (fun _ _ => hresult))⟩
  · have hnever : (fun e : Digest => False ∧ e ≠ d) = fun _ => False := by simp
    have hsupplied := h.supplied.recover hresult False.elim (Bool.not_eq_true _ ▸ hpending)
    rw [hnever] at hsupplied
    exact ⟨_, _, h.keeps hkeeps hsupplied⟩

end Ready

/-! ## After the end of the round -/

namespace Over

variable {outcome : Outcome}

theorem stays (h : s.Over r outcome) (hqueue : r'.queue = r.queue)
    (hawaits : r'.awaitsBaseline = r.awaitsBaseline) (hphase : r'.phase = .choosing ∨ r'.phase = .done)
    (hjournal : r'.journal = r.journal) (hround : r'.round = r.round)
    (hbaseline : r'.baseline = r.baseline) (hsame : SameRound r r')
    (hfaults : r'.tally.faults = r.tally.faults) : s.Over r' outcome := by
  refine ⟨hqueue.trans h.queue, hawaits.trans h.awaits, hphase, hjournal ▸ h.nodup,
    hjournal ▸ h.scope, ?_⟩
  cases h.verdict with
  | idle whole recorded round baseline completed aborted faults =>
      exact .idle whole (hjournal ▸ recorded) (hround.trans round) (hbaseline.trans baseline)
        (hsame.1.trans completed) (hsame.2.trans aborted) (hfaults.trans faults)
  | malformed proper recorded round completed aborted faults =>
      exact .malformed proper (hjournal ▸ recorded) (hround.trans round) (hsame.1.trans completed)
        (hsame.2.trans aborted) (hfaults.trans faults)

theorem choose_eq (h : s.Over r outcome) : r.choose H = { r with phase := .done } := by
  obtain ⟨cache, queue, phase, round, awaits⟩ := r
  obtain rfl : queue = {} := h.queue
  obtain rfl : awaits = false := h.awaits
  rfl

theorem step (h : s.Over r outcome) (agent : Agent) : s.Over (r.step H agent).1 outcome := by
  rcases h.phase with hphase | hphase
  · simp only [Reconciler.step, hphase, h.choose_eq]
    exact h.stays rfl rfl (.inr rfl) rfl rfl rfl ⟨rfl, rfl⟩ rfl
  · rw [h.step_of_done hphase]
    exact h

theorem called (h : s.Over r outcome) :
    s.Over { r with tally.runs := r.tally.runs + 1 } outcome :=
  h.stays rfl rfl h.phase rfl rfl rfl ⟨rfl, rfl⟩ rfl

/-- There is nothing more to do. A round that was given up leaves one more choice, of nothing. -/
theorem pass (h : s.Over r outcome) (agent : Agent) :
    ∃ r', r.pass H agent = (r', some .idle) ∧ s.Over r' outcome := by
  have hcalled := h.called
  generalize hr : { r with tally.runs := r.tally.runs + 1 } = r₁ at hcalled
  have hpass : ∀ {r'}, Reconciler.steps H agent r₁ = some (r', .idle) →
      r.pass H agent = (r', some .idle) := by
    intro r' hsteps
    rw [Reconciler.pass, hr, hsteps]
  rcases hcalled.phase with hphase | hphase
  · have hnext := hcalled.step agent
    have hstep : r₁.step H agent = ({ r₁ with phase := .done }, none) := by
      simp only [Reconciler.step, hphase, hcalled.choose_eq]
    rw [hstep] at hnext
    refine ⟨_, hpass ?_, hnext⟩
    rw [Reconciler.steps, loop_of_none hstep, loop_of_some (hnext.step_of_done rfl agent)]
  · refine ⟨r₁, hpass ?_, hcalled⟩
    rw [Reconciler.steps, loop_of_some (hcalled.step_of_done hphase agent)]

end Over

end Survey

end Reconcile

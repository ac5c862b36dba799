import Reconcile.Proofs.Cache.Unspoilt
import Reconcile.Proofs.History.Descent
import Reconcile.Proofs.History.Faultless
import Reconcile.Proofs.Reconciler.Asking
import Reconcile.Proofs.Reconciler.Requests
import Reconcile.Proofs.Traversal.Common

/-! # What two trees have in common at their front is never entered

The roots of two trees begin with the same references. While a round compares the trees, it stands at
no node that these references lead to, and asks for none below them. The referenced nodes themselves
are asked for, but only while the root is being loaded: all that it refers to is asked for at once. -/

namespace Reconcile

variable {H : Hashing} {d x y : Digest} {shared : List Digest}

namespace Reconciler

open Traversal

variable {agent : Agent} {P : Digest → Prop} {r r' : Reconciler} {outcome : Option Outcome}

theorem Consults.unspoilt (h : Consults H agent P r r') (hr : r.cache.Unspoilt H) :
    r'.cache.Unspoilt H :=
  h.cache_keeps (Cache.Unspoilt H) (fun _ d hc => hc.look d)
    (fun _ d refusal hc => hc.request d refusal) hr

theorem Strode.unspoilt {stride : Stride} (h : Strode H agent r r' stride)
    (hr : r.cache.Unspoilt H) : r'.cache.Unspoilt H := by
  obtain ⟨r₁, hconsults, hmarks⟩ := h.marks
  intro d
  obtain ⟨known, hslot⟩ := hmarks.slots d
  rw [hslot, ← hconsults.unspoilt hr d]
  exact Slot.isSpoilt_look_congr rfl

/-! ## What a step asks for -/

/-- A node that a step may ask for: while loading, the root of the round and what that refers to, and
later only what the traversal stands at or has put aside. -/
inductive Seeks (H : Hashing) (r : Reconciler) : Digest → Prop
  | root {y : Digest} (phase : r.phase = .loading) (round : r.round = some y) : Seeks H r y
  | child {y d : Digest} {n : Node} (phase : r.phase = .loading) (round : r.round = some y)
      (found : (r.look H y).2 = .present n) (mem : d ∈ n.refs) : Seeks H r d
  | position {d : Digest} (phase : r.phase = .comparing) (mentions : r.traversal.Mentions d) :
      Seeks H r d

theorem asks_load (agent : Agent) (hphase : r.phase = .loading) :
    Asks (Seeks H r) r (r.load H agent).1 := by
  have hload := loaded_load (H := H) agent r
  generalize r.load H agent = loaded at hload ⊢
  obtain ⟨r', progress⟩ := loaded
  cases hload with
  | idle round => exact asks_of_eq rfl
  | ready round found consults => exact consults.asks.mono (fun _ => .child hphase round found)
  | waitingRefs round found waits =>
      exact waits.consults.asks.mono (fun _ => .child hphase round found)
  | waitingRoot round waits =>
      refine waits.consults.asks.mono ?_
      rintro d rfl
      exact .root hphase round
  | stuck round missed => exact asks_of_eq rfl

theorem asks_stride (agent : Agent) (hphase : r.phase = .comparing) :
    Asks (Seeks H r) r (r.stride H agent).1 := by
  obtain ⟨r₁, hconsults, hmarks⟩ := (strode_stride (H := H) agent r).marks
  exact (hconsults.asks.mono (fun _ => .position hphase)).congr hmarks.asked

theorem asked_closeRound (r : Reconciler) :
    (r.closeRound H).journal.asked = r.journal.asked := by
  unfold closeRound
  split <;> rfl

theorem asked_giveWay (r : Reconciler) : (r.giveWay H).1.journal.asked = r.journal.asked := by
  unfold giveWay
  split <;> rfl

/-- A step asks for nothing else. -/
theorem asks_step (agent : Agent) (r : Reconciler) : Asks (Seeks H r) r (r.step H agent).1 := by
  unfold step
  split
  · exact asks_of_eq (by rw [(journal_tally_choose r).1])
  · rename_i hphase
    have hload := asks_load (H := H) agent hphase
    generalize r.load H agent = loaded at hload ⊢
    obtain ⟨r', progress⟩ := loaded
    cases progress with
    | through => exact hload
    | waiting => exact hload
    | stuck => exact hload.congr (asked_giveWay r')
  · rename_i hphase
    have hstride := asks_stride (H := H) agent hphase
    generalize r.stride H agent = strode at hstride ⊢
    obtain ⟨r', stride⟩ := strode
    cases stride with
    | onward => exact hstride
    | through => exact hstride.congr (asked_closeRound r')
    | waiting => exact hstride
    | stuck => exact hstride.congr (asked_giveWay r')
    | fault e => exact hstride
  · split <;> exact asks_of_eq rfl

/-! ## The stages of a comparison -/

theorem unspoilt_takeBodies (bodies : List Bytes) (candidates : List Digest) (r : Reconciler)
    (hbodies : ∀ body ∈ bodies, Brings H y (.ok body)) (hr : r.cache.Unspoilt H) :
    (takeBodies H bodies candidates r).1.cache.Unspoilt H := by
  induction bodies generalizing candidates r with
  | nil => exact hr
  | cons body rest ih =>
      have ih := fun candidates r =>
        ih candidates r (fun b hb => hbodies b (List.mem_cons_of_mem body hb))
      have hput := hr.putBytes (hbodies body List.mem_cons_self)
      simp only [takeBodies]
      split
      · rename_i cache e h
        rw [h] at hput
        exact ih _ _ hput
      · rename_i cache d h
        rw [h] at hput
        split
        · exact ih _ _ hput
        · exact ih _ _ hput

theorem unspoilt_choose (hbodies : ∀ body ∈ r.queue.bodies, Brings H y (.ok body))
    (hr : r.cache.Unspoilt H) : (r.choose H).cache.Unspoilt H := by
  have htake := unspoilt_takeBodies r.queue.bodies [] { r with queue.bodies := [] } hbodies hr
  obtain ⟨cache, awaits, baseline, queue, htaken, -, hchoose⟩ := choose_eq (H := H) r
  rw [htaken] at htake
  rcases hchoose with hchoose | ⟨best, hchoose⟩
  · rw [hchoose]
    exact htake
  · rw [hchoose]
    exact htake

/-- The round that compares `y` with `x` is to come, under way or over. -/
inductive Stage (H : Hashing) (x y : Digest) (shared : List Digest) (r : Reconciler) : Prop
  | before (round : r.round = none) (baseline : r.baseline = some x)
      (unspoilt : r.cache.Unspoilt H) (unknown : ∀ d, r.cache.known d = false)
      (bodies : ∀ body ∈ r.queue.bodies, Brings H y (.ok body)) : Stage H x y shared r
  | during (round : r.round = some y) (baseline : r.baseline = some x)
      (unspoilt : r.cache.Unspoilt H) (aside : r.traversal.aside = [])
      (clears : r.traversal.Clears H x y shared r.cache.known) : Stage H x y shared r
  | after (round : r.round = none) (baseline : r.baseline = some y) : Stage H x y shared r

/-- A reconciler that starts from `x` and gets no root but `y`. -/
structure Compares (H : Hashing) (x y : Digest) (shared : List Digest) (r : Reconciler) : Prop
    extends r.Faultless H where
  waiting : ∀ d, r.Waiting H d → d = y
  stage : Stage H x y shared r

/-- The stage is a matter of the nodes, the traversal, the baseline and the bodies that wait. -/
theorem Stage.keeps (h : Stage H x y shared r) (hround : r'.round = r.round)
    (hbaseline : r'.baseline = r.baseline) (htraversal : r'.traversal = r.traversal)
    (hunspoilt : r.cache.Unspoilt H → r'.cache.Unspoilt H)
    (hknown : r'.cache.known = r.cache.known)
    (hbodies : ∀ body ∈ r'.queue.bodies, body ∈ r.queue.bodies ∨ Brings H y (.ok body)) :
    Stage H x y shared r' := by
  cases h with
  | before round baseline unspoilt unknown bodies =>
      refine .before (hround.trans round) (hbaseline.trans baseline) (hunspoilt unspoilt)
        (hknown ▸ unknown) ?_
      exact fun body hbody => (hbodies body hbody).elim (bodies body) id
  | during round baseline unspoilt aside clears =>
      refine .during (hround.trans round) (hbaseline.trans baseline) (hunspoilt unspoilt) ?_ ?_
      · rw [htraversal]
        exact aside
      · rw [htraversal, hknown]
        exact clears
  | after round baseline => exact .after (hround.trans round) (hbaseline.trans baseline)

/-- Looking and asking change nothing of it. -/
theorem Stage.consults (h : Stage H x y shared r) (hc : Consults H agent P r r') :
    Stage H x y shared r' := by
  have hf := hc.fetches
  exact h.keeps hf.round hf.baseline hf.traversal hc.unspoilt hf.known (fun _ => hf.queue ▸ .inl)

/-- Nothing beneath the references is at a position of a traversal that keeps clear of them. -/
theorem not_beneath_of_mentions (inj : Function.Injective H) (hx : Begins H x shared)
    (hy : Begins H y shared) {w : Traversal} {known : Digest → Bool} (haside : w.aside = [])
    (hclears : w.Clears H x y shared known) (hd : w.Mentions d) : ¬ Beneath H shared d := by
  rcases hd with ⟨f, hf, rfl⟩ | ⟨f, hf, rfl⟩ | hd
  · exact hclears.not_beneath inj hx hy (.inl hf)
  · exact hclears.not_beneath inj hx hy (.inr hf)
  · exact nomatch haside ▸ hd

/-- In a phase that belongs to a round, the round of `y` is under way. -/
theorem Compares.during (h : Compares H x y shared r)
    (hphase : r.phase = .loading ∨ r.phase = .comparing) :
    r.round = some y ∧ r.baseline = some x ∧ r.cache.Unspoilt H ∧ r.traversal.aside = [] ∧
      r.traversal.Clears H x y shared r.cache.known := by
  obtain ⟨z, hround⟩ := h.exists_round hphase
  cases h.stage with
  | before round => cases hround.symm.trans round
  | during round baseline unspoilt aside clears => exact ⟨round, baseline, unspoilt, aside, clears⟩
  | after round => cases hround.symm.trans round

/-- A stage that cannot go on has lost a node. -/
theorem not_halts (hunspoilt : r.cache.Unspoilt H) (haside : r.traversal.aside = []) :
    ¬ Halts H agent r r' := by
  rintro (⟨phase, loaded⟩ | ⟨phase, strode⟩)
  · cases loaded with
    | stuck round missed => exact hunspoilt.look_ne missed
  · cases strode with
    | exhausted next left => exact left haside
    | lostRoot next unresolved missed => exact hunspoilt.look_ne missed
    | lostCurrent current unresolved missed => exact hunspoilt.look_ne missed

section Steps

variable (inj : Function.Injective H) (hx : Begins H x shared) (hy : Begins H y shared)

include inj hx hy

theorem Compares.choose (h : Compares H x y shared r) (hphase : r.phase = .choosing) :
    Stage H x y shared (r.choose H) := by
  have hround := h.toRegular.phase.mpr (.inl hphase)
  have hturned := turned_choose h.genuine hround
  have hbaseline : r.baseline ≠ none → (r.choose H).baseline = r.baseline := by
    intro hsome
    rcases hturned.baseline with ⟨-, hsame⟩ | ⟨hawaits, -⟩
    · exact hsame
    · exact absurd (h.awaiting hawaits).1 hsome
  cases h.stage with
  | before round baseline unspoilt unknown bodies =>
      have hbaseline := (hbaseline (by simp [baseline])).trans baseline
      have hunspoilt := unspoilt_choose bodies unspoilt
      rcases hturned.turn with idles | ⟨z, opens⟩
      · refine .before idles.round hbaseline hunspoilt (hturned.known ▸ unknown) ?_
        exact fun body hbody => nomatch hturned.bodies ▸ hbody
      · obtain rfl := h.waiting z opens.waiting
        have hbegin : (r.choose H).traversal = .begin (some x) z := hbaseline ▸ opens.traversal
        refine .during opens.round hbaseline hunspoilt (by rw [hbegin]; rfl) ?_
        rw [hbegin, hturned.known]
        exact clears_begin inj hx hy unknown
  | during round => cases hround.symm.trans round
  | after round baseline =>
      have hbaseline := (hbaseline (by simp [baseline])).trans baseline
      rcases hturned.turn with idles | ⟨z, opens⟩
      · exact .after idles.round hbaseline
      · exact absurd (h.waiting z opens.waiting ▸ hbaseline.symm) opens.differs

/-- A step of the traversal keeps it clear of what the roots begin with. -/
theorem clears_onward (hr : r.cache.Genuine H) (hunspoilt : r.cache.Unspoilt H)
    (haside : r.traversal.aside = []) (h : r.traversal.Clears H x y shared r.cache.known)
    (goes : Onward H agent r r') :
    r'.traversal.aside = [] ∧ r'.traversal.Clears H x y shared r'.cache.known := by
  have hlook : ∀ d, (r.look H d).1.cache.known = r.cache.known := fun d => (fetches_look r d).known
  cases goes with
  | resumed next mem => exact nomatch haside ▸ mem
  | passedKnown next unresolved known => exact ⟨haside, h.passKnown inj hy next known⟩
  | openedNext next unresolved found =>
      have hclears := h.resolveNext inj next unresolved (denotes_of_look hr found)
      exact ⟨haside, (hlook _).symm ▸ hclears⟩
  | putAside next above unresolved found => exact absurd found hunspoilt.look_ne
  | leftNext next resolved isThrough => exact ⟨haside, h.leaveNext inj hy next resolved isThrough⟩
  | openedCurrent current unresolved found =>
      have hclears := h.resolveCurrent inj current unresolved (denotes_of_look hr found)
      exact ⟨haside, (hlook _).symm ▸ hclears⟩
  | leftCurrent current resolved isThrough =>
      exact ⟨haside, h.leaveCurrent inj hx current resolved isThrough⟩
  | @acted c m f fs n j plan planned meets =>
      rw [traversal_effect]
      refine ⟨(aside_perform _ _).trans haside, ?_⟩
      rcases h.perform inj hx hy plan planned meets with ⟨d, rfl, rfl, hclears⟩ | hclears
      · refine hclears _ ?_
        intro e he
        simp only [effect, Cache.known_markKnown, Bool.or_eq_true, decide_eq_true_eq] at he
        exact he.imp_left Eq.symm
      · exact hclears _

theorem Compares.paced (h : Compares H x y shared r) (hr : Paced H agent r r' outcome) :
    Stage H x y shared r' := by
  cases hr with
  | chose phase => exact h.choose inj hx hy phase
  | loaded phase loaded =>
      obtain ⟨P, hconsults⟩ := loaded.consults
      exact (h.stage.consults hconsults).keeps rfl rfl rfl id rfl (fun _ => .inl)
  | waits phase consults => exact h.stage.consults consults
  | went phase goes =>
      obtain ⟨hround, hbaseline, hunspoilt, haside, hclears⟩ := h.during (.inr phase)
      obtain ⟨haside', hclears'⟩ := clears_onward inj hx hy h.genuine hunspoilt haside hclears goes
      exact .during (goes.continues.round.trans hround) (goes.continues.baseline.trans hbaseline)
        ((Strode.onward goes).unspoilt hunspoilt) haside' hclears'
  | closed phase next aside =>
      obtain ⟨hround, -⟩ := h.during (.inr phase)
      simp only [closeRound, hround]
      exact .after rfl rfl
  | halted halts idle =>
      obtain ⟨-, -, hunspoilt, haside, -⟩ := h.during halts.phase
      exact absurd halts (not_halts hunspoilt haside)
  | gaveUp halts work =>
      obtain ⟨-, -, hunspoilt, haside, -⟩ := h.during halts.phase
      exact absurd halts (not_halts hunspoilt haside)
  | faulted phase plan meets =>
      obtain ⟨hround, -⟩ := h.during (.inr phase)
      exact absurd (congrArg Prod.snd plan) (h.plan_ne_error inj hround meets)
  | woke phase work => exact h.stage.keeps rfl rfl rfl id rfl (fun _ => .inl)
  | rested phase idle => exact h.stage

end Steps

end Reconciler

/-! ## Histories -/

/-- An event that brings no root but `y`, by its digest or its body, and no result of a fetch but the
node that was asked for. -/
def Event.Serves (H : Hashing) (y : Digest) : Event → Prop
  | announce d => d = y
  | handIn bytes => Brings H y (.ok bytes)
  | complete d result => Brings H d result
  | call | step _ => True

theorem Event.Serves.offers {event : Event} (h : event.Serves H y) (hd : event.Offers H d) :
    d = y := by
  cases event with
  | announce e => exact hd.symm.trans h
  | handIn bytes => exact hd.1.symm.trans h.digest
  | complete e result => exact hd.elim
  | call => exact hd.elim
  | step agent => exact hd.elim

namespace Reconciler

variable {r : Reconciler} {event : Event}

theorem compares_create (inj : Function.Injective H) (hx : Begins H x shared) (attempts : Nat)
    (firstName : Option Name) :
    Compares H x y shared (create (.ofAttempts attempts) (.root x) firstName) where
  toFaultless := by
    refine faultless_create (Cache.genuine_ofAttempts attempts) _ ?_ firstName
    intro d hd
    exact Origin.root.inj hd ▸ ordered_of_honest inj hx.honest
  waiting d hd := by
    rcases hd with hd | ⟨body, hbody, -⟩
    · cases hd
    · cases hbody
  stage := .before rfl rfl (Cache.unspoilt_ofAttempts attempts) (Cache.known_ofAttempts attempts)
    (fun _ hbody => nomatch hbody)

section Histories

variable (inj : Function.Injective H) (hx : Begins H x shared) (hy : Begins H y shared)

include inj hx hy

theorem Compares.on (h : Compares H x y shared r) (hevent : event.Serves H y) :
    Compares H x y shared (r.on H event) where
  toFaultless := by
    refine h.toFaultless.on inj (fun d hd => ?_)
    rw [hevent.offers hd]
    exact ordered_of_honest inj hy.honest
  waiting d hd := (h.waiting_on hd).elim (h.waiting d) hevent.offers
  stage := by
    cases event with
    | announce d =>
        simp only [Reconciler.on, announce]
        split
        · exact h.stage
        · exact h.stage.keeps rfl rfl rfl id rfl (fun _ => .inl)
    | handIn bytes =>
        refine h.stage.keeps rfl rfl rfl id rfl ?_
        intro body hbody
        rcases List.mem_append.mp hbody with hbody | hbody
        · exact .inl hbody
        · exact .inr (List.mem_singleton.mp hbody ▸ hevent)
    | complete d result =>
        exact h.stage.keeps rfl rfl rfl (fun hc => hc.complete hevent)
          (funext (Cache.keeps_complete (H := H) _ _ _).known) (fun _ => .inl)
    | call => exact h.stage.keeps rfl rfl rfl id rfl (fun _ => .inl)
    | step agent => exact h.paced inj hx hy (paced_step agent r)

theorem Compares.after (h : Compares H x y shared r) {es : List Event}
    (hes : ∀ event ∈ es, event.Serves H y) : Compares H x y shared (after H r es) :=
  after_induction h (fun _ event hevent h => h.on inj hx hy (hes event hevent))

/-- An event asks for what the references lead to only while the root is being loaded, and then for no
more than the references. -/
theorem Compares.asks (h : Compares H x y shared r) (hevent : event.Serves H y) :
    Asks (fun d => Beneath H shared d → d ∈ shared ∧ r.phase = .loading) r (r.on H event) := by
  cases event with
  | announce d =>
      simp only [Reconciler.on, announce]
      split <;> exact asks_of_eq rfl
  | handIn bytes => exact asks_of_eq rfl
  | complete d result => exact asks_of_eq rfl
  | call => exact asks_of_eq rfl
  | step agent =>
      refine (asks_step agent r).mono ?_
      intro d hd hbeneath
      cases hd with
      | root phase round =>
          obtain ⟨hround, -⟩ := h.during (.inl phase)
          obtain rfl := Option.some.inj (round.symm.trans hround)
          exact absurd hbeneath (hy.not_beneath inj)
      | child phase round found mem =>
          obtain ⟨hround, -⟩ := h.during (.inl phase)
          obtain rfl := Option.some.inj (round.symm.trans hround)
          exact ⟨hy.mem_of_beneath inj (denotes_of_look h.genuine found) mem hbeneath, phase⟩
      | position phase mentions =>
          obtain ⟨-, -, -, haside, hclears⟩ := h.during (.inr phase)
          exact absurd hbeneath (not_beneath_of_mentions inj hx hy haside hclears mentions)

/-- Nothing beneath the references is at a position of the traversal. -/
theorem Compares.not_beneath (h : Compares H x y shared r) (hplaced : r.Placed)
    (hd : r.traversal.Mentions d) : ¬ Beneath H shared d := by
  have hempty : r.round = none → ¬ r.traversal.Mentions d := by
    intro hround
    simp [hplaced.resting hround, Traversal.Mentions]
  cases h.stage with
  | before round => exact absurd hd (hempty round)
  | during round baseline unspoilt aside clears =>
      exact not_beneath_of_mentions inj hx hy aside clears hd
  | after round => exact absurd hd (hempty round)

/-- So far nothing was asked for beneath the references, but the references themselves. -/
theorem Compares.asked_after (h : Compares H x y shared r) (hnone : r.journal.asked = [])
    {es : List Event} (hes : ∀ event ∈ es, event.Serves H y) :
    ∀ d ∈ (Reconciler.after H r es).journal.asked, Beneath H shared d → d ∈ shared := by
  refine (after_induction (P := fun r => Compares H x y shared r ∧
    ∀ d ∈ r.journal.asked, Beneath H shared d → d ∈ shared) ⟨h, ?_⟩ ?_).2
  · intro d hd
    cases hnone ▸ hd
  · rintro r event hevent ⟨h, hasked⟩
    refine ⟨h.on inj hx hy (hes event hevent), ?_⟩
    obtain ⟨ds, hmore, hds⟩ := h.asks inj hx hy (hes event hevent)
    intro d hd hbeneath
    rcases List.mem_append.mp (hmore ▸ hd) with hd | hd
    · exact hasked d hd hbeneath
    · exact (hds d hd hbeneath).1

end Histories

/-- The roots of two honest trees begin with the same references, any number of them. A reconciler that
knows nothing starts from the one tree and is given the other as a root, and every fetch that ends
brings its node, in any order, asked for or not. Then no position of its traversal is ever at one of
the references or below. Below them nothing is ever asked for, and the references themselves are asked
for by no event but a step that loads the root. -/
theorem front_never_entered (inj : Function.Injective H) (hx : Begins H x shared)
    (hy : Begins H y shared) (attempts : Nat) (firstName : Option Name) {es : List Event}
    (hes : ∀ event ∈ es, event.Serves H y)
    (hr : r = after H (create (.ofAttempts attempts) (.root x) firstName) es) :
    (∀ d, r.traversal.Mentions d → ¬ Beneath H shared d) ∧
      (∀ d ∈ r.journal.asked, Beneath H shared d → d ∈ shared) ∧
      ∀ event, event.Serves H y →
        Asks (fun d => Beneath H shared d → d ∈ shared ∧ r.phase = .loading) r (r.on H event) := by
  have hcreate : Compares H x y shared (create (.ofAttempts attempts) (.root x) firstName) :=
    compares_create inj hx attempts firstName
  have h : Compares H x y shared r := hr ▸ hcreate.after inj hx hy hes
  have hplaced : r.Placed := hr ▸ (placed_create _ _ firstName).after es
  refine ⟨fun d hd => h.not_beneath inj hx hy hplaced hd, ?_, ?_⟩
  · exact hr ▸ hcreate.asked_after inj hx hy rfl hes
  · exact fun event hevent => h.asks inj hx hy hevent

end Reconciler

namespace Sample

/-- A branch `{1}` and nothing else. -/
def branchAlone : Node where
  items := [.ref (root (flat [1]))]
  least := name 1
  greatest := name 1
  count := 1

/-- The same branch, and the name `2` after it. -/
def branchFirst : Node where
  items := [.ref (root (flat [1])), .leaf (name 2)]
  least := name 1
  greatest := name 2
  count := 2

/-- The tree with the name `2` is compared with the other. -/
def extending : List Event :=
  [.announce (root branchFirst), .call] ++ stepping 2 ++ [fetched branchFirst] ++ stepping 1

/-- The same, up to where both sides have passed the branch. -/
def extended : List Event :=
  extending ++ [fetched (flat [1])] ++ stepping 3 ++ [fetched branchAlone] ++ stepping 2

theorem begins_branch {n : Node} {rest : List Item} (items : n.items = .ref (root (flat [1])) :: rest)
    (refs : n.refs = [root (flat [1])]) (honest : n.Honest (fun _ => [name 1])) :
    Begins Digest.mk (root n) [root (flat [1])] := by
  refine ⟨⟨_, .node (denotes_digest Digest.mk n) ?_ honest⟩, n, rest, denotes_digest _ _, items⟩
  intro e he
  obtain rfl := List.mem_singleton.mp (refs ▸ he)
  exact honestTree_flat [1]

theorem begins_branchAlone : Begins Digest.mk (root branchAlone) [root (flat [1])] :=
  begins_branch rfl rfl ⟨fun _ _ => List.cons_ne_nil _ _, by decide,
    fun _ ha => (Option.some.inj ha).symm, fun _ ha => (Option.some.inj ha).symm⟩

theorem begins_branchFirst : Begins Digest.mk (root branchFirst) [root (flat [1])] :=
  begins_branch rfl rfl ⟨fun _ _ => List.cons_ne_nil _ _, by decide,
    fun _ ha => (Option.some.inj ha).symm, fun _ ha => (Option.some.inj ha).symm⟩

theorem serves_fetched {n : Node} (h : Node.decodeAs Digest.mk (root n) n.encode = .ok n)
    (y : Digest) : (fetched n).Serves Digest.mk y := ⟨_, n, rfl, h⟩

theorem serves_stepping (y : Digest) (count : Nat) :
    ∀ event ∈ stepping count, event.Serves Digest.mk y := by
  intro event hevent
  obtain rfl := (List.mem_replicate.mp hevent).2
  trivial

theorem serves_extended : ∀ event ∈ extended, event.Serves Digest.mk (root branchFirst) := by
  have hfirst := serves_fetched (n := branchFirst) (by decide +kernel) (root branchFirst)
  have hflat := serves_fetched (n := flat [1]) (by decide +kernel) (root branchFirst)
  have halone := serves_fetched (n := branchAlone) (by decide +kernel) (root branchFirst)
  have hsteps := serves_stepping (root branchFirst)
  have hcalled : ∀ event ∈ [Event.announce (root branchFirst), .call],
      event.Serves Digest.mk (root branchFirst) := by simp [Event.Serves]
  simp only [extended, extending, List.forall_mem_append, List.forall_mem_singleton]
  exact ⟨⟨⟨⟨⟨⟨⟨hcalled, hsteps 2⟩, hfirst⟩, hsteps 1⟩, hflat⟩, hsteps 3⟩, halone⟩, hsteps 2⟩

end Sample

namespace Reconciler

open Sample in
/-- Both sides have passed the branch, and stand in the roots. -/
theorem front_never_entered_extended :
    let r := after Digest.mk (comparing branchAlone) extended
    r.traversal.next.map (·.position) = [1] ∧ r.traversal.current.map (·.position) = [1] ∧
      r.cache.known (root (flat [1])) = true ∧
      (∀ d, r.traversal.Mentions d → ¬ Beneath Digest.mk [root (flat [1])] d) ∧
      ∀ d ∈ r.journal.asked, Beneath Digest.mk [root (flat [1])] d → d ∈ [root (flat [1])] := by
  obtain ⟨hmentions, hasked, -⟩ := front_never_entered injective_mk begins_branchAlone
    begins_branchFirst 3 none serves_extended rfl
  exact ⟨by decide +kernel, by decide +kernel, by decide +kernel, hmentions, hasked⟩

open Sample in
/-- The branch is asked for when the next root is loaded, although it stands nowhere but at the front of
both roots. -/
theorem front_asked_for_extending :
    Begins Digest.mk (root branchAlone) [root (flat [1])] ∧
      Begins Digest.mk (root branchFirst) [root (flat [1])] ∧
      (∀ event ∈ extending, event.Serves Digest.mk (root branchFirst)) ∧
      (∀ i ∈ branchAlone.items.drop 1 ++ branchFirst.items.drop 1,
        ¬ Leads Digest.mk (fun _ => False) i (.ref (root (flat [1])))) ∧
      root (flat [1]) ∈ (after Digest.mk (comparing branchAlone) extending).journal.asked := by
  refine ⟨begins_branchAlone, begins_branchFirst, ?_, ?_, by decide +kernel⟩
  · intro event hevent
    exact serves_extended event (by simp only [extended, List.mem_append, hevent, true_or])
  · intro i hi hleads
    obtain rfl : i = .leaf (name 2) := List.mem_singleton.mp hi
    cases hleads.of_leaf

end Reconciler

end Reconcile

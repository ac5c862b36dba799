import Reconcile.Proofs.History.SingleRound
import Reconcile.Proofs.Reconciler.Requests
import Reconcile.Proofs.Reconciler.Telling

/-! # A reconciler at work on one root

Some nodes of the root are lost: they never come. As long as it is at work, the reconciler gets on with
every step, until it waits for a node, has nothing left but branches that it gave up, or is through. -/

namespace Reconcile

/-- A root `y` that is compared with the baseline `x`. Nodes that are `lost` never come; none of them
is needed for the baseline, and `y` itself is not one. Others that `failed` before are at hand. It
takes `limit` failures to give a node up. `origin` is the reconciler before the root was announced. -/
structure Task (H : Hashing) where
  x : Digest
  y : Digest
  lost : Digest → Prop
  failed : Digest → Prop
  limit : Nat
  origin : Reconciler
  inj : Function.Injective H
  current : Honest H x
  next : Honest H y
  differ : x ≠ y
  baseline : ∀ e, Leads H lost (.ref x) (.ref e) → ¬ lost e
  root : ¬ lost y
  failed_of_lost : ∀ d, lost d → failed d
  log : origin.journal.recorded = []
  completed : origin.tally.completed = 0

namespace Task

variable {H : Hashing}

/-- A node that may be needed. -/
def Reaches (t : Task H) (d : Digest) : Prop :=
  Leads H t.lost (.ref t.y) (.ref d) ∨ Leads H t.lost (.ref t.x) (.ref d)

def course (t : Task H) : Reconciler.Course := ⟨t.y, true, some t.x, [], 0⟩

theorem reaches_of_mentions (t : Task H) {S : Name → Prop} {w : Traversal}
    (h : w.Covers H t.lost t.x t.y S) {d : Digest} (hd : w.Mentions d) : t.Reaches d := by
  rcases hd with ⟨f, hf, rfl⟩ | ⟨g, hg, rfl⟩ | hd
  · exact .inl (h.next f hf).leads
  · exact .inr (h.current g hg).leads
  · exact .inl (h.aside d hd)

end Task

namespace Reconciler

open Traversal

variable {H : Hashing} {t : Task H} {owed : List Digest} {start : Nat} {P : Digest → Prop}
  {r r' : Reconciler}

/-- The reconciler is at work on the root of a task. -/
structure Engaged (t : Task H) (owed : List Digest) (start : Nat) (r : Reconciler) : Prop where
  attends : Attends H t.lost t.x t.y t.origin r
  orderly : r.Orderly H (· ∈ namesBelow H t.x)
  course : t.course.At H [] r.cache.known r.ledger
  supplied : r.Supplied H t.lost t.failed t.Reaches t.limit owed start
  round : r.round = some t.y
  begins : r.phase = .loading → r.traversal = .begin (some t.x) t.y
  bottom : ∀ d ∈ (path r.traversal).getLast?, ¬ t.lost d
  listed : ∀ a ∈ r.journal.recorded, Leads H t.lost (.ref t.y) (.leaf a)
  faults : r.tally.faults = 0
  delivered : t.origin.firstName = none →
    r.firstName = none ∧ r.journal.delivered = r.journal.recorded.map Name.parent
  /-- If nothing ever failed, no branch is put aside, and the names come in order. -/
  tidy : (∀ d, ¬ t.failed d) → r.traversal.aside = [] ∧ Ascends r [] r.recorded

namespace Engaged

theorem covers (h : Engaged t owed start r) :
    r.traversal.Covers H t.lost t.x t.y (Handled H t.lost t.x t.origin r) :=
  (h.attends.round t.y h.round).2.2

theorem mentions (h : Engaged t owed start r) {d : Digest} (hd : r.traversal.Mentions d) :
    t.Reaches d :=
  t.reaches_of_mentions h.covers hd

theorem busy (h : Engaged t owed start r) : r.phase = .loading ∨ r.phase = .comparing := by
  have hround : r.round ≠ none := by simp [h.round]
  have hphase := mt h.attends.phase.mpr hround
  cases hr : r.phase <;> simp [hr] at hphase <;> simp

/-- The root is compared, and nothing else waits. -/
theorem during (h : Engaged t owed start r) :
    Course.Spent [] r.ledger ∧ r.baseline = some t.x ∧ r.journal.recorded = r.recorded ∧
      r.tally.completed = 0 ∧ t.course.Finds H r.recorded := by
  have hround : ∀ l : Reconciler.Ledger, l.round = none → r.ledger = l → False := by
    intro l hl hr
    have hround : r.ledger.round = some t.y := h.round
    rw [hr, hl] at hround
    cases hround
  cases h.course with
  | awaiting body rest still brings byDigest awaits bodies toCome =>
      exact (hround _ still.round rfl).elim
  | missed still awaits toCome => exact (hround _ still.round rfl).elim
  | before still awaits baseline toCome byDigest => exact (hround _ still.round rfl).elim
  | closed spent round baseline recorded new log finds completed =>
      exact (hround _ round rfl).elim
  | passed spent still baseline byDigest => exact (hround _ still.round rfl).elim
  | during spent round baseline log completed finds =>
      exact ⟨spent, baseline, log, completed, finds⟩

theorem hasWork (h : Engaged t owed start r) : r.hasWork = false := by
  obtain ⟨spent, -⟩ := h.during
  obtain ⟨hbodies, -⟩ := List.append_eq_nil_iff.mp spent.bodies
  obtain ⟨hroots, -⟩ := List.append_eq_nil_iff.mp spent.roots
  have hbodies : r.queue.bodies = [] := hbodies
  have hroots : r.queue.roots = [] := hroots
  simp [Reconciler.hasWork, hbodies, hroots]

/-- Nodes are looked at and asked for. -/
theorem consults (h : Engaged t owed start r) (hc : Consults H .accepting P r r')
    (hP : ∀ d, P d → t.Reaches d) : Engaged t owed start r' := by
  have hf := hc.fetches
  obtain ⟨haside, hascends⟩ : ((∀ d, ¬ t.failed d) → r.traversal.aside = []) ∧
      ((∀ d, ¬ t.failed d) → Ascends r [] r.recorded) :=
    ⟨fun hnone => (h.tidy hnone).1, fun hnone => (h.tidy hnone).2⟩
  have htidy : (∀ d, ¬ t.failed d) →
      r'.traversal.aside = [] ∧ Ascends r' [] r'.recorded := by
    intro hnone
    refine ⟨hf.traversal ▸ haside hnone, ?_⟩
    rw [hf.recorded]
    refine (hascends hnone).keeps hf.recorded ?_
    rw [hf.traversal]
    exact fun b hb => ⟨b, hb, le_refl b⟩
  have hbegins : r'.phase = .loading → r'.traversal = .begin (some t.x) t.y := by
    rw [hf.phase, hf.traversal]
    exact h.begins
  have hcourse : t.course.At H [] r'.cache.known r'.ledger := by
    rw [hf.known, hf.ledger]
    exact h.course
  have hbottom : ∀ d ∈ (path r'.traversal).getLast?, ¬ t.lost d := by
    rw [hf.traversal]
    exact h.bottom
  obtain ⟨log, hdelivered, hfirst, hfaults⟩ := hc.says_nothing
  refine ⟨h.attends.fetches hf, h.orderly.fetches hf, hcourse, h.supplied.consults hc hP,
    hf.round.trans h.round, hbegins, hbottom, ?_, hfaults.trans h.faults, ?_, htidy⟩
  · rw [hf.log]
    exact h.listed
  · intro hnone
    rw [hfirst, hdelivered, log]
    exact h.delivered hnone

theorem kept_of_present (h : Engaged t owed start r) {d : Digest} {n : Node}
    (hlook : (r.look H d).2 = .present n) : ¬ t.lost d :=
  h.supplied.kept_of_present hlook

/-- If nothing ever failed, a step that goes on puts nothing aside and finds names in order. -/
theorem tidy_onward (h : Engaged t owed start r) (hphase : r.phase = .comparing)
    (goes : Onward H .accepting r r') (hnone : ∀ d, ¬ t.failed d) :
    r'.traversal.aside = [] ∧ Ascends r' [] r'.recorded := by
  obtain ⟨haside, hascends⟩ := h.tidy hnone
  constructor
  · rcases goes.aside haside with haside' | ⟨d, givenUp, hlook⟩
    · exact haside'
    · exact absurd (t.failed_of_lost d (h.supplied.lost_of_spoilt hlook)) (hnone d)
  · cases notes_stride hphase (.onward goes) with
    | keeps round recorded last =>
        rw [recorded]
        exact hascends.keeps recorded last
    | finds round a recorded follows last =>
        rw [recorded]
        exact hascends.finds recorded follows last
    | resumes round recorded resumes =>
        obtain ⟨-, -, d, hd, -⟩ := resumes
        rw [haside] at hd
        cases hd
    | clears recorded =>
        rw [recorded]
        exact ⟨recorded, .nil, fun a ha => nomatch ha⟩

/-- The traversal goes on. -/
theorem onward (h : Engaged t owed start r) (hphase : r.phase = .comparing)
    (goes : Onward H .accepting r r')
    (hevolves : Evolves H (· ∈ namesBelow H t.x) r r') : Engaged t owed start r' := by
  have hattends := h.attends.strides t.inj h.round t.baseline
    (fun _ _ hlook => h.kept_of_present hlook) goes
  have hs : Strode H .accepting r r' .onward := .onward goes
  obtain ⟨hround, hphase'⟩ := hs.stays
  refine ⟨hattends, hevolves.orderly, ?_, h.supplied.strides hs (fun _ => h.mentions),
    hround.trans h.round, ?_, ?_, ?_, hs.tells.faults_eq.trans h.faults, ?_,
    h.tidy_onward hphase goes⟩
  · exact h.course.change_settled h.attends.awaits hevolves.known hevolves.change
  · intro hloading
    cases (hphase'.trans hphase).symm.trans hloading
  · intro d hd
    rcases goes.getLast?_path hd with hd | ⟨r₁, n, hconsults, hlook⟩
    · exact h.bottom d hd
    · exact (h.consults hconsults (fun _ => h.mentions)).kept_of_present hlook
  · cases hs.tells with
    | nothing log delivered firstName faults =>
        rw [log]
        exact h.listed
    | @finds f fs n a next position log delivered faults =>
        intro b hb
        rw [log] at hb
        rcases List.mem_append.mp hb with hb | hb
        · exact h.listed b hb
        · obtain rfl := List.mem_singleton.mp hb
          exact (h.covers.next f (next ▸ List.mem_cons_self)).item position
  · intro hnone
    obtain ⟨hfirst, hdelivered⟩ := h.delivered hnone
    exact hs.tells.handsOut hfirst hdelivered

end Engaged

/-! ## Steps -/

/-- What it takes to go on. -/
noncomputable def price (t : Task H) (r : Reconciler) : Nat :=
  effort H t.x r.traversal + if r.phase = .loading then 1 else 0

/-- What a step of a reconciler at work comes to. -/
inductive Gets (t : Task H) (owed : List Digest) (start : Nat) (r : Reconciler) :
    Reconciler × Option Outcome → Prop
  | onward {r' : Reconciler} (engaged : Engaged t owed start r') (less : price t r' < price t r) :
      Gets t owed start r (r', none)
  | through (next : r.traversal.next = []) (aside : r.traversal.aside = []) :
      Gets t owed start r (r.closeRound H, none)
  | waiting {r' : Reconciler} (engaged : Engaged t owed start r')
      (unanswered : owed ++ r'.journal.asked.drop start ≠ []) :
      Gets t owed start r (r', some .waiting)
  | stuck {r' : Reconciler} (engaged : Engaged t owed start r') (next : r'.traversal.next = [])
      (left : r'.traversal.aside ≠ []) (missed : ∀ d ∈ r'.traversal.aside, r'.cache.GivenUp d) :
      Gets t owed start r (r', some .stuck)

namespace Engaged

theorem compares (h : Engaged t owed start r) :
    Engaged t owed start { r with phase := .comparing } := by
  have hround : r.round ≠ none := by simp [h.round]
  have hphase : r.round = none ↔ Phase.comparing = .choosing ∨ Phase.comparing = .done :=
    iff_of_false hround (by simp)
  have hevolves := evolves_phase h.orderly hphase
  refine { h with
    attends := { h.attends with phase := hphase }
    orderly := hevolves.orderly
    course := h.course.change_settled h.attends.awaits hevolves.known hevolves.change
    supplied := h.supplied.marks (marks_same rfl rfl rfl)
    begins := fun hloading => nomatch hloading
    tidy := ?_ }
  intro hnone
  obtain ⟨haside, recorded, ordered, last⟩ := h.tidy hnone
  exact ⟨haside, recorded, ordered, last⟩

/-- The root of the round and the nodes it refers to are asked for. -/
theorem loads (h : Engaged t owed start r) (hphase : r.phase = .loading) :
    Gets t owed start r (r.step H .accepting) := by
  have hload := loaded_load (H := H) .accepting r
  have htraversal := (fetches_load (H := H) .accepting r).traversal
  have hroot : t.Reaches t.y := .inl (.refl _)
  have hrefs : ∀ {n : Node}, (r.look H t.y).2 = .present n → ∀ d ∈ n.refs, t.Reaches d := by
    intro n hfound d hd
    have hdenotes := denotes_of_look h.attends.genuine hfound
    exact .inl (leads_item t.root hdenotes (Node.mem_refs.mp hd))
  have hlook : Engaged t owed start (r.look H t.y).1 :=
    h.consults (P := fun _ => False) (.look .refl _) (fun _ => False.elim)
  have hthrough : ∀ {r' : Reconciler}, Engaged t owed start r' → r'.traversal = r.traversal →
      Gets t owed start r ({ r' with phase := .comparing }, none) := by
    intro r' h' htraversal
    refine .onward h'.compares ?_
    simp [price, htraversal, hphase]
  unfold step
  simp only [hphase]
  generalize r.load H .accepting = loaded at hload htraversal
  obtain ⟨r', progress⟩ := loaded
  cases hload with
  | idle round => cases round.symm.trans h.round
  | ready round found consults =>
      obtain rfl := Option.some.inj (round.symm.trans h.round)
      exact hthrough (hlook.consults consults (hrefs found)) htraversal
  | waitingRefs round found waits =>
      obtain rfl := Option.some.inj (round.symm.trans h.round)
      exact .waiting (hlook.consults waits.consults (hrefs found))
        (hlook.supplied.unanswered waits (hrefs found))
  | waitingRoot round waits =>
      obtain rfl := Option.some.inj (round.symm.trans h.round)
      have hP : ∀ d, d = t.y → t.Reaches d := fun d hd => hd ▸ hroot
      exact .waiting (h.consults waits.consults hP) (h.supplied.unanswered waits hP)
  | stuck round missed =>
      obtain rfl := Option.some.inj (round.symm.trans h.round)
      exact absurd (h.supplied.lost_of_spoilt missed) t.root

/-- A step of the traversal. -/
theorem strides (h : Engaged t owed start r) (hphase : r.phase = .comparing) :
    Gets t owed start r (r.step H .accepting) := by
  have hs := strode_stride (H := H) .accepting r
  have hspec := stride_spec t.inj .accepting h.orderly h.round
  have hprice : ∀ {r' : Reconciler}, r'.phase = .comparing →
      price t r' = effort H t.x r'.traversal := by
    intro r' hphase
    simp [price, hphase]
  unfold step
  simp only [hphase]
  generalize r.stride H .accepting = strode at hs hspec
  obtain ⟨r', stride⟩ := strode
  cases stride with
  | onward =>
      have hphase' : r'.phase = .comparing := hs.stays.2.trans hphase
      cases hs with
      | onward goes =>
          refine .onward (h.onward hphase goes hspec) ?_
          rw [hprice hphase, hprice hphase']
          exact h.attends.effort_lt t.inj h.round t.current t.next goes
  | through =>
      cases hs with
      | through next aside => exact .through next aside
  | waiting =>
      cases hs with
      | waiting waits =>
          exact .waiting (h.consults waits.consults (fun _ hd => h.mentions hd.mentions))
            (h.supplied.unanswered waits (fun _ hd => h.mentions hd.mentions))
  | stuck =>
      have hstuck : ∀ {r' : Reconciler}, Engaged t owed start r' →
          r'.giveWay H = (r', some .stuck) := by
        intro r' h'
        simp [giveWay, h'.hasWork]
      cases hs with
      | exhausted next left consults missed =>
          have h' := h.consults consults (fun _ => h.mentions)
          have htraversal := consults.fetches.traversal
          dsimp only
          rw [hstuck h']
          exact .stuck h' (htraversal ▸ next) (htraversal ▸ left) (htraversal ▸ missed)
      | @lostRoot f next unresolved missed =>
          refine absurd (h.supplied.lost_of_spoilt missed) (h.bottom f.digest ?_)
          rw [path, next]
          rfl
      | @lostCurrent g gs current unresolved missed =>
          have hwithin := h.covers.current g (current ▸ List.mem_cons_self)
          exact absurd (h.supplied.lost_of_spoilt missed) (t.baseline g.digest hwithin.leads)
  | fault f => exact hspec.elim

theorem step (h : Engaged t owed start r) : Gets t owed start r (r.step H .accepting) := by
  rcases h.busy with hphase | hphase
  · exact h.loads hphase
  · exact h.strides hphase

end Engaged

/-! ## Passes -/

/-- What a pass of a reconciler at work comes to. -/
inductive Ends (t : Task H) (owed : List Digest) (start : Nat) : Reconciler → Outcome → Prop
  | idle {r : Reconciler} (engaged : Engaged t owed start r) (next : r.traversal.next = [])
      (aside : r.traversal.aside = []) : Ends t owed start (r.closeRound H) .idle
  | waiting {r : Reconciler} (engaged : Engaged t owed start r)
      (unanswered : owed ++ r.journal.asked.drop start ≠ []) : Ends t owed start r .waiting
  | stuck {r : Reconciler} (engaged : Engaged t owed start r) (next : r.traversal.next = [])
      (left : r.traversal.aside ≠ []) (missed : ∀ d ∈ r.traversal.aside, r.cache.GivenUp d) :
      Ends t owed start r .stuck

/-- A round that is through leaves nothing to do. -/
theorem Engaged.rests_of_through (h : Engaged t owed start r) :
    (r.closeRound H).phase = .done ∧ (r.closeRound H).hasWork = false := by
  have hwork := h.hasWork
  have hclose : (r.closeRound H).hasWork = r.hasWork := by
    simp [closeRound, h.round, Reconciler.hasWork]
  refine ⟨?_, hclose.trans hwork⟩
  simp [closeRound, h.round]

theorem Engaged.steps (h : Engaged t owed start r) :
    ∃ r' outcome, steps H .accepting r = some (r', outcome) ∧ Ends t owed start r' outcome := by
  induction hprice : price t r using Nat.strong_induction_on generalizing r with
  | _ k ih =>
    have hgets := h.step
    rcases hresult : r.step H .accepting with ⟨r', outcome⟩
    rw [hresult] at hgets
    cases hgets with
    | onward engaged less =>
        rw [Reconciler.steps, loop_of_none hresult]
        exact ih _ (hprice ▸ less) engaged rfl
    | through next aside =>
        obtain ⟨hphase, hwork⟩ := h.rests_of_through
        have hlast : (r.closeRound H).step H .accepting = (r.closeRound H, some .idle) := by
          simp [Reconciler.step, hphase, hwork]
        rw [Reconciler.steps, loop_of_none hresult, loop_of_some hlast]
        exact ⟨r.closeRound H, .idle, rfl, .idle h next aside⟩
    | waiting engaged unanswered =>
        exact ⟨r', .waiting, loop_of_some hresult, .waiting engaged unanswered⟩
    | stuck engaged next left missed =>
        exact ⟨r', .stuck, loop_of_some hresult, .stuck engaged next left missed⟩

/-! ## Between two passes -/

namespace Engaged

/-- Fetches end, with whatever results. -/
theorem keeps (h : Engaged t owed start r) {c : Cache} (hc : Cache.Keeps H r.cache c)
    {owed' : List Digest}
    (hsupplied : Supplied H t.lost t.failed t.Reaches t.limit owed' start { r with cache := c }) :
    Engaged t owed' start { r with cache := c } := by
  have hf := fetches_cache r hc
  refine { h with
    attends := h.attends.fetches hf
    orderly := h.orderly.fetches hf
    course := ?_
    supplied := hsupplied
    tidy := ?_ }
  · rw [hf.known, hf.ledger]
    exact h.course
  · intro hnone
    obtain ⟨haside, recorded, ordered, last⟩ := h.tidy hnone
    exact ⟨haside, recorded, ordered, last⟩

theorem rebase (h : Engaged t owed start r) :
    Engaged t (owed ++ r.journal.asked.drop start) r.journal.asked.length r :=
  { h with supplied := h.supplied.rebase }

theorem perm {owed' : List Digest} (h : Engaged t owed start r) (hperm : owed'.Perm owed) :
    Engaged t owed' start r :=
  { h with supplied := h.supplied.perm hperm }

/-- A pass begins. -/
theorem called (h : Engaged t owed start r) :
    Engaged t owed start { r with tally.runs := r.tally.runs + 1 } := by
  have hf : Fetches H r { r with tally.runs := r.tally.runs + 1 } := ⟨.refl _, rfl, rfl⟩
  refine { h with
    attends := h.attends.fetches hf
    orderly := h.orderly.fetches hf
    supplied := h.supplied.marks (marks_same rfl rfl rfl)
    tidy := ?_ }
  intro hnone
  obtain ⟨haside, recorded, ordered, last⟩ := h.tidy hnone
  exact ⟨haside, recorded, ordered, last⟩

end Engaged

/-! ## The beginning -/

/-- The root of a task was announced to a reconciler that knows nothing but its baseline. -/
structure Poised (t : Task H) (r : Reconciler) : Prop where
  attends : Attends H t.lost t.x t.y t.origin r
  orderly : r.Orderly H (· ∈ namesBelow H t.x)
  course : t.course.At H [] r.cache.known r.ledger
  supplied : r.Supplied H t.lost t.failed t.Reaches t.limit [] 0
  phase : r.phase = .choosing
  queue : r.queue = { roots := [t.y] }
  baseline : r.baseline = some t.x
  unknown : r.cache.known t.y = false
  asked : r.journal.asked = []
  log : r.journal.recorded = []
  delivered : r.journal.delivered = []
  firstName : r.firstName = t.origin.firstName
  faults : r.tally.faults = 0

theorem Poised.called (h : r.Poised t) :
    Poised t { r with tally.runs := r.tally.runs + 1 } := by
  have hf : Fetches H r { r with tally.runs := r.tally.runs + 1 } := ⟨.refl _, rfl, rfl⟩
  exact { h with
    attends := h.attends.fetches hf
    orderly := h.orderly.fetches hf
    supplied := h.supplied.marks (marks_same rfl rfl rfl) }

theorem Poised.choose_eq (h : r.Poised t) :
    r.choose H = openRound { r with queue := { active := some t.y } } t.y := by
  have hcandidates : [t.y].filter (fun d => some d ≠ some t.x && !r.cache.known d) = [t.y] := by
    simp [h.unknown, Ne.symm t.differ]
  have hascending : ascending [t.y] = [t.y] := rfl
  simp only [choose, h.queue, takeBodies, h.attends.awaits, Bool.false_eq_true, if_false, h.baseline,
    List.nil_append, hcandidates, hascending]
  rfl

/-- The root is taken up. -/
theorem Poised.engages (h : r.Poised t) : Engaged t [] 0 (r.choose H) := by
  have hround : r.round = none := h.attends.phase.mpr (.inl h.phase)
  have hevolves := evolves_choose t.inj h.orderly hround ?_
  · have hattends := h.attends.chooses hround
    have hcourse := h.course.change_settled h.attends.awaits hevolves.known hevolves.change
    have horderly := hevolves.orderly
    rw [h.choose_eq] at hattends hcourse horderly ⊢
    have htraversal : Traversal.begin r.baseline t.y = Traversal.begin (some t.x) t.y := by
      rw [h.baseline]
    refine ⟨hattends, horderly, hcourse, h.supplied.marks (marks_same rfl rfl rfl), rfl,
      fun _ => htraversal, ?_, ?_, h.faults, ?_, ?_⟩
    · intro d hd
      obtain rfl : t.y = d := Option.some.inj hd
      exact t.root
    · intro a ha
      have ha : a ∈ r.journal.recorded := ha
      rw [h.log] at ha
      cases ha
    · intro hnone
      refine ⟨h.firstName.trans hnone, ?_⟩
      have hdelivered : r.journal.delivered = r.journal.recorded.map Name.parent := by
        rw [h.delivered, h.log]
        rfl
      exact hdelivered
    · exact fun _ => ⟨rfl, rfl, .nil, fun a ha => nomatch ha⟩
  · intro hawaits
    cases h.attends.awaits.symm.trans hawaits

/-- A reconciler that has a task to do or is at it. -/
inductive Ready (t : Task H) (owed : List Digest) (r : Reconciler) : Prop
  | poised (h : r.Poised t) (nothing : owed = [])
  | engaged (h : Engaged t owed r.journal.asked.length r)

theorem Ready.accepted (h : Ready t owed r) : r.journal.accepted = r.journal.asked := by
  cases h with
  | poised h nothing => exact h.supplied.accepted
  | engaged h => exact h.supplied.accepted

theorem Ready.pass (h : Ready t owed r) :
    ∃ r' outcome, r.pass H .accepting = (r', some outcome) ∧
      Ends t owed r.journal.asked.length r' outcome := by
  have hpass : ∀ {r' : Reconciler} {outcome : Outcome},
      Reconciler.steps H .accepting { r with tally.runs := r.tally.runs + 1 } =
        some (r', outcome) → r.pass H .accepting = (r', some outcome) := by
    intro r' outcome hsteps
    rw [Reconciler.pass, hsteps]
  cases h with
  | poised h nothing =>
      have hstep : Reconciler.step H .accepting { r with tally.runs := r.tally.runs + 1 } =
          (Reconciler.choose H { r with tally.runs := r.tally.runs + 1 }, none) := by
        simp only [Reconciler.step, h.phase]
      obtain ⟨r', outcome, hsteps, hends⟩ := h.called.engages.steps
      refine ⟨r', outcome, hpass ?_, ?_⟩
      · exact (loop_of_none hstep).trans hsteps
      · rw [nothing, h.asked]
        exact hends
  | engaged h =>
      obtain ⟨r', outcome, hsteps, hends⟩ := h.called.steps
      exact ⟨r', outcome, hpass hsteps, hends⟩

end Reconciler

end Reconcile

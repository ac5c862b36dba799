import Reconcile.Proofs.Reconciler.Telling

/-! # What a step of a pass can be

Nothing is assumed here of the trees or of the reconciler: the cases of a step, with its outcome if it
is the last. Only the choice of a root and the end of a round touch anything beside the nodes, the
positions and what was found. -/

namespace Reconcile.Reconciler

open Traversal

variable {H : Hashing} {agent : Agent} {P : Digest → Prop} {r r' r'' : Reconciler}

/-! ## What a step inside a round leaves alone -/

/-- Between two states at most the nodes, the positions and what was found changed. -/
structure Continues (r r' : Reconciler) : Prop where
  queue : r'.queue = r.queue
  phase : r'.phase = r.phase
  round : r'.round = r.round
  awaitsBaseline : r'.awaitsBaseline = r.awaitsBaseline
  baseline : r'.baseline = r.baseline
  extra : r'.extra = r.extra
  faults : r'.tally.faults = r.tally.faults
  sameRound : SameRound r r'

theorem Continues.refl (r : Reconciler) : Continues r r :=
  ⟨rfl, rfl, rfl, rfl, rfl, rfl, rfl, rfl, rfl⟩

theorem Consults.continues (h : Consults H agent P r r') : Continues r r' :=
  ⟨h.fetches.queue, h.fetches.phase, h.fetches.round, h.fetches.awaitsBaseline, h.fetches.baseline,
    h.fetches.extra, h.says_nothing.2.2.2, h.sameRound⟩

theorem continues_effect (r : Reconciler) (w : Traversal) (m : Move) :
    Continues r (effect r w m) := by
  have h := affects_effect r w m
  generalize effect r w m = r' at h ⊢
  cases h <;> exact ⟨rfl, rfl, rfl, rfl, rfl, rfl, rfl, rfl, rfl⟩

theorem Onward.continues (h : Onward H agent r r') : Continues r r' := by
  have hconsults : ∀ {r₁ : Reconciler} {w : Traversal}, Consults H agent r.traversal.Mentions r r₁ →
      Continues r { r₁ with traversal := w } := fun hc => { hc.continues with }
  cases h with
  | resumed next mem consults found => exact hconsults (consults.look _)
  | passedKnown next unresolved known => exact { Continues.refl r with }
  | openedNext next unresolved found => exact { Continues.refl r with }
  | putAside next above unresolved found consults =>
      exact hconsults ((Consults.look .refl _).trans consults)
  | leftNext next resolved isThrough => exact { Continues.refl r with }
  | openedCurrent current unresolved found => exact { Continues.refl r with }
  | leftCurrent current resolved isThrough => exact { Continues.refl r with }
  | acted plan planned => exact { continues_effect _ _ _ with }

/-- The nodes stay genuine. -/
theorem Onward.genuine (h : Onward H agent r r') (hr : r.cache.Genuine H) :
    r'.cache.Genuine H := by
  have hlook : ∀ d, (r.look H d).1.cache.Genuine H := fun d => (fetches_look r d).keeps.genuine hr
  cases h with
  | resumed next mem consults found => exact (consults.look _).fetches.keeps.genuine hr
  | passedKnown next unresolved known => exact hr
  | openedNext next unresolved found => exact hlook _
  | putAside next above unresolved found consults => exact consults.fetches.keeps.genuine (hlook _)
  | @leftNext f fs n next resolved isThrough =>
      unfold leaveNext
      cases f.incomplete with
      | true => exact hr
      | false => exact Cache.genuine_markKnown _ hr
  | openedCurrent current unresolved found => exact hlook _
  | leftCurrent current resolved isThrough => exact hr
  | @acted c m f fs n j plan planned =>
      have hkeeps := keeps_of_plan plan
      have haffects := affects_effect { r with cache := c, traversal := r.traversal.perform m }
        r.traversal m
      generalize effect _ r.traversal m = r' at haffects ⊢
      cases haffects with
      | nothing => exact hkeeps.genuine hr
      | marks => exact Cache.genuine_markKnown _ (hkeeps.genuine hr)
      | records name handsOut => exact hkeeps.genuine hr

/-! ## The cases of a step -/

/-- The stage that a round is in cannot go on. -/
inductive Halts (H : Hashing) (agent : Agent) (r r' : Reconciler) : Prop
  | loading (phase : r.phase = .loading) (loaded : Loaded H agent r r' .stuck)
  | comparing (phase : r.phase = .comparing) (strode : Strode H agent r r' .stuck)

/-- What a step does, and its outcome if it is the last. -/
inductive Paced (H : Hashing) (agent : Agent) (r : Reconciler) : Reconciler → Option Outcome → Prop
  | chose (phase : r.phase = .choosing) : Paced H agent r (r.choose H) none
  | loaded {r' : Reconciler} (phase : r.phase = .loading) (loaded : Loaded H agent r r' .through) :
      Paced H agent r { r' with phase := .comparing } none
  | waits {r' : Reconciler} {P : Digest → Prop} (phase : r.phase = .loading ∨ r.phase = .comparing)
      (consults : Consults H agent P r r') : Paced H agent r r' (some .waiting)
  | went {r' : Reconciler} (phase : r.phase = .comparing) (goes : Onward H agent r r') :
      Paced H agent r r' none
  | closed (phase : r.phase = .comparing) (next : r.traversal.next = [])
      (aside : r.traversal.aside = []) : Paced H agent r (r.closeRound H) none
  | halted {r' : Reconciler} (halts : Halts H agent r r') (idle : r'.hasWork = false) :
      Paced H agent r r' (some .stuck)
  | gaveUp {r' : Reconciler} (halts : Halts H agent r r') (work : r'.hasWork = true) :
      Paced H agent r (r'.abandonRound H) none
  | faulted {c : Cache} {e : Fault} (phase : r.phase = .comparing)
      (plan : Traversal.plan H r.cache r.traversal = (c, .error e)) (meets : r.traversal.Meets) :
      Paced H agent r
        (abandonRound H { r with cache := c, tally.faults := r.tally.faults + 1 }) (some .malformed)
  | woke (phase : r.phase = .done) (work : r.hasWork = true) :
      Paced H agent r { r with phase := .choosing } none
  | rested (phase : r.phase = .done) (idle : r.hasWork = false) : Paced H agent r r (some .idle)

/-- Loading only looks at nodes and asks for them. -/
theorem Loaded.consults {progress : Progress} (h : Loaded H agent r r' progress) :
    ∃ P, Consults H agent P r r' := by
  cases h with
  | idle round => exact ⟨fun _ => False, .refl⟩
  | ready round found consults => exact ⟨_, (Consults.look .refl _).trans consults⟩
  | waitingRefs round found waits => exact ⟨_, (Consults.look .refl _).trans waits.consults⟩
  | waitingRoot round waits => exact ⟨_, waits.consults⟩
  | stuck round missed => exact ⟨fun _ => False, .look .refl _⟩

/-- So does a stage that cannot go on. -/
theorem Halts.consults (h : Halts H agent r r') : ∃ P, Consults H agent P r r' := by
  cases h with
  | loading phase loaded => exact loaded.consults
  | comparing phase strode =>
      cases strode with
      | exhausted next left consults missed => exact ⟨_, consults⟩
      | lostRoot next unresolved missed => exact ⟨fun _ => False, .look .refl _⟩
      | lostCurrent current unresolved missed => exact ⟨fun _ => False, .look .refl _⟩

theorem Halts.phase (h : Halts H agent r r') : r.phase = .loading ∨ r.phase = .comparing := by
  cases h with
  | loading phase loaded => exact .inl phase
  | comparing phase strode => exact .inr phase

theorem paced_giveWay (h : Halts H agent r r') :
    Paced H agent r (r'.giveWay H).1 (r'.giveWay H).2 := by
  unfold giveWay
  split
  · rename_i hwork
    exact .gaveUp h hwork
  · rename_i hwork
    exact .halted h (by simpa using hwork)

/-- Every step of a pass is one of the cases. -/
theorem paced_step (agent : Agent) (r : Reconciler) :
    Paced H agent r (r.step H agent).1 (r.step H agent).2 := by
  unfold step
  split
  · rename_i hphase
    exact .chose hphase
  · rename_i hphase
    have hload := loaded_load (H := H) agent r
    generalize r.load H agent = loaded at hload
    obtain ⟨r', progress⟩ := loaded
    cases progress with
    | through => exact .loaded hphase hload
    | waiting =>
        obtain ⟨P, hconsults⟩ := hload.consults
        exact .waits (.inl hphase) hconsults
    | stuck => exact paced_giveWay (.loading hphase hload)
  · rename_i hphase
    have hs := strode_stride (H := H) agent r
    generalize r.stride H agent = strode at hs
    obtain ⟨r', stride⟩ := strode
    cases stride with
    | onward =>
        cases hs with
        | onward goes => exact .went hphase goes
    | through =>
        cases hs with
        | through next aside => exact .closed hphase next aside
    | waiting =>
        cases hs with
        | waiting waits => exact .waits (.inr hphase) waits.consults
    | stuck => exact paced_giveWay (.comparing hphase hs)
    | fault e =>
        cases hs with
        | faulted plan meets => exact .faulted hphase plan meets
  · rename_i hphase
    split
    · rename_i hwork
      exact .woke hphase hwork
    · rename_i hwork
      exact .rested hphase (by simpa using hwork)

/-- Where both sides are at an item, a step of the traversal acts on them. -/
theorem stride_of_meets (hmeets : r.traversal.Meets) (agent : Agent) :
    r.stride H agent = r.act H := by
  obtain ⟨hleft, hnext, hcurrent⟩ := hmeets
  unfold stride
  split
  · rename_i hnone
    exact absurd hnone hleft
  · rename_i f fs hf
    obtain ⟨hnode, hthrough⟩ := hnext f (by rw [hf]; rfl)
    rw [hnode, hthrough]
    cases hg : r.traversal.current with
    | nil => rfl
    | cons g gs =>
        obtain ⟨hnode', hthrough'⟩ := hcurrent g (by rw [hg]; rfl)
        simp [hnode', hthrough']

/-- A step ends a pass with a fault just when both sides are at an item and the plan for it fails. -/
theorem step_malformed_iff : (r.step H agent).2 = some .malformed ↔
    r.phase = .comparing ∧ r.traversal.Meets ∧
      ∃ e, (Traversal.plan H r.cache r.traversal).2 = .error e := by
  constructor
  · intro hmalformed
    have hpaced := paced_step (H := H) agent r
    rw [hmalformed] at hpaced
    generalize (r.step H agent).1 = r' at hpaced
    cases hpaced with
    | faulted phase plan meets => exact ⟨phase, meets, _, congrArg Prod.snd plan⟩
  · rintro ⟨hphase, hmeets, e, hplan⟩
    have hact : (r.act H).2 = .fault e := by
      unfold act
      generalize Traversal.plan H r.cache r.traversal = planned at hplan
      obtain ⟨c, result⟩ := planned
      obtain rfl : result = .error e := hplan
      rfl
    unfold step
    rw [hphase, stride_of_meets hmeets]
    generalize r.act H = acted at hact
    obtain ⟨r', stride⟩ := acted
    obtain rfl : stride = .fault e := hact
    rfl

/-! ## Choosing a root -/

/-- A root is waiting, by its digest or by the body of a node. -/
def Waiting (H : Hashing) (r : Reconciler) (d : Digest) : Prop :=
  d ∈ r.queue.roots ∨ ∃ body ∈ r.queue.bodies, H body = d ∧ ∃ n, Denotes H d n

/-- The round of a root `y` is opened. -/
structure Opens (H : Hashing) (r r' : Reconciler) (y : Digest) : Prop where
  waiting : r.Waiting H y
  differs : some y ≠ r'.baseline
  unknown : r.cache.known y = false
  awaits : r'.awaitsBaseline = false
  round : r'.round = some y
  phase : r'.phase = .loading
  traversal : r'.traversal = .begin r'.baseline y
  recorded : r'.recorded = []

/-- No root is chosen, and nothing more is to be done. -/
structure Idles (r r' : Reconciler) : Prop where
  round : r'.round = none
  phase : r'.phase = .done
  recorded : r'.recorded = r.recorded
  idle : r'.hasWork = false

/-- What choosing a root does: an awaited baseline may be adopted, and the round of a waiting root may
be opened. -/
structure Turned (H : Hashing) (r r' : Reconciler) : Prop where
  genuine : r'.cache.Genuine H
  known : r'.cache.known = r.cache.known
  extra : r'.extra = r.extra
  log : r'.journal.recorded = r.journal.recorded
  tally : r'.tally = r.tally
  baseline : r'.awaitsBaseline = r.awaitsBaseline ∧ r'.baseline = r.baseline ∨
    r.awaitsBaseline = true ∧ r'.awaitsBaseline = false ∧
      ∃ d, r.Waiting H d ∧ r'.baseline = some d
  bodies : r'.queue.bodies = []
  roots : ∀ d ∈ r'.queue.roots, r.Waiting H d
  turn : Idles r r' ∨ ∃ y, Opens H r r' y

theorem Adoption.baseline {awaits : Bool} {baseline : Option Digest} {ds : List Digest}
    (h : Adoption H r.ledger awaits baseline ds) :
    awaits = r.awaitsBaseline ∧ baseline = r.baseline ∨
      r.awaitsBaseline = true ∧ awaits = false ∧ ∃ d, r.Waiting H d ∧ baseline = some d := by
  cases h with
  | without brought nodes none_yet => exact .inl ⟨rfl, rfl⟩
  | adopted front body back split awaited node brought nodes =>
      have hbody : body ∈ r.queue.bodies := by
        have split : r.queue.bodies = front ++ body :: back := split
        rw [split]
        exact List.mem_append_right front List.mem_cons_self
      exact .inr ⟨awaited, rfl, H body, .inr ⟨body, hbody, rfl, node⟩, rfl⟩

/-- Taking bodies in and choosing a root leave the journal and the counts alone. -/
theorem journal_tally_choose (r : Reconciler) :
    (r.choose H).journal = r.journal ∧ (r.choose H).tally = r.tally := by
  obtain ⟨cache, awaits, baseline, queue, -, -, hchoose | ⟨best, hchoose⟩⟩ := choose_eq (H := H) r
  · rw [hchoose]
    exact ⟨rfl, rfl⟩
  · rw [hchoose]
    exact ⟨rfl, rfl⟩

theorem genuine_of_taking {bodies : List Bytes} {ds : List Digest} (h : Taking H r bodies r' ds)
    (hr : r.cache.Genuine H) : r'.cache.Genuine H := by
  cases h with
  | kept fetches brought nodes none_yet => exact fetches.keeps.genuine hr
  | adopted front body back split awaited node fetches brought nodes =>
      exact fetches.keeps.genuine hr

/-- A reconciler without a round chooses a root like this. -/
theorem turned_choose (hr : r.cache.Genuine H) (hround : r.round = none) :
    Turned H r (r.choose H) := by
  obtain ⟨mid, ds, -, htaking, hchoice⟩ := choose_cases hr
  have htally := (journal_tally_choose (H := H) r).2
  have hgenuine : mid.cache.Genuine H := genuine_of_taking htaking hr
  have hknown := known_of_taking htaking
  have hledger := ledger_of_taking htaking
  have hextra : mid.extra = r.extra := congrArg Ledger.extra hledger
  have hlog : mid.journal.recorded = r.journal.recorded := congrArg Ledger.log hledger
  have hadoption := adoption_of_taking htaking
  have hcandidate : ∀ d ∈ candidates r.cache.known r.ledger mid.awaitsBaseline mid.baseline ds,
      r.Waiting H d ∧ some d ≠ mid.baseline ∧ r.cache.known d = false := by
    intro d hd
    obtain ⟨hwaits, hrest⟩ := mem_candidates.mp hd
    refine ⟨?_, hrest⟩
    rcases hwaits with hd | ⟨-, hd⟩
    · exact .inr (hadoption.mem hd)
    · exact .inl hd
  have hkept : ∀ d ∈ r.ledger.kept mid.awaitsBaseline, r.Waiting H d :=
    fun d hd => .inl (Ledger.mem_of_mem_kept hd)
  rcases hchoice with ⟨-, hchoose⟩ | ⟨best, hbest, hchoose⟩
  · rw [hchoose] at htally ⊢
    refine ⟨hgenuine, hknown, hextra, hlog, htally, hadoption.baseline, rfl, hkept, .inl ?_⟩
    refine ⟨(congrArg Ledger.round hledger).trans hround, rfl, congrArg Ledger.recorded hledger, ?_⟩
    cases mid.awaitsBaseline <;> simp [hasWork, Ledger.kept]
  · rw [hchoose] at htally ⊢
    obtain ⟨hwaiting, hdiffers, hunknown⟩ := hcandidate best (List.mem_of_getLast? hbest)
    refine ⟨hgenuine, hknown, hextra, hlog, htally, hadoption.baseline, rfl, ?_, .inr ⟨best, ?_⟩⟩
    · intro d hd
      rcases mem_addMissing.mp hd with hd | hd
      · exact hkept d hd
      · exact (hcandidate d (List.dropLast_subset _ hd)).1
    · have hsettled : mid.awaitsBaseline = false := by
        cases hawaits : mid.awaitsBaseline with
        | false => rfl
        | true =>
            rw [hawaits] at hadoption hbest
            rw [hadoption.candidates_eq_nil] at hbest
            cases hbest
      exact ⟨hwaiting, hdiffers, hunknown, hsettled, rfl, rfl, rfl, rfl⟩

/-- If a round is in progress then, it was opened. -/
theorem Turned.opens (h : Turned H r r') {y : Digest} (hy : y ∈ r'.round) : Opens H r r' y := by
  rcases h.turn with idles | ⟨z, opens⟩
  · cases idles.round.symm.trans hy
  · exact Option.some.inj (opens.round.symm.trans hy) ▸ opens

/-! ## Rounds that are given up -/

/-- Noting a fault only looks at nodes. -/
theorem fetches_of_plan {c : Cache} {e : Fault}
    (plan : Traversal.plan H r.cache r.traversal = (c, .error e)) :
    Fetches H r { r with cache := c, tally.faults := r.tally.faults + 1 } :=
  ⟨keeps_of_plan plan, rfl, rfl⟩

/-- When a round is given up, the baseline stays, or the stand-in becomes one. -/
theorem mem_baseline_abandonRound {d : Digest} (hd : d ∈ (r.abandonRound H).baseline) :
    d ∈ r.baseline ∨ ∃ names, d ∈ (Cache.standIn H names).map Prod.fst := by
  obtain ⟨-, hremainder, -⟩ := Cache.sift_sub (H := H) r.cache r.baseline r.remembered
  simp only [abandonRound, hremainder, Option.mem_def, Option.or_eq_some_iff] at hd
  exact hd.imp_right (fun hd => ⟨_, hd.2⟩)

theorem closeRound_aborted (r : Reconciler) : (r.closeRound H).tally.aborted = r.tally.aborted := by
  unfold closeRound
  split <;> rfl

end Reconcile.Reconciler

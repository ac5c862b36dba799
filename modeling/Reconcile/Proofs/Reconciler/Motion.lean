import Reconcile.Proofs.Cache.Supply
import Reconcile.Proofs.Reconciler.Ledger
import Reconcile.Proofs.Traversal.Choice

/-! # What a step of the traversal can be

Nothing is assumed here of the trees or of the reconciler: the cases of a step, with all that it saw.
Whatever else it does, a step only looks at nodes and asks for nodes that the traversal mentions. -/

namespace Reconcile

/-- A digest stands at a position of a traversal or was put aside. -/
def Traversal.Mentions (w : Traversal) (d : Digest) : Prop :=
  (∃ f ∈ w.next, f.digest = d) ∨ (∃ f ∈ w.current, f.digest = d) ∨ d ∈ w.aside

/-- The node of a digest is yet to come at an innermost position of a traversal, or was put aside. -/
inductive Traversal.Awaits (w : Traversal) : Digest → Prop
  | next {f : Frame} {fs : List Frame} (next : w.next = f :: fs) (unresolved : f.node = none) :
      Awaits w f.digest
  | current {g : Frame} {gs : List Frame} (current : w.current = g :: gs)
      (unresolved : g.node = none) : Awaits w g.digest
  | aside {d : Digest} (mem : d ∈ w.aside) : Awaits w d

theorem Traversal.Awaits.mentions {w : Traversal} {d : Digest} (h : w.Awaits d) : w.Mentions d := by
  cases h with
  | @next f fs next unresolved => exact .inl ⟨f, next ▸ List.mem_cons_self, rfl⟩
  | @current g gs current unresolved => exact .inr (.inl ⟨g, current ▸ List.mem_cons_self, rfl⟩)
  | aside mem => exact .inr (.inr mem)

namespace Reconciler

variable {H : Hashing} {agent : Agent} {P Q : Digest → Prop} {r r' r'' : Reconciler} {d : Digest}

/-! ## Looking and asking -/

/-- A reconciler that looks at nodes, and asks for some of those that satisfy `P`. -/
inductive Consults (H : Hashing) (agent : Agent) (P : Digest → Prop) (r : Reconciler) :
    Reconciler → Prop
  | refl : Consults H agent P r r
  | look {r' : Reconciler} (before : Consults H agent P r r') (d : Digest) :
      Consults H agent P r (r'.look H d).1
  | ask {r' : Reconciler} (before : Consults H agent P r r') {d : Digest} (allowed : P d) :
      Consults H agent P r (r'.await agent d)

theorem Consults.trans (h : Consults H agent P r r') (h' : Consults H agent P r' r'') :
    Consults H agent P r r'' := by
  induction h' with
  | refl => exact h
  | look _ d ih => exact ih.look d
  | ask _ allowed ih => exact ih.ask allowed

theorem Consults.mono (h : Consults H agent P r r') (hPQ : ∀ {d}, P d → Q d) :
    Consults H agent Q r r' := by
  induction h with
  | refl => exact .refl
  | look _ d ih => exact ih.look d
  | ask _ allowed ih => exact ih.ask (hPQ allowed)

theorem Consults.fetches (h : Consults H agent P r r') : Fetches H r r' := by
  induction h with
  | refl => exact .refl r
  | look _ d ih => exact ih.trans (fetches_look _ d)
  | ask _ _ ih => exact ih.trans (fetches_await agent _ _)

/-- Looking and asking change nothing beside the nodes and what is said of the requests. -/
theorem Consults.eq (h : Consults H agent P r r') : ∃ cache sent asked accepted,
    r' = { r with
      cache
      tally.sent := sent
      journal.asked := asked
      journal.accepted := accepted } := by
  induction h with
  | refl => exact ⟨_, _, _, _, rfl⟩
  | look _ d ih =>
      obtain ⟨_, _, _, _, rfl⟩ := ih
      exact ⟨_, _, _, _, rfl⟩
  | ask _ _ ih =>
      obtain ⟨_, _, _, _, rfl⟩ := ih
      unfold await request
      split <;> exact ⟨_, _, _, _, rfl⟩

/-- A node was asked for that may still come, if the agent did not refuse. -/
inductive Waits (H : Hashing) (agent : Agent) (P : Digest → Prop) (r : Reconciler) :
    Reconciler → Prop
  | mk {r₁ r' : Reconciler} {d : Digest} (before : Consults H agent P r r₁) (allowed : P d)
      (answer : ∀ a ∈ (r₁.request agent d).2, a.isAwaited = true)
      (after : Consults H agent P (r₁.await agent d) r') : Waits H agent P r r'

theorem Waits.trans (h : Waits H agent P r r') (h' : Consults H agent P r' r'') :
    Waits H agent P r r'' := by
  obtain ⟨before, allowed, answer, after⟩ := h
  exact ⟨before, allowed, answer, after.trans h'⟩

theorem Waits.consults (h : Waits H agent P r r') : Consults H agent P r r' := by
  obtain ⟨before, allowed, -, after⟩ := h
  exact (before.ask allowed).trans after

theorem request_answer (h : r.cache.obstacle? d = none ∨ r.cache.obstacle? d = some .underWay) :
    ∀ a ∈ (r.request agent d).2, a.isAwaited = true := by
  intro a ha
  unfold request Cache.request at ha
  rcases h with h | h
  · cases hrefusal : agent r.journal.asked d with
    | none =>
        simp only [h, hrefusal] at ha
        obtain rfl := Option.some.inj ha
        rfl
    | some e =>
        simp only [h, hrefusal] at ha
        cases ha
  · simp only [h] at ha
    obtain rfl := Option.some.inj ha
    rfl

theorem waits_await (h : Consults H agent P r r') (hd : P d) (hwants : r'.cache.Wants H d) :
    Waits H agent P r ((r'.look H d).1.await agent d) :=
  ⟨h.look d, hd, request_answer hwants.obstacle?, .refl⟩

/-! ## The cases of loading -/

/-- What loading does and comes to. -/
inductive Loaded (H : Hashing) (agent : Agent) (r : Reconciler) : Reconciler → Progress → Prop
  | idle (round : r.round = none) : Loaded H agent r r .through
  | ready {r' : Reconciler} {root : Digest} {n : Node} (round : r.round = some root)
      (found : (r.look H root).2 = .present n)
      (consults : Consults H agent (· ∈ n.refs) (r.look H root).1 r') :
      Loaded H agent r r' .through
  | waitingRefs {r' : Reconciler} {root : Digest} {n : Node} (round : r.round = some root)
      (found : (r.look H root).2 = .present n)
      (waits : Waits H agent (· ∈ n.refs) (r.look H root).1 r') : Loaded H agent r r' .waiting
  | waitingRoot {r' : Reconciler} {root : Digest} (round : r.round = some root)
      (waits : Waits H agent (· = root) r r') : Loaded H agent r r' .waiting
  | stuck {root : Digest} (round : r.round = some root)
      (missed : (r.look H root).2 = .spoilt true) : Loaded H agent r (r.look H root).1 .stuck

theorem look_eq {finding : Cache.Finding} (h : r.look H d = (r', finding)) :
    r' = (r.look H d).1 ∧ (r.look H d).2 = finding := by
  rw [h]
  exact ⟨rfl, rfl⟩

theorem wants_of_look {finding : Cache.Finding} (h : (r.look H d).2 = finding)
    (hpresent : ∀ n, finding ≠ .present n) (hspoilt : finding ≠ .spoilt true) :
    r.cache.Wants H d := by
  have h : (r.cache.look H d).2 = finding := h
  cases finding with
  | present n => exact absurd rfl (hpresent n)
  | missing => exact .inl h
  | spoilt givenUp =>
      cases givenUp with
      | true => exact absurd rfl hspoilt
      | false => exact .inr h

theorem consults_requestEach (agent : Agent) {r₀ : Reconciler} (ds : List Digest) (waiting : Bool)
    (hconsults : Consults H agent P r₀ r) (hds : ∀ d ∈ ds, P d)
    (hwaits : waiting = true → Waits H agent P r₀ r) :
    Consults H agent P r₀ (requestEach agent ds waiting r).1 ∧
      ((requestEach agent ds waiting r).2 = true →
        Waits H agent P r₀ (requestEach agent ds waiting r).1) := by
  induction ds generalizing waiting r with
  | nil => exact ⟨hconsults, hwaits⟩
  | cons d ds ih =>
      have hds' : ∀ e ∈ ds, P e := fun e he => hds e (List.mem_cons_of_mem d he)
      simp only [requestEach]
      split
      · exact ih waiting hconsults hds' hwaits
      · refine ih _ (hconsults.ask (hds d List.mem_cons_self)) hds' ?_
        intro hw
        rcases Bool.or_eq_true _ _ ▸ hw with hw | hw
        · exact (hwaits hw).trans (.ask .refl (hds d List.mem_cons_self))
        · refine ⟨hconsults, hds d List.mem_cons_self, ?_, .refl⟩
          intro a ha
          rw [Option.mem_def.mp ha] at hw
          exact hw

/-- Loading is one of the cases. -/
theorem loaded_load (agent : Agent) (r : Reconciler) :
    Loaded H agent r (r.load H agent).1 (r.load H agent).2 := by
  unfold load
  split
  · rename_i hround
    exact .idle hround
  · rename_i root hround
    split
    · rename_i r' n h
      obtain ⟨rfl, hfound⟩ := look_eq h
      have hrequests := consults_requestEach (H := H) agent n.refs false
        (.refl (r := (r.look H root).1)) (P := (· ∈ n.refs)) (fun d hd => hd) (fun h => nomatch h)
      generalize requestEach agent n.refs false (r.look H root).1 = asked at hrequests
      obtain ⟨r', waiting⟩ := asked
      cases waiting with
      | true => exact .waitingRefs hround hfound (hrequests.2 rfl)
      | false => exact .ready hround hfound hrequests.1
    · rename_i r' h
      obtain ⟨rfl, hfound⟩ := look_eq h
      exact .stuck hround hfound
    · rename_i r' finding hpresent hspoilt h
      obtain ⟨rfl, hfound⟩ := look_eq h
      exact .waitingRoot hround
        (waits_await .refl rfl (wants_of_look hfound hpresent hspoilt))

theorem fetches_load (agent : Agent) (r : Reconciler) : Fetches H r (r.load H agent).1 := by
  have hload := loaded_load (H := H) agent r
  generalize r.load H agent = loaded at hload
  obtain ⟨r', progress⟩ := loaded
  cases hload with
  | idle round => exact .refl _
  | ready round found consults => exact (fetches_look _ _).trans consults.fetches
  | waitingRefs round found waits => exact (fetches_look _ _).trans waits.consults.fetches
  | waitingRoot round waits => exact waits.consults.fetches
  | stuck round missed => exact fetches_look _ _

/-! ## What a move changes -/

/-- What a move changes beside the positions: nothing, or a tree is marked as known, or a name is
recorded that comes next. -/
inductive Affects (r : Reconciler) (w : Traversal) : Traversal.Move → Reconciler → Prop
  | nothing {m : Traversal.Move} : Affects r w m r
  | marks {d : Digest} : Affects r w (.share d) { r with cache := r.cache.markKnown d }
  | records {a : Name} {firstName : Option Name} {delivered : List Name}
      (name : w.next.head?.bind Traversal.leafAt = some a)
      (handsOut : r.firstName = none →
        firstName = none ∧ delivered = r.journal.delivered ++ [a.parent]) :
      Affects r w .record
        { r with
          recorded := r.recorded ++ [a]
          tally.recorded := r.tally.recorded + 1
          journal.recorded := r.journal.recorded ++ [a]
          journal.delivered := delivered
          firstName }

theorem affects_record {w : Traversal} {a : Name}
    (hname : w.next.head?.bind Traversal.leafAt = some a) :
    Affects r w .record (r.record a) := by
  unfold record
  split
  · exact .nothing
  · unfold deliver
    dsimp only
    split
    · exact .records hname (fun _ => ⟨rfl, rfl⟩)
    · rename_i hfirst
      refine .records hname ?_
      intro hnone
      simp [hnone] at hfirst

theorem affects_effect (r : Reconciler) (w : Traversal) (m : Traversal.Move) :
    Affects r w m (effect r w m) := by
  unfold effect
  split
  · split
    · rename_i a hname
      exact affects_record hname
    · exact .nothing
  · exact .marks
  · exact .nothing

/-! ## The cases of a step -/

/-- A step of the traversal that goes on. -/
inductive Onward (H : Hashing) (agent : Agent) (r : Reconciler) : Reconciler → Prop
  | resumed {r' : Reconciler} {d : Digest} {n : Node} (next : r.traversal.next = [])
      (mem : d ∈ r.traversal.aside) (consults : Consults H agent r.traversal.Mentions r r')
      (found : (r'.look H d).2 = .present n) :
      Onward H agent r
        { (r'.look H d).1 with traversal := r.traversal.restart r.baseline d }
  | passedKnown {f : Frame} {fs : List Frame} (next : r.traversal.next = f :: fs)
      (unresolved : f.node = none) (known : r.cache.known f.digest = true) :
      Onward H agent r { r with traversal.next := fs }
  | openedNext {f : Frame} {fs : List Frame} {n : Node} (next : r.traversal.next = f :: fs)
      (unresolved : f.node = none) (found : (r.look H f.digest).2 = .present n) :
      Onward H agent r { (r.look H f.digest).1 with traversal.next := f.resolve n :: fs }
  | putAside {r' : Reconciler} {f : Frame} {fs : List Frame} {givenUp : Bool}
      (next : r.traversal.next = f :: fs) (above : fs ≠ []) (unresolved : f.node = none)
      (found : (r.look H f.digest).2 = .spoilt givenUp)
      (consults : Consults H agent r.traversal.Mentions (r.look H f.digest).1 r') :
      Onward H agent r { r' with traversal := r.traversal.putAside f.digest }
  | leftNext {f : Frame} {fs : List Frame} {n : Node} (next : r.traversal.next = f :: fs)
      (resolved : f.node = some n) (isThrough : f.isThrough = true) :
      Onward H agent r (r.leaveNext f fs)
  | openedCurrent {g : Frame} {gs : List Frame} {n : Node} (current : r.traversal.current = g :: gs)
      (unresolved : g.node = none) (found : (r.look H g.digest).2 = .present n) :
      Onward H agent r { (r.look H g.digest).1 with traversal.current := g.resolve n :: gs }
  | leftCurrent {g : Frame} {gs : List Frame} {n : Node} (current : r.traversal.current = g :: gs)
      (resolved : g.node = some n) (isThrough : g.isThrough = true) :
      Onward H agent r { r with traversal.current := gs }
  | acted {c : Cache} {m : Traversal.Move} {f : Frame} {fs : List Frame} {n : Node} {j : Item}
      (plan : Traversal.plan H r.cache r.traversal = (c, .ok m))
      (planned : Traversal.Planned H r.cache r.traversal m f fs n j) (meets : r.traversal.Meets) :
      Onward H agent r
        (effect { r with cache := c, traversal := r.traversal.perform m } r.traversal m)

/-- What a step of the traversal does and comes to. -/
inductive Strode (H : Hashing) (agent : Agent) (r : Reconciler) : Reconciler → Stride → Prop
  | onward {r' : Reconciler} (goes : Onward H agent r r') : Strode H agent r r' .onward
  | through (next : r.traversal.next = []) (aside : r.traversal.aside = []) :
      Strode H agent r r .through
  | waiting {r' : Reconciler} (waits : Waits H agent r.traversal.Awaits r r') :
      Strode H agent r r' .waiting
  | exhausted {r' : Reconciler} (next : r.traversal.next = []) (left : r.traversal.aside ≠ [])
      (consults : Consults H agent r.traversal.Mentions r r')
      (missed : ∀ d ∈ r.traversal.aside, r'.cache.GivenUp d) :
      Strode H agent r r' .stuck
  | lostRoot {f : Frame} (next : r.traversal.next = [f]) (unresolved : f.node = none)
      (missed : (r.look H f.digest).2 = .spoilt true) :
      Strode H agent r (r.look H f.digest).1 .stuck
  | lostCurrent {g : Frame} {gs : List Frame} (current : r.traversal.current = g :: gs)
      (unresolved : g.node = none) (missed : (r.look H g.digest).2 = .spoilt true) :
      Strode H agent r (r.look H g.digest).1 .stuck
  | faulted {c : Cache} {e : Traversal.Fault}
      (plan : Traversal.plan H r.cache r.traversal = (c, .error e)) (meets : r.traversal.Meets) :
      Strode H agent r { r with cache := c } (.fault e)

/-- What becomes of the first of the branches that were put aside. -/
theorem resumeFrom_cons (agent : Agent) (d : Digest) (ds : List Digest) (waiting : Bool)
    (r : Reconciler) :
    (∃ n, (r.look H d).2 = .present n ∧ resumeFrom H agent (d :: ds) waiting r =
        ({ (r.look H d).1 with
          traversal := (r.look H d).1.traversal.restart (r.look H d).1.baseline d }, .onward)) ∨
      (r.look H d).2 = .spoilt true ∧
        resumeFrom H agent (d :: ds) waiting r = resumeFrom H agent ds waiting (r.look H d).1 ∨
      r.cache.Wants H d ∧ resumeFrom H agent (d :: ds) waiting r =
        resumeFrom H agent ds true ((r.look H d).1.await agent d) := by
  simp only [resumeFrom]
  split
  · rename_i r' n hlook
    obtain ⟨rfl, hfound⟩ := look_eq hlook
    exact .inl ⟨n, hfound, rfl⟩
  · rename_i r' hlook
    obtain ⟨rfl, hfound⟩ := look_eq hlook
    exact .inr (.inl ⟨hfound, rfl⟩)
  · rename_i r' finding hpresent hspoilt hlook
    obtain ⟨rfl, hfound⟩ := look_eq hlook
    have hwants : r.cache.Wants H d := wants_of_look hfound hpresent hspoilt
    have hanswer : ((r.look H d).1.request agent d).2 ≠ some .givenUp := by
      intro hgivenUp
      cases request_answer hwants.obstacle? .givenUp hgivenUp
    refine .inr (.inr ⟨hwants, ?_⟩)
    simp [hanswer, await]

theorem strode_resumeFrom {r₀ : Reconciler} (hnext : r₀.traversal.next = [])
    (hleft : r₀.traversal.aside ≠ []) (ds : List Digest) (waiting : Bool)
    (hconsults : Consults H agent r₀.traversal.Awaits r₀ r)
    (hds : ∀ d ∈ ds, d ∈ r₀.traversal.aside)
    (hmissed : ∀ d ∈ r₀.traversal.aside, d ∈ ds ∨ waiting = true ∨ r.cache.GivenUp d)
    (hwaits : waiting = true → Waits H agent r₀.traversal.Awaits r₀ r) :
    Strode H agent r₀ (resumeFrom H agent ds waiting r).1 (resumeFrom H agent ds waiting r).2 := by
  induction ds generalizing waiting r with
  | nil =>
      simp only [resumeFrom]
      cases waiting with
      | true => exact .waiting (hwaits rfl)
      | false =>
          refine .exhausted hnext hleft (hconsults.mono Traversal.Awaits.mentions) ?_
          intro d hd
          rcases hmissed d hd with hd | hd | hd
          · cases hd
          · cases hd
          · exact hd
  | cons d ds ih =>
      have hd : d ∈ r₀.traversal.aside := hds d List.mem_cons_self
      have hds' : ∀ e ∈ ds, e ∈ r₀.traversal.aside := fun e he => hds e (List.mem_cons_of_mem d he)
      rcases resumeFrom_cons (H := H) agent d ds waiting r with
        ⟨n, hfound, hresumed⟩ | ⟨hfound, hrest⟩ | ⟨hwants, hrest⟩
      · rw [hresumed]
        have hfetches := (hconsults.look d).fetches
        have hrestart : (r.look H d).1.traversal.restart (r.look H d).1.baseline d =
            r₀.traversal.restart r₀.baseline d := by
          rw [hfetches.traversal, hfetches.baseline]
        rw [hrestart]
        exact .onward (.resumed hnext hd (hconsults.mono Traversal.Awaits.mentions) hfound)
      · rw [hrest]
        refine ih waiting (hconsults.look d) hds' ?_ (fun hw => (hwaits hw).trans (.look .refl d))
        intro e he
        rcases hmissed e he with he | he | he
        · rcases List.mem_cons.mp he with rfl | he
          · exact .inr (.inr (Cache.givenUp_of_look hfound))
          · exact .inl he
        · exact .inr (.inl he)
        · exact .inr (.inr (he.look d))
      · rw [hrest]
        exact ih true ((hconsults.look d).ask (.aside hd)) hds' (fun _ _ => .inr (.inl rfl))
          (fun _ => waits_await hconsults (.aside hd) hwants)

theorem strode_resume (hnext : r.traversal.next = []) :
    Strode H agent r (r.resume H agent).1 (r.resume H agent).2 := by
  unfold resume
  split
  · rename_i haside
    exact .through hnext (List.isEmpty_iff.mp haside)
  · rename_i haside
    have hleft : r.traversal.aside ≠ [] := fun hnone => haside (List.isEmpty_iff.mpr hnone)
    refine strode_resumeFrom hnext hleft _ false .refl (fun d hd => hd) (fun d hd => .inl hd) ?_
    intro h
    cases h

section Sides

variable {f g : Frame} {fs gs : List Frame}

theorem strode_enterNext (hnext : r.traversal.next = f :: fs) (hnone : f.node = none) :
    Strode H agent r (r.enterNext H agent f fs).1 (r.enterNext H agent f fs).2 := by
  have hawaits : r.traversal.Awaits f.digest := .next hnext hnone
  unfold enterNext
  split
  · rename_i hknown
    exact .onward (.passedKnown hnext hnone hknown)
  · split
    · rename_i r' n h
      obtain ⟨rfl, hfound⟩ := look_eq h
      exact .onward (.openedNext hnext hnone hfound)
    · rename_i r' h
      obtain ⟨rfl, hfound⟩ := look_eq h
      exact .waiting (waits_await .refl hawaits (.inl hfound))
    · rename_i r' givenUp h
      obtain ⟨rfl, hfound⟩ := look_eq h
      split
      · rename_i habove
        have hbottom : r.traversal.next = [f] := by rw [hnext, List.isEmpty_iff.mp habove]
        cases givenUp with
        | true => exact .lostRoot hbottom hnone hfound
        | false => exact .waiting (waits_await .refl hawaits (.inr hfound))
      · rename_i habove
        have hne : fs ≠ [] := by
          rintro rfl
          exact habove rfl
        cases givenUp with
        | true => exact .onward (.putAside hnext hne hnone hfound .refl)
        | false =>
            have hasked : Consults H agent r.traversal.Mentions (r.look H f.digest).1
                ((r.look H f.digest).1.await agent f.digest) := .ask .refl hawaits.mentions
            have htraversal := hasked.fetches.traversal
            simp only [Bool.false_eq_true, if_false]
            rw [htraversal]
            exact .onward (.putAside hnext hne hnone hfound hasked)

theorem strode_enterCurrent (hcurrent : r.traversal.current = g :: gs) (hnone : g.node = none) :
    Strode H agent r (r.enterCurrent H agent g gs).1 (r.enterCurrent H agent g gs).2 := by
  have hawaits : r.traversal.Awaits g.digest := .current hcurrent hnone
  unfold enterCurrent
  split
  · rename_i r' n h
    obtain ⟨rfl, hfound⟩ := look_eq h
    exact .onward (.openedCurrent hcurrent hnone hfound)
  · rename_i r' h
    obtain ⟨rfl, hfound⟩ := look_eq h
    exact .lostCurrent hcurrent hnone hfound
  · rename_i r' finding hpresent hspoilt h
    obtain ⟨rfl, hfound⟩ := look_eq h
    exact .waiting (waits_await .refl hawaits (wants_of_look hfound hpresent hspoilt))

theorem strode_act (hmeets : r.traversal.Meets) : Strode H agent r (r.act H).1 (r.act H).2 := by
  unfold act
  split
  · rename_i c e h
    exact .faulted h hmeets
  · rename_i c m h
    obtain ⟨f, fs, n, j, hplanned⟩ := Traversal.planned_of_plan h
    exact .onward (.acted h hplanned hmeets)

end Sides

/-- Every step of a traversal is one of the cases. -/
theorem strode_stride (agent : Agent) (r : Reconciler) :
    Strode H agent r (r.stride H agent).1 (r.stride H agent).2 := by
  have hresolved : ∀ {f : Frame}, ¬ (!f.hasNode) = true → ∃ n, f.node = some n := by
    intro f h
    exact Option.ne_none_iff_exists'.mp (by simpa [Frame.hasNode] using h)
  have hready : ∀ {f : Frame} {fs : List Frame}, ¬ (!f.hasNode) = true → ¬ f.isThrough = true →
      Traversal.Ready (f :: fs) := by
    intro f fs hnode hthrough f' hf'
    obtain rfl := Option.some.inj hf'
    simpa using And.intro hnode hthrough
  unfold stride
  split
  · rename_i hnext
    exact strode_resume hnext
  · rename_i f fs hnext
    split
    · rename_i hnone
      exact strode_enterNext hnext (Frame.hasNode_eq_false (by simpa using hnone))
    · rename_i hnode
      obtain ⟨n, hn⟩ := hresolved hnode
      split
      · rename_i hthrough
        exact .onward (.leftNext hnext hn hthrough)
      · rename_i hthrough
        have hleft : r.traversal.next ≠ [] := by simp [hnext]
        have hreadyNext : Traversal.Ready r.traversal.next := hnext ▸ hready hnode hthrough
        split
        · rename_i hcurrent
          refine strode_act ⟨hleft, hreadyNext, ?_⟩
          intro g hg
          rw [hcurrent] at hg
          cases hg
        · rename_i g gs hcurrent
          split
          · rename_i hnone
            exact strode_enterCurrent hcurrent (Frame.hasNode_eq_false (by simpa using hnone))
          · rename_i hnode'
            obtain ⟨n', hn'⟩ := hresolved hnode'
            split
            · rename_i hthrough'
              exact .onward (.leftCurrent hcurrent hn' hthrough')
            · rename_i hthrough'
              exact strode_act ⟨hleft, hreadyNext, hcurrent ▸ hready hnode' hthrough'⟩

end Reconciler

end Reconcile

import Reconcile.Proofs.Cache.Settled
import Reconcile.Proofs.Reconciler.Dealing
import Reconcile.Proofs.Reconciler.Pacing

/-! # Asking again

Whoever asked for a row of nodes and was not refused has nothing left to ask for: asking for all of them
again changes nothing and tells the same, be they what a root refers to or branches that were put
aside. -/

namespace Reconcile

namespace Cache

variable {H : Hashing} {c : Cache} {d : Digest}

/-- A node need not be asked for. -/
def Met (c : Cache) (d : Digest) : Prop := c.known d = true ∨ ∃ a, c.obstacle? d = some a

/-- A node that is not known in full is on its way. -/
def expects (c : Cache) (d : Digest) : Bool :=
  !c.known d && (c.obstacle? d).any (·.isAwaited)

theorem Met.request (h : c.Met d) (e : Digest) (refusal : Option FetchFailure) :
    (c.request e refusal).1.Met d ∧ (c.request e refusal).1.expects d = c.expects d := by
  have hknown : (c.request e refusal).1.known d = c.known d :=
    (keeps_request (H := fun _ => d) c e refusal).known d
  rcases h with h | ⟨a, ha⟩
  · exact ⟨.inl (hknown.trans h), by simp [expects, hknown, h]⟩
  · have hobstacle := obstacle?_request ha e refusal
    exact ⟨.inr ⟨a, hobstacle⟩, by simp [expects, hknown, hobstacle, ha]⟩

/-- What a pass comes to on account of a node that is not there, when looking and asking change
nothing. -/
inductive Blocks (H : Hashing) (c : Cache) (d : Digest) : Outcome → Prop
  | awaited (h : c.Awaited H d) : Blocks H c d .waiting
  | lost (h : c.Seen H d (.spoilt true)) : Blocks H c d .stuck

/-- The same for a row of nodes: one that is on its way is waited for. -/
inductive BlocksEach (H : Hashing) (c : Cache) : List Digest → Outcome → Prop
  | nil : BlocksEach H c [] .stuck
  | lost {d : Digest} {ds : List Digest} {o : Outcome} (head : c.Blocks H d .stuck)
      (rest : BlocksEach H c ds o) : BlocksEach H c (d :: ds) o
  | awaited {d : Digest} {ds : List Digest} {o : Outcome} (head : c.Blocks H d .waiting)
      (rest : BlocksEach H c ds o) : BlocksEach H c (d :: ds) .waiting

theorem Blocks.outcome {o : Outcome} (h : c.Blocks H d o) : o = .waiting ∨ o = .stuck := by
  cases h with
  | awaited h => exact .inl rfl
  | lost h => exact .inr rfl

theorem BlocksEach.outcome {ds : List Digest} {o : Outcome} (h : c.BlocksEach H ds o) :
    o = .waiting ∨ o = .stuck := by
  induction h with
  | nil => exact .inr rfl
  | lost head rest ih => exact ih
  | awaited head rest ih => exact .inl rfl

end Cache

namespace Reconciler

variable {H : Hashing} {agent : Agent} {P : Digest → Prop} {r r' : Reconciler} {d : Digest}
  {o : Outcome}

/-! ## Refused requests -/

/-- How many requests were refused. -/
def refusals (r : Reconciler) : Int := r.journal.asked.length - r.journal.accepted.length

theorem request_of_obstacle? {a : Cache.Request} (h : r.cache.obstacle? d = some a) :
    r.request agent d = (r, some a) := by
  have hrequest := Cache.request_of_obstacle? h (agent r.journal.asked d)
  cases a with
  | sent => exact absurd h Cache.obstacle?_ne_sent
  | underWay | present | givenUp => simp only [request, hrequest]

/-- A request that has no obstacle is refused or sent. -/
theorem request_of_none (agent : Agent) (h : r.cache.obstacle? d = none) :
    (r.await agent d).refusals = r.refusals + 1 ∨
      (r.await agent d).refusals = r.refusals ∧ (r.request agent d).2 = some .sent ∧
        (r.await agent d).cache = (r.cache.request d none).1 := by
  cases hagent : agent r.journal.asked d with
  | some e =>
      refine .inl ?_
      simp [await, request, Cache.request, h, hagent, refusals]
      omega
  | none =>
      refine .inr ?_
      simp [await, request, Cache.request, h, hagent, refusals]

theorem refusals_le_await (agent : Agent) (r : Reconciler) (d : Digest) :
    r.refusals ≤ (r.await agent d).refusals := by
  cases hobstacle : r.cache.obstacle? d with
  | some a => rw [await, request_of_obstacle? hobstacle]
  | none => rcases request_of_none agent hobstacle with h | ⟨h, -, -⟩ <;> omega

theorem Consults.refusals_le (h : Consults H agent P r r') : r.refusals ≤ r'.refusals := by
  induction h with
  | refl => exact le_refl _
  | look _ d ih => exact ih
  | ask _ _ ih => exact ih.trans (refusals_le_await agent _ _)

/-- A request that is not refused is answered, and the node has an obstacle from then on. -/
theorem request_agreed (h : (r.await agent d).refusals ≤ r.refusals) :
    (r.await agent d).cache = (r.cache.request d none).1 ∧
      (r.request agent d).2 = some ((r.cache.obstacle? d).getD .sent) := by
  cases hobstacle : r.cache.obstacle? d with
  | some a =>
      rw [await, request_of_obstacle? hobstacle, Cache.request_of_obstacle? hobstacle]
      exact ⟨rfl, rfl⟩
  | none =>
      rcases request_of_none agent hobstacle with hrefused | ⟨-, hsent, hcache⟩
      · omega
      · exact ⟨hcache, hsent⟩

/-! ## What looks and requests keep -/

theorem Consults.cache_keeps (Q : Cache → Prop) (h : Consults H agent P r r')
    (look : ∀ c d, Q c → Q (c.look H d).1)
    (ask : ∀ c d refusal, Q c → Q (c.request d refusal).1) (hr : Q r.cache) : Q r'.cache := by
  induction h with
  | refl => exact hr
  | look _ d ih => exact look _ d ih
  | @ask r' _ d _ ih =>
      rw [(request_await agent r' d).1]
      exact ask _ d _ ih

theorem Consults.seen {f : Cache.Finding} (h : Consults H agent P r r') (hd : r.cache.Seen H d f) :
    r'.cache.Seen H d f :=
  h.cache_keeps (Cache.Seen H · d f) (fun _ e hc => hc.look e) (fun _ e refusal hc => hc.request e refusal) hd

theorem Consults.awaited (h : Consults H agent P r r') (hd : r.cache.Awaited H d) :
    r'.cache.Awaited H d :=
  h.cache_keeps (Cache.Awaited H · d) (fun _ e hc => hc.look e) (fun _ e refusal hc => hc.request e refusal) hd

/-- Whoever misses a node and asks for it waits for it, if that is not refused. -/
theorem awaited_await (hwants : r.cache.Wants H d)
    (agreed : ((r.look H d).1.await agent d).refusals ≤ r.refusals) :
    ((r.look H d).1.await agent d).cache.Awaited H d := by
  have hcache := (request_agreed (r := (r.look H d).1) agreed).1
  rw [hcache]
  exact hwants.awaited

theorem await_of_awaited (agent : Agent) (h : r.cache.Awaited H d) : r.await agent d = r := by
  rw [await, request_of_obstacle? h.2]

theorem look_of_seen {f : Cache.Finding} (h : r.cache.Seen H d f) : r.look H d = (r, f) := by
  have h : r.cache.look H d = (r.cache, f) := h
  rw [look, h]

/-! ## Asking for each of a row of nodes -/

theorem requestEach_of_met {ds : List Digest} (waiting : Bool) (h : ∀ d ∈ ds, r.cache.Met d) :
    requestEach agent ds waiting r = (r, waiting || ds.any r.cache.expects) := by
  induction ds generalizing waiting with
  | nil => simp [requestEach]
  | cons d ds ih =>
      have ih := fun waiting => ih waiting (fun e he => h e (List.mem_cons_of_mem d he))
      cases hknown : r.cache.known d with
      | true => simp [requestEach, hknown, ih, Cache.expects]
      | false =>
          obtain ⟨a, ha⟩ := (h d List.mem_cons_self).resolve_left (by simp [hknown])
          simp [requestEach, hknown, request_of_obstacle? ha, ih, Cache.expects, ha,
            Bool.or_assoc]

/-- A node that need not be asked for stays so while others are asked for. -/
theorem met_requestEach (agent : Agent) (ds : List Digest) (waiting : Bool)
    (h : r.cache.Met d) :
    (requestEach agent ds waiting r).1.cache.Met d ∧
      (requestEach agent ds waiting r).1.cache.expects d = r.cache.expects d := by
  induction ds generalizing waiting r with
  | nil => exact ⟨h, rfl⟩
  | cons e ds ih =>
      simp only [requestEach]
      split
      · exact ih waiting h
      · obtain ⟨hmet, hexpects⟩ := h.request e (agent r.journal.asked e)
        rw [← (request_await agent r e).1] at hmet hexpects
        obtain ⟨hmet', hexpects'⟩ := ih (r := r.await agent e) _ hmet
        exact ⟨hmet', hexpects'.trans hexpects⟩

theorem refusals_le_requestEach (agent : Agent) (ds : List Digest) (waiting : Bool)
    (r : Reconciler) : r.refusals ≤ (requestEach agent ds waiting r).1.refusals := by
  induction ds generalizing waiting r with
  | nil => exact le_refl _
  | cons d ds ih =>
      simp only [requestEach]
      split
      · exact ih waiting r
      · exact (refusals_le_await agent r d).trans (ih _ _)

/-- A request that is not refused tells whether the node is on its way. -/
theorem met_await (hunknown : r.cache.known d = false)
    (agreed : (r.await agent d).refusals ≤ r.refusals) :
    (r.await agent d).cache.Met d ∧
      (r.await agent d).cache.expects d = (r.request agent d).2.any (·.isAwaited) := by
  obtain ⟨hcache, hanswer⟩ := request_agreed agreed
  have hobstacle := r.cache.obstacle?_request_self d
  have hknown : (r.cache.request d none).1.known d = false :=
    ((r.cache.keeps_request (H := fun _ => d) d none).known d).trans hunknown
  rw [hcache, hanswer, Cache.expects, hknown, hobstacle]
  refine ⟨.inr ⟨_, hobstacle⟩, ?_⟩
  cases r.cache.obstacle? d <;> rfl

/-- If no request is refused, each node that is not known in full has an obstacle in the end. -/
theorem requestEach_agreed (ds : List Digest) (waiting : Bool)
    (agreed : (requestEach agent ds waiting r).1.refusals ≤ r.refusals) :
    (∀ d ∈ ds, (requestEach agent ds waiting r).1.cache.Met d) ∧
      (requestEach agent ds waiting r).2 =
        (waiting || ds.any (requestEach agent ds waiting r).1.cache.expects) := by
  induction ds generalizing waiting r with
  | nil => simp [requestEach]
  | cons d ds ih =>
      obtain ⟨r₁, hagreed, hmet, hrest⟩ : ∃ r₁,
          (requestEach agent ds (waiting || r₁.cache.expects d) r₁).1.refusals ≤ r₁.refusals ∧
          r₁.cache.Met d ∧ requestEach agent (d :: ds) waiting r =
            requestEach agent ds (waiting || r₁.cache.expects d) r₁ := by
        cases hknown : r.cache.known d with
        | true =>
            have hexpects : r.cache.expects d = false := by simp [Cache.expects, hknown]
            simp only [requestEach, hknown, if_true] at agreed
            refine ⟨r, ?_, .inl hknown, ?_⟩
            · rwa [hexpects, Bool.or_false]
            · simp [requestEach, hknown, hexpects]
        | false =>
            simp only [requestEach, hknown, Bool.false_eq_true, if_false] at agreed
            have hfirst := refusals_le_await agent r d
            have hothers := refusals_le_requestEach agent ds
              (waiting || (r.request agent d).2.any (·.isAwaited)) (r.await agent d)
            obtain ⟨hmet, hexpects⟩ := met_await hknown (hothers.trans agreed)
            refine ⟨r.await agent d, ?_, hmet, ?_⟩
            · rw [hexpects]
              exact agreed.trans hfirst
            · rw [hexpects]
              simp [requestEach, hknown, await]
      rw [hrest]
      obtain ⟨hmet', hexpects⟩ := met_requestEach agent ds
        (waiting || r₁.cache.expects d) hmet
      obtain ⟨hothers, hwaiting⟩ := ih _ hagreed
      refine ⟨?_, ?_⟩
      · intro e he
        rcases List.mem_cons.mp he with rfl | he
        · exact hmet'
        · exact hothers e he
      · rw [hwaiting, List.any_cons, hexpects, Bool.or_assoc]

/-! ## Branches that were put aside -/

theorem consults_resumeFrom (ds : List Digest) (waiting : Bool)
    (h : (resumeFrom H agent ds waiting r).2 ≠ .onward) :
    Consults H agent (fun _ => True) r (resumeFrom H agent ds waiting r).1 := by
  induction ds generalizing waiting r with
  | nil => exact .refl
  | cons d ds ih =>
      rcases resumeFrom_cons (H := H) agent d ds waiting r with
        ⟨n, -, hresumed⟩ | ⟨-, hrest⟩ | ⟨-, hrest⟩
      · exact absurd (congrArg Prod.snd hresumed) h
      · rw [hrest] at h ⊢
        exact (Consults.look .refl d).trans (ih _ h)
      · rw [hrest] at h ⊢
        exact ((Consults.look .refl d).ask trivial).trans (ih _ h)

theorem Consults.blocks (h : Consults H agent P r r') (hd : r.cache.Blocks H d o) :
    r'.cache.Blocks H d o := by
  cases hd with
  | awaited hd => exact .awaited (h.awaited hd)
  | lost hd => exact .lost (h.seen hd)

/-- A traversal that waits, or cannot go on, does the same again. -/
theorem resumeFrom_of_blocks {ds : List Digest} (h : r.cache.BlocksEach H ds o) (waiting : Bool) :
    resumeFrom H agent ds waiting r =
      (r, if waiting = true ∨ o = .waiting then .waiting else .stuck) := by
  induction h generalizing waiting with
  | nil => cases waiting <;> simp [resumeFrom]
  | lost head rest ih =>
      cases head with
      | lost hseen => simp [resumeFrom, look_of_seen hseen, ih waiting]
  | awaited head rest ih =>
      cases head with
      | awaited hawaited =>
          obtain ⟨hmissing | hspoilt, hobstacle⟩ := hawaited
          · simp [resumeFrom, look_of_seen hmissing, request_of_obstacle? hobstacle, ih]
          · simp [resumeFrom, look_of_seen hspoilt, request_of_obstacle? hobstacle, ih]

/-- If no request is refused, each branch is waited for in the end or has been given up. -/
theorem resumeFrom_agreed (ds : List Digest) (waiting : Bool)
    (hstops : (resumeFrom H agent ds waiting r).2 ≠ .onward)
    (agreed : (resumeFrom H agent ds waiting r).1.refusals ≤ r.refusals) :
    ∃ o, (resumeFrom H agent ds waiting r).1.cache.BlocksEach H ds o ∧
      (resumeFrom H agent ds waiting r).2 =
        if waiting = true ∨ o = .waiting then .waiting else .stuck := by
  induction ds generalizing waiting r with
  | nil =>
      refine ⟨.stuck, .nil, ?_⟩
      cases waiting <;> simp [resumeFrom]
  | cons d ds ih =>
      rcases resumeFrom_cons (H := H) agent d ds waiting r with
        ⟨n, -, hresumed⟩ | ⟨hlost, hrest⟩ | ⟨hwants, hrest⟩
      · exact absurd (congrArg Prod.snd hresumed) hstops
      · rw [hrest] at hstops agreed ⊢
        obtain ⟨o, hothers, hstride⟩ := ih waiting hstops agreed
        have hseen : (r.look H d).1.cache.Seen H d (.spoilt true) := by
          have hfound : (r.cache.look H d).2 = .spoilt true := hlost
          exact hfound ▸ r.cache.seen_look d
        have hblocks := (consults_resumeFrom ds waiting hstops).blocks (.lost hseen)
        exact ⟨o, .lost hblocks hothers, hstride⟩
      · rw [hrest] at hstops agreed ⊢
        have hconsults := consults_resumeFrom ds true hstops
        have hfirst := refusals_le_await agent (r.look H d).1 d
        obtain ⟨o, hothers, hstride⟩ := ih true hstops (agreed.trans hfirst)
        have hawaited := awaited_await hwants (hconsults.refusals_le.trans agreed)
        refine ⟨.waiting, .awaited (hconsults.blocks (.awaited hawaited)) hothers, ?_⟩
        simpa using hstride

end Reconciler

end Reconcile

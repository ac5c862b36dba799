import Mathlib.Data.List.Nodup
import Reconcile.Proofs.Reconciler.Motion

/-! # The requests of a reconciler

A reconciler whose requests are all accepted asks for a node again only after a fetch of it has
failed, and the nodes whose fetches are under way are those that nobody has answered for yet. -/

namespace Reconcile.Reconciler

variable {H : Hashing} {lost failed P scope : Digest → Prop} {owed : List Digest}
  {limit start : Nat}
  {r r' : Reconciler} {d e : Digest}

/-- What a reconciler has asked for is tracked, and lies in `scope`. The requests that nobody has
answered yet are the `owed` ones and all that came after the first `start`. -/
structure Supplied (H : Hashing) (lost failed scope : Digest → Prop) (limit : Nat)
    (owed : List Digest) (start : Nat) (r : Reconciler) : Prop where
  attempts : r.cache.limit = limit
  positive : 0 < limit
  slots : ∀ d, (r.cache.slot d).Tracked H lost failed limit d (r.journal.asked.count d)
  accepted : r.journal.accepted = r.journal.asked
  begun : start ≤ r.journal.asked.length
  scope : ∀ d ∈ r.journal.asked, scope d
  pending : ∀ d, r.cache.pending d = true ↔ d ∈ owed ++ r.journal.asked.drop start
  nodup : (owed ++ r.journal.asked.drop start).Nodup

theorem await_of_none (h : r.cache.obstacle? d = none) :
    r.await .accepting d =
      { r with
        cache := r.cache.modify d (·.setPending true)
        tally.sent := r.tally.sent + 1
        journal.asked := r.journal.asked ++ [d]
        journal.accepted := r.journal.accepted ++ [d] } := by
  simp [await, request, Cache.request, h, Agent.accepting]

theorem await_of_some {a : Cache.Request} (h : r.cache.obstacle? d = some a) :
    r.await .accepting d = { r with cache := r.cache.modify d id } := by
  cases a with
  | sent => exact absurd h Cache.obstacle?_ne_sent
  | underWay => simp [await, request, Cache.request, h]
  | present => simp [await, request, Cache.request, h]
  | givenUp => simp [await, request, Cache.request, h]

namespace Supplied

theorem look (h : r.Supplied H lost failed scope limit owed start) (d : Digest) :
    (r.look H d).1.Supplied H lost failed scope limit owed start := by
  have hslot : ∀ e, (r.look H d).1.cache.slot e =
      if d = e then (r.cache.slot e).look H e else r.cache.slot e :=
    fun e => r.cache.slot_look d e
  have hlimit : (r.look H d).1.cache.limit = r.cache.limit := r.cache.limit_look d
  refine ⟨hlimit.trans h.attempts, h.positive, ?_, h.accepted, h.begun, h.scope, ?_, h.nodup⟩
  · intro e
    rw [hslot]
    split
    · exact (h.slots e).look
    · exact h.slots e
  · intro e
    have hpending : (r.look H d).1.cache.pending e = r.cache.pending e := by
      rw [Cache.pending, Cache.pending, hslot]
      split
      · exact (h.slots e).pending_look
      · rfl
    rw [hpending]
    exact h.pending e

/-- A request that is made. -/
theorem asks (h : r.Supplied H lost failed scope limit owed start) (hd : scope d)
    (hnone : r.cache.obstacle? d = none) :
    (r.await .accepting d).Supplied H lost failed scope limit owed start := by
  obtain ⟨hfilled, hpending, hhope⟩ := Cache.obstacle?_eq_none hnone
  have hunanswered : owed ++ (r.journal.asked ++ [d]).drop start =
      (owed ++ r.journal.asked.drop start) ++ [d] := by
    rw [List.drop_append_of_le_length h.begun, List.append_assoc]
  have hnew : d ∉ owed ++ r.journal.asked.drop start := by
    rw [← h.pending d, Cache.pending, hpending]
    exact Bool.false_ne_true
  rw [await_of_none hnone]
  refine ⟨h.attempts, h.positive, ?_, ?_, ?_, ?_, ?_, ?_⟩
  · intro e
    rw [Cache.slot_modify, List.count_append]
    split
    · rename_i hde
      rw [hde, List.count_singleton_self]
      exact hde ▸ (h.slots d).ask h.positive hfilled hpending (h.attempts ▸ hhope)
    · rename_i hde
      have hcount : [d].count e = 0 := List.count_eq_zero.mpr (by simpa using Ne.symm hde)
      rw [hcount, Nat.add_zero]
      exact h.slots e
  · exact congrArg (· ++ [d]) h.accepted
  · rw [List.length_append]
    exact Nat.le_add_right_of_le h.begun
  · intro e he
    rcases List.mem_append.mp he with he | he
    · exact h.scope e he
    · exact List.mem_singleton.mp he ▸ hd
  · intro e
    rw [hunanswered, List.mem_append, List.mem_singleton, ← h.pending e, Cache.pending,
      Cache.pending, Cache.slot_modify]
    split
    · rename_i hde
      simp [Slot.setPending, hde]
    · rename_i hde
      simp [Ne.symm hde]
  · rw [hunanswered]
    exact List.nodup_append.mpr ⟨h.nodup, List.nodup_singleton d, fun a ha b hb hab =>
      hnew (List.mem_singleton.mp hb ▸ hab ▸ ha)⟩

theorem await (h : r.Supplied H lost failed scope limit owed start) (hd : scope d) :
    (r.await .accepting d).Supplied H lost failed scope limit owed start := by
  cases hobstacle : r.cache.obstacle? d with
  | none => exact h.asks hd hobstacle
  | some a =>
      have hslot : ∀ e, (r.cache.modify d id).slot e = r.cache.slot e := by
        intro e
        rw [Cache.slot_modify]
        split
        · rename_i hde
          rw [hde, id_eq]
        · rfl
      rw [await_of_some hobstacle]
      refine { h with slots := fun e => hslot e ▸ h.slots e, pending := fun e => ?_ }
      rw [← h.pending e, Cache.pending, Cache.pending, hslot]

theorem consults (h : r.Supplied H lost failed scope limit owed start)
    (hc : Consults H .accepting P r r') (hP : ∀ d, P d → scope d) :
    r'.Supplied H lost failed scope limit owed start := by
  induction hc with
  | refl => exact h
  | look _ d ih => exact ih.look d
  | ask _ allowed ih => exact ih.await (hP _ allowed)

end Supplied

/-! ## Nodes that are awaited -/

/-- Between two states nothing was asked for but nodes that satisfy `P`. -/
def Asks (P : Digest → Prop) (r r' : Reconciler) : Prop :=
  ∃ ds, r'.journal.asked = r.journal.asked ++ ds ∧ ∀ d ∈ ds, P d

theorem asks_of_eq (h : r'.journal.asked = r.journal.asked) : Asks P r r' :=
  ⟨[], h.trans (List.append_nil _).symm, fun _ hd => nomatch hd⟩

theorem Asks.congr {r'' : Reconciler} (h : Asks P r r')
    (heq : r''.journal.asked = r'.journal.asked) : Asks P r r'' := by
  obtain ⟨ds, hasked, hds⟩ := h
  exact ⟨ds, heq.trans hasked, hds⟩

theorem Asks.mono {Q : Digest → Prop} (h : Asks P r r') (hPQ : ∀ d, P d → Q d) : Asks Q r r' := by
  obtain ⟨ds, hasked, hds⟩ := h
  exact ⟨ds, hasked, fun d hd => hPQ d (hds d hd)⟩

theorem asks_await (agent : Agent) (r : Reconciler) (d : Digest) :
    Asks (· = d) r (r.await agent d) := by
  unfold Reconciler.await request
  split
  · exact ⟨[d], rfl, fun e he => List.mem_singleton.mp he⟩
  · exact asks_of_eq rfl
  · exact ⟨[d], rfl, fun e he => List.mem_singleton.mp he⟩

theorem Consults.asks {agent : Agent} (h : Consults H agent P r r') : Asks P r r' := by
  induction h with
  | refl => exact asks_of_eq rfl
  | look _ d ih => exact ih
  | @ask r' _ d allowed ih =>
      obtain ⟨ds, hasked, hds⟩ := ih
      obtain ⟨ds', hasked', hds'⟩ := asks_await agent r' d
      refine ⟨ds ++ ds', by rw [hasked', hasked, List.append_assoc], ?_⟩
      intro e he
      rcases List.mem_append.mp he with he | he
      · exact hds e he
      · exact hds' e he ▸ allowed

theorem pending_await
    (h : ∀ a ∈ (r.request .accepting d).2, a.isAwaited = true) :
    (r.await .accepting d).cache.pending d = true := by
  unfold Reconciler.await
  unfold request Cache.request at h ⊢
  cases hobstacle : r.cache.obstacle? d with
  | none => simp [Agent.accepting, Cache.pending, Slot.setPending]
  | some a =>
      cases a with
      | sent => exact absurd hobstacle Cache.obstacle?_ne_sent
      | underWay =>
          have hpending := Cache.pending_of_obstacle? hobstacle
          simpa [Cache.pending] using hpending
      | present => simp [hobstacle, Cache.Request.isAwaited] at h
      | givenUp => simp [hobstacle, Cache.Request.isAwaited] at h

/-- Whoever waits has a request that nobody has answered yet. -/
theorem Supplied.unanswered (h : r.Supplied H lost failed scope limit owed start)
    (hw : Waits H .accepting P r r') (hP : ∀ d, P d → scope d) :
    owed ++ r'.journal.asked.drop start ≠ [] := by
  obtain ⟨before, allowed, answer, after⟩ := hw
  rename_i r₁ d
  have hsupplied := (h.consults before hP).await (hP d allowed)
  have hd := (hsupplied.pending d).mp (pending_await answer)
  obtain ⟨more, hmore, -⟩ := after.asks
  rw [hmore, List.drop_append_of_le_length hsupplied.begun, ← List.append_assoc]
  exact List.append_ne_nil_of_left_ne_nil (List.ne_nil_of_mem hd) more

/-! ## Steps of the traversal -/

/-- The same nodes are at hand and the same were asked for, though more may be known in full. -/
structure Marks (r r' : Reconciler) : Prop where
  limit : r'.cache.limit = r.cache.limit
  slots : ∀ d, ∃ known, r'.cache.slot d = { r.cache.slot d with known }
  asked : r'.journal.asked = r.journal.asked
  accepted : r'.journal.accepted = r.journal.accepted

theorem marks_same (hcache : r'.cache = r.cache) (hasked : r'.journal.asked = r.journal.asked)
    (haccepted : r'.journal.accepted = r.journal.accepted) : Marks r r' :=
  ⟨by rw [hcache], fun d => ⟨(r.cache.slot d).known, by rw [hcache]⟩, hasked, haccepted⟩

theorem marks_markKnown (r : Reconciler) (d : Digest) :
    Marks r { r with cache := r.cache.markKnown d } := by
  refine ⟨rfl, ?_, rfl, rfl⟩
  intro e
  by_cases hde : d = e
  · subst hde
    exact ⟨true, by simp [Cache.markKnown, Slot.markKnown]⟩
  · exact ⟨(r.cache.slot e).known, by simp [Cache.markKnown, hde]⟩

theorem Supplied.marks (h : r.Supplied H lost failed scope limit owed start) (hm : Marks r r') :
    r'.Supplied H lost failed scope limit owed start := by
  refine ⟨hm.limit.trans h.attempts, h.positive, ?_, ?_, hm.asked ▸ h.begun, hm.asked ▸ h.scope, ?_,
    hm.asked ▸ h.nodup⟩
  · intro d
    obtain ⟨known, hslot⟩ := hm.slots d
    rw [hslot, hm.asked]
    exact (h.slots d).known known
  · rw [hm.asked, hm.accepted]
    exact h.accepted
  · intro d
    obtain ⟨known, hslot⟩ := hm.slots d
    rw [hm.asked, ← h.pending d, Cache.pending, Cache.pending, hslot]

theorem marks_effect (r : Reconciler) (w : Traversal) (m : Traversal.Move) :
    Marks r (effect r w m) := by
  have h := affects_effect r w m
  generalize effect r w m = r' at h ⊢
  cases h with
  | nothing => exact marks_same rfl rfl rfl
  | marks => exact marks_markKnown r _
  | records name handsOut => exact marks_same rfl rfl rfl

/-- Beside moving the positions, a step of the traversal looks at nodes it mentions, asks for some of
them and marks what is known. -/
theorem Strode.marks {agent : Agent} {stride : Stride} (h : Strode H agent r r' stride) :
    ∃ r₁, Consults H agent r.traversal.Mentions r r₁ ∧ Marks r₁ r' := by
  have hself : ∀ r : Reconciler, Marks r r := fun _ => marks_same rfl rfl rfl
  cases h with
  | onward goes =>
      cases goes with
      | resumed next mem consults found => exact ⟨_, consults.look _, marks_same rfl rfl rfl⟩
      | passedKnown next unresolved known => exact ⟨r, .refl, marks_same rfl rfl rfl⟩
      | openedNext next unresolved found => exact ⟨_, .look .refl _, marks_same rfl rfl rfl⟩
      | putAside next above unresolved found consults =>
          exact ⟨_, (Consults.look .refl _).trans consults, marks_same rfl rfl rfl⟩
      | @leftNext f fs n next resolved isThrough =>
          refine ⟨r, .refl, ?_⟩
          unfold leaveNext
          cases f.incomplete with
          | true => exact marks_same rfl rfl rfl
          | false =>
              obtain ⟨limit, slots, asked, accepted⟩ := marks_markKnown r f.digest
              exact ⟨limit, slots, asked, accepted⟩
      | openedCurrent current unresolved found => exact ⟨_, .look .refl _, marks_same rfl rfl rfl⟩
      | leftCurrent current resolved isThrough => exact ⟨r, .refl, marks_same rfl rfl rfl⟩
      | @acted c m f fs n j plan planned =>
          have hmarks := marks_effect { r with cache := c, traversal := r.traversal.perform m }
            r.traversal m
          obtain ⟨limit, slots, asked, accepted⟩ := hmarks
          rcases Traversal.plan_fst H r.cache r.traversal with hplan | ⟨d, hplan⟩
          · obtain rfl : c = r.cache := by rw [← hplan, plan]
            exact ⟨r, .refl, limit, slots, asked, accepted⟩
          · obtain rfl : c = (r.cache.look H d).1 := by rw [← hplan, plan]
            exact ⟨(r.look H d).1, .look .refl d, limit, slots, asked, accepted⟩
  | through next aside => exact ⟨r, .refl, hself r⟩
  | waiting waits => exact ⟨r', waits.consults.mono Traversal.Awaits.mentions, hself r'⟩
  | exhausted next left consults missed => exact ⟨r', consults, hself r'⟩
  | lostRoot next unresolved missed => exact ⟨_, .look .refl _, hself _⟩
  | lostCurrent current unresolved missed => exact ⟨_, .look .refl _, hself _⟩
  | @faulted c e plan =>
      rcases Traversal.plan_fst H r.cache r.traversal with hplan | ⟨d, hplan⟩
      · obtain rfl : c = r.cache := by rw [← hplan, plan]
        exact ⟨r, .refl, hself r⟩
      · obtain rfl : c = (r.cache.look H d).1 := by rw [← hplan, plan]
        exact ⟨(r.look H d).1, .look .refl d, hself _⟩

theorem Supplied.strides {stride : Stride} (h : r.Supplied H lost failed scope limit owed start)
    (hs : Strode H .accepting r r' stride) (hscope : ∀ d, r.traversal.Mentions d → scope d) :
    r'.Supplied H lost failed scope limit owed start := by
  obtain ⟨r₁, hconsults, hmarks⟩ := hs.marks
  exact (h.consults hconsults hscope).marks hmarks

/-! ## What a look shows -/

theorem Supplied.shows (h : r.Supplied H lost failed scope limit owed start) (d : Digest) :
    ((r.cache.slot d).look H d).Shows lost failed limit d :=
  (h.slots d).shows

/-- If no fetch failed, no node was asked for twice. -/
theorem Supplied.nodup_asked (h : r.Supplied H lost failed scope limit owed start)
    (hnone : ∀ d, ¬ failed d) : r.journal.asked.Nodup := by
  refine List.nodup_iff_count_le_one.mpr (fun d => ?_)
  have hcount := (h.slots d).count_le
  rw [(h.shows d).spotless (hnone d)] at hcount
  exact hcount

/-- A node that is there is not lost. -/
theorem Supplied.kept_of_present (h : r.Supplied H lost failed scope limit owed start) {n : Node}
    (hlook : (r.look H d).2 = .present n) : ¬ lost d := by
  intro hlost
  have hlook : (r.cache.look H d).2 = .present n := hlook
  have hnever := (h.shows d).never hlost
  rw [Cache.look_snd] at hlook
  unfold Cache.view at hlook
  split at hlook
  · rename_i hbody
    simp [Slot.node?, hbody] at hnever
  · cases hlook
  · cases hlook
  · cases hlook

/-- A node whose last fetch failed is lost. -/
theorem Supplied.lost_of_spoilt (h : r.Supplied H lost failed scope limit owed start) {givenUp : Bool}
    (hlook : (r.look H d).2 = .spoilt givenUp) : lost d := by
  by_contra hkept
  have hlook : (r.cache.look H d).2 = .spoilt givenUp := hlook
  have hshown := (h.shows d).kept hkept
  rw [Cache.look_snd] at hlook
  unfold Cache.view at hlook
  split at hlook
  · cases hlook
  · rename_i hbody
    simp [Slot.isSpoilt, hbody] at hshown
  · cases hlook
  · cases hlook

theorem Supplied.lost_of_givenUp (h : r.Supplied H lost failed scope limit owed start)
    (hgivenUp : r.cache.GivenUp d) : lost d := by
  by_contra hkept
  have hshown := (h.shows d).kept hkept
  rw [Slot.look_of_isFilled_eq_false hgivenUp.unfilled, hgivenUp.1] at hshown
  cases hshown

/-! ## Fetches that end -/

/-- A new pass begins: all that is not answered is owed. -/
theorem Supplied.rebase (h : r.Supplied H lost failed scope limit owed start) :
    r.Supplied H lost failed scope limit (owed ++ r.journal.asked.drop start)
      r.journal.asked.length := by
  refine { h with begun := le_refl _, pending := ?_, nodup := ?_ }
  · intro d
    rw [List.drop_length, List.append_nil]
    exact h.pending d
  · rw [List.drop_length, List.append_nil]
    exact h.nodup

/-- What is owed may be put into any order. -/
theorem Supplied.perm {owed' : List Digest} (h : r.Supplied H lost failed scope limit owed start)
    (hperm : owed'.Perm owed) : r.Supplied H lost failed scope limit owed' start := by
  have hsame := hperm.append_right (r.journal.asked.drop start)
  refine { h with pending := ?_, nodup := hsame.nodup_iff.mpr h.nodup }
  intro d
  rw [hsame.mem_iff]
  exact h.pending d

theorem Supplied.asked_of_pending (h : r.Supplied H lost failed scope limit owed start)
    (hpending : r.cache.pending d = true) : d ∈ r.journal.asked :=
  List.count_pos_iff.mp ((h.slots d).pending hpending).2.2

/-- The first of the owed requests is answered: if the node is lost, not by the node. -/
theorem Supplied.answer {result : Except FetchFailure Bytes}
    (h : r.Supplied H lost failed scope limit (d :: owed) start) (hfailed : lost d → failed d)
    (hbad : lost d → ¬ Brings H d result)
    (hgood : scope d → ¬ failed d → Brings H d result) :
    Supplied H lost failed scope limit owed start
      { r with cache := (r.cache.complete d result).1 } := by
  have hpending : r.cache.pending d = true := (h.pending d).mpr List.mem_cons_self
  have hnodup := List.nodup_cons.mp h.nodup
  have htracked := h.slots d
  have hcomplete : ((r.cache.slot d).complete result).Tracked H lost failed limit d
      (r.journal.asked.count d) := by
    by_cases hlost : lost d
    · exact htracked.complete_lost hlost (hfailed hlost) hpending (hbad hlost)
    · have hunfilled := (htracked.pending hpending).1
      have hspotless : ¬ failed d := by
        intro hfailed
        have hshown := htracked.shows.handed hfailed hlost
        rw [Slot.look_of_isFilled_eq_false hunfilled] at hshown
        cases hbody : (r.cache.slot d).body <;>
          simp [Slot.isFilled, Slot.node?, hbody] at hunfilled hshown
      exact htracked.complete_kept hlost (fun hlost' => absurd hlost' hlost)
        (hgood (h.scope d (h.asked_of_pending hpending)) hspotless)
  refine ⟨?_, h.positive, ?_, h.accepted, h.begun, h.scope, ?_, hnodup.2⟩
  · rw [Cache.complete_fst]
    exact h.attempts
  · intro e
    dsimp only
    rw [Cache.slot_complete]
    split
    · rename_i hde
      exact hde ▸ hcomplete
    · exact h.slots e
  · intro e
    dsimp only
    by_cases hde : d = e
    · subst hde
      rw [Cache.pending_complete_self]
      exact iff_of_false Bool.false_ne_true hnodup.1
    · have hsame := h.pending e
      rw [List.cons_append, List.mem_cons, or_iff_right (Ne.symm hde)] at hsame
      rw [Cache.pending_complete_of_ne _ _ hde]
      exact hsame

/-- A lost node comes after all. -/
theorem Supplied.recover {result : Except FetchFailure Bytes}
    (h : r.Supplied H lost failed scope limit owed start) (hresult : Brings H d result)
    (hunfilled : lost d → (r.cache.slot d).isFilled = false)
    (hpending : r.cache.pending d = false) :
    Supplied H (fun e => lost e ∧ e ≠ d) failed scope limit owed start
      { r with cache := (r.cache.complete d result).1 } := by
  refine ⟨?_, h.positive, ?_, h.accepted, h.begun, h.scope, ?_, h.nodup⟩
  · rw [Cache.complete_fst]
    exact h.attempts
  · intro e
    dsimp only
    rw [Cache.slot_complete]
    split
    · rename_i hde
      obtain rfl := hde
      exact (h.slots d).complete_kept (fun hlost => hlost.2 rfl) hunfilled hresult
    · rename_i hde
      exact (h.slots e).congr (and_iff_left (Ne.symm hde))
  · intro e
    dsimp only
    by_cases hde : d = e
    · subst hde
      rw [Cache.pending_complete_self, ← hpending]
      exact h.pending d
    · rw [Cache.pending_complete_of_ne _ _ hde]
      exact h.pending e

end Reconcile.Reconciler

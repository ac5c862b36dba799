import Reconcile.Proofs.Ascending
import Reconcile.Proofs.Digest.Order
import Reconcile.Proofs.Reconciler.Pacing
import Reconcile.Proofs.Traversal.Load

/-! # References come from nodes that were brought

Nothing that a reconciler does brings a node but taking in a body that was handed in, and stand-ins
refer to no other node. So references that go round in no circle never come to do so in a pass. While
that holds, every step of the traversal that goes on makes the load that is left smaller. -/

namespace Reconcile.Reconciler

open Traversal

variable {H : Hashing} {agent : Agent} {P : Digest → Prop} {r r' : Reconciler} {d e : Digest}
  {outcome : Option Outcome}

/-- The node of one digest, at hand or brought by a body that is waiting, lists the other. -/
def Links (H : Hashing) (r : Reconciler) (d e : Digest) : Prop :=
  r.cache.Links H d e ∨ ∃ body ∈ r.queue.bodies, ∃ n, Node.decodeAs H d body = .ok n ∧ e ∈ n.refs

/-- The references of the nodes go round in no circle. -/
def Acyclic (H : Hashing) (r : Reconciler) : Prop := ∀ d, ¬ Relation.TransGen (r.Links H) d d

theorem Acyclic.mono (h : r.Acyclic H) (hsub : ∀ d e, r'.Links H d e → r.Links H d e) :
    r'.Acyclic H :=
  fun d hd => h d (Relation.TransGen.mono hsub _ _ hd)

theorem Acyclic.cache (h : r.Acyclic H) : ∀ d, ¬ Relation.TransGen (r.cache.Links H) d d :=
  fun d hd => h d (Relation.TransGen.mono (fun _ _ => Or.inl) _ _ hd)

/-- References along which a rank falls go round in no circle. -/
theorem acyclic_of_rank (rank : Digest → Nat)
    (hcache : ∀ d ∈ r.cache.mentioned, ∀ n ∈ r.cache.shown H d, ∀ e ∈ n.refs, rank e < rank d)
    (hbodies : ∀ body ∈ r.queue.bodies, ∀ d n, Node.decodeAs H d body = .ok n →
      ∀ e ∈ n.refs, rank e < rank d) : r.Acyclic H := by
  have hlink : ∀ d e, r.Links H d e → rank e < rank d := by
    rintro d e (⟨n, hn, he⟩ | ⟨body, hbody, n, hn, he⟩)
    · exact hcache d (Cache.mem_mentioned_of_shown hn) n hn e he
    · exact hbodies body hbody d n hn e he
  have hpath : ∀ d e, Relation.TransGen (r.Links H) d e → rank e < rank d := by
    intro d e h
    induction h with
    | single h => exact hlink _ _ h
    | tail _ h ih => exact (hlink _ _ h).trans ih
  exact fun d h => lt_irrefl _ (hpath d d h)

/-- The same nodes are shown, and the same bodies are waiting. -/
structure SameNodes (H : Hashing) (r r' : Reconciler) : Prop where
  shown : r'.cache.shown H = r.cache.shown H
  bodies : r'.queue.bodies = r.queue.bodies

theorem SameNodes.acyclic (hs : SameNodes H r r') (h : r.Acyclic H) : r'.Acyclic H := by
  refine h.mono ?_
  intro d e hlink
  rwa [Links, Cache.Links, hs.shown, hs.bodies] at hlink

/-! ## A step of the traversal -/

theorem shown_await (agent : Agent) (r : Reconciler) (d : Digest) :
    (r.await agent d).cache.shown H = r.cache.shown H := by
  have hrequest := r.cache.shown_request (H := H) d (agent r.journal.asked d)
  unfold await request
  split <;> rename_i heq <;> rw [heq] at hrequest <;> exact hrequest

theorem Consults.sameNodes (h : Consults H agent P r r') : SameNodes H r r' := by
  refine ⟨?_, by rw [h.fetches.queue]⟩
  induction h with
  | refl => rfl
  | look _ d ih => exact (Cache.shown_look _ d).trans ih
  | ask _ _ ih => exact (shown_await _ _ _).trans ih

theorem shown_plan (c : Cache) (w : Traversal) : (plan H c w).1.shown H = c.shown H := by
  rcases plan_fst H c w with hplan | ⟨d, hplan⟩
  · rw [hplan]
  · rw [hplan, Cache.shown_look]

theorem shown_effect (r : Reconciler) (w : Traversal) (m : Move) :
    (effect r w m).cache.shown H = r.cache.shown H := by
  have h := affects_effect r w m
  generalize effect r w m = r' at h ⊢
  cases h with
  | nothing => rfl
  | marks => exact Cache.shown_markKnown _ _
  | records name handsOut => rfl

theorem Onward.sameNodes (goes : Onward H agent r r') : SameNodes H r r' := by
  refine ⟨?_, by rw [goes.continues.queue]⟩
  cases goes with
  | resumed next mem consults found => exact (consults.look _).sameNodes.shown
  | passedKnown next unresolved known => rfl
  | openedNext next unresolved found => exact Cache.shown_look _ _
  | putAside next above unresolved found consults =>
      exact consults.sameNodes.shown.trans (Cache.shown_look _ _)
  | @leftNext f fs n next resolved isThrough =>
      unfold leaveNext
      cases f.incomplete with
      | true => rfl
      | false => exact Cache.shown_markKnown _ _
  | openedCurrent current unresolved found => exact Cache.shown_look _ _
  | leftCurrent current resolved isThrough => rfl
  | acted plan planned =>
      have hplan := shown_plan (H := H) r.cache r.traversal
      rw [plan] at hplan
      exact (shown_effect _ _ _).trans hplan

/-- A step that goes on leaves less to do. -/
theorem Onward.load_lt {s : Scale} (hs : s.Fits (r.cache.shown H) r.baseline)
    (goes : Onward H agent r r') : r'.traversal.load s < r.traversal.load s := by
  cases goes with
  | resumed next mem consults found => exact load_restart_lt hs.again next mem
  | @passedKnown f fs next unresolved known =>
      refine load_lt_of_next rfl rfl ?_
      rw [next]
      exact Stack.load_leave_lt (hs.next.positive _)
  | @openedNext f fs n next unresolved found =>
      refine load_lt_of_next rfl rfl ?_
      rw [next]
      exact Stack.load_resolve_lt unresolved (hs.next.node _ n (Cache.shown_of_look found))
  | putAside next above unresolved found consults => exact load_putAside_lt s next above unresolved
  | leftNext next resolved isThrough =>
      refine load_lt_of_next rfl rfl ?_
      rw [next]
      exact Stack.load_leave_lt (hs.next.positive _)
  | @openedCurrent g gs n current unresolved found =>
      refine load_lt_of_current rfl rfl ?_
      rw [current]
      exact Stack.load_resolve_lt unresolved (hs.current.node _ n (Cache.shown_of_look found))
  | leftCurrent current resolved isThrough =>
      refine load_lt_of_current rfl rfl ?_
      rw [current]
      exact Stack.load_leave_lt (hs.current.positive _)
  | acted plan planned =>
      rw [traversal_effect]
      exact load_perform_lt (fun g _ => hs.current.positive g.digest) planned

/-! ## Between two rounds -/

theorem links_takeBodies {bodies : List Bytes} {ds : List Digest}
    (h : (takeBodies H bodies ds r).1.cache.Links H d e) :
    r.cache.Links H d e ∨ ∃ body ∈ bodies, ∃ n, Node.decodeAs H d body = .ok n ∧ e ∈ n.refs := by
  induction bodies generalizing ds r with
  | nil => exact .inl h
  | cons body rest ih =>
      have htaken : ∀ {r' : Reconciler}, r'.cache = (r.cache.putBytes H body).1 →
          (r'.cache.Links H d e ∨
            ∃ b ∈ rest, ∃ n, Node.decodeAs H d b = .ok n ∧ e ∈ n.refs) →
          r.cache.Links H d e ∨
            ∃ b ∈ body :: rest, ∃ n, Node.decodeAs H d b = .ok n ∧ e ∈ n.refs := by
        rintro r' hr' (⟨n, hn, he⟩ | ⟨b, hb, hdecode⟩)
        · rw [hr'] at hn
          rcases Cache.shown_putBytes hn with hn | hn
          · exact .inl ⟨n, hn, he⟩
          · exact .inr ⟨body, List.mem_cons_self, n, hn, he⟩
        · exact .inr ⟨b, List.mem_cons_of_mem _ hb, hdecode⟩
      simp only [takeBodies] at h
      split at h
      · rename_i hput
        exact htaken (by rw [hput]) (ih h)
      · rename_i hput
        split at h
        · exact htaken (by rw [hput]) (ih h)
        · exact htaken (by rw [hput]) (ih h)

theorem length_takeBodies (bodies : List Bytes) (ds : List Digest) (r : Reconciler) :
    (takeBodies H bodies ds r).2.length ≤ ds.length + bodies.length := by
  induction bodies generalizing ds r with
  | nil => exact Nat.le_refl _
  | cons body rest ih =>
      rw [List.length_cons]
      simp only [takeBodies]
      split
      · exact (ih _ _).trans (by omega)
      · split
        · exact (ih _ _).trans (by omega)
        · refine (ih _ _).trans ?_
          rw [List.length_append, List.length_singleton]
          omega

theorem length_addMissing_le (roots ds : List Digest) :
    (addMissing roots ds).length ≤ roots.length + ds.length := by
  induction ds generalizing roots with
  | nil => exact Nat.le_refl _
  | cons d ds ih =>
      rw [addMissing, List.length_cons]
      split
      · exact (ih _).trans (by omega)
      · refine (ih _).trans ?_
        rw [List.length_append, List.length_singleton]
        omega

/-- How many roots and bodies are waiting. -/
def backlog (r : Reconciler) : Nat := r.queue.bodies.length + r.queue.roots.length

theorem length_left_lt (roots : List Digest) {ds : List Digest} {p : Digest → Bool} {best : Digest}
    (hbest : (ascending (ds.filter p)).getLast? = some best) :
    (addMissing roots (ascending (ds.filter p)).dropLast).length < roots.length + ds.length := by
  have hmissing := length_addMissing_le roots (ascending (ds.filter p)).dropLast
  have hpos := List.length_pos_of_mem (List.mem_of_getLast? hbest)
  have hascending := length_ascending_le (ds.filter p)
  have hfilter := List.length_filter_le p ds
  rw [List.length_dropLast] at hmissing
  omega

/-- Choosing a root leaves nothing to do, or takes a root off what is waiting. -/
theorem choose_rests_or_opens (r : Reconciler) :
    (r.choose H).phase = .done ∧ (r.choose H).hasWork = false ∨
      (r.choose H).phase = .loading ∧ (r.choose H).backlog < r.backlog := by
  obtain ⟨cache, awaits, baseline, htaken⟩ :=
    takeBodies_eq (H := H) r.queue.bodies [] { r with queue.bodies := [] }
  have hlength := length_takeBodies (H := H) r.queue.bodies [] { r with queue.bodies := [] }
  unfold choose
  generalize takeBodies H r.queue.bodies [] { r with queue.bodies := [] } = taken at htaken hlength
  obtain ⟨mid, ds⟩ := taken
  obtain rfl := htaken
  have hlength : ds.length ≤ r.queue.bodies.length := by simpa using hlength
  cases awaits with
  | true =>
      simp only [if_true]
      split
      · exact .inl ⟨rfl, by simp [hasWork]⟩
      · rename_i best hbest
        have hless := length_left_lt r.queue.roots hbest
        refine .inr ⟨rfl, ?_⟩
        simp only [openRound, backlog, List.length_nil]
        omega
  | false =>
      simp only [Bool.false_eq_true, if_false]
      split
      · exact .inl ⟨rfl, by simp [hasWork]⟩
      · rename_i best hbest
        have hless := length_left_lt [] hbest
        rw [List.length_append, List.length_nil] at hless
        refine .inr ⟨rfl, ?_⟩
        simp only [openRound, backlog, List.length_nil]
        omega

theorem links_choose (h : (r.choose H).Links H d e) : r.Links H d e := by
  have hcache : (r.choose H).cache =
      (takeBodies H r.queue.bodies [] { r with queue.bodies := [] }).1.cache ∧
        (r.choose H).queue.bodies = [] := by
    obtain ⟨cache, awaits, baseline, queue, htaken, hbodies, hchoose | ⟨best, hchoose⟩⟩ :=
      choose_eq (H := H) r
    · rw [hchoose, htaken]
      exact ⟨rfl, hbodies⟩
    · rw [hchoose, htaken]
      exact ⟨rfl, hbodies⟩
  rw [Links, hcache.1, hcache.2] at h
  rcases h with h | ⟨body, hbody, -⟩
  · exact links_takeBodies (r := { r with queue.bodies := [] }) h
  · cases hbody

theorem links_sift {baseline : Option Digest} {names : List Name}
    (h : (r.cache.sift H baseline names).1.Links H d e) : r.cache.Links H d e := by
  obtain ⟨n, hn, he⟩ := h
  rcases Cache.shown_sift hn with hn | hrefs
  · exact ⟨n, hn, he⟩
  · rw [hrefs] at he
    cases he

theorem links_closeRound (h : (r.closeRound H).Links H d e) : r.Links H d e := by
  unfold closeRound at h
  split at h
  · exact h
  · refine h.imp_left ?_
    rintro ⟨n, hn, he⟩
    rw [Cache.shown_markKnown] at hn
    exact links_sift ⟨n, hn, he⟩

theorem links_abandonRound (h : (r.abandonRound H).Links H d e) : r.Links H d e :=
  h.imp_left links_sift

end Reconcile.Reconciler

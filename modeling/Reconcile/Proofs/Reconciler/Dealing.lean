import Reconcile.Proofs.Cache.Course
import Reconcile.Proofs.History
import Reconcile.Proofs.Reconciler.Pacing

/-! # What a reconciler does with its nodes

Whatever befalls a reconciler, it changes its nodes by deeds alone, and its journal tells which nodes it
had fetched by them. So a fetch that is under way was asked for, and has not ended since. -/

namespace Reconcile

variable {H : Hashing} {d : Digest}

/-! ## Deeds that fetch nothing -/

namespace Cache

variable {c c' c'' : Cache}

/-- One cache becomes another by deeds that have nothing fetched, and by which no fetch ends. -/
def Handles (H : Hashing) (c c' : Cache) : Prop :=
  ∃ deeds, c' = c.after H deeds ∧ c.sent H deeds = [] ∧ ∀ d result, .complete d result ∉ deeds

theorem Handles.refl (c : Cache) : Handles H c c := ⟨[], rfl, rfl, by simp⟩

theorem Handles.trans (h : Handles H c c') (h' : Handles H c' c'') : Handles H c c'' := by
  obtain ⟨deeds, rfl, hsent, hends⟩ := h
  obtain ⟨deeds', rfl, hsent', hends'⟩ := h'
  refine ⟨deeds ++ deeds', (c.after_append deeds deeds').symm, ?_, ?_⟩
  · rw [sent_append, hsent, hsent', List.append_nil]
  · intro d result hmem
    exact (List.mem_append.mp hmem).elim (hends d result) (hends' d result)

theorem handles_look (c : Cache) (d : Digest) : Handles H c (c.look H d).1 :=
  ⟨[.look d], rfl, rfl, by simp⟩

theorem handles_putBytes (c : Cache) (bytes : Bytes) : Handles H c (c.putBytes H bytes).1 :=
  ⟨[.putBytes bytes], rfl, rfl, by simp⟩

theorem handles_putNode (c : Cache) (n : Node) : Handles H c (c.putNode H n).1 :=
  ⟨[.putNode n], rfl, rfl, by simp⟩

theorem handles_markKnown (c : Cache) (d : Digest) : Handles H c (c.markKnown d) :=
  ⟨[.markKnown d], rfl, rfl, by simp⟩

theorem Looks.handles (h : Looks H c c') : Handles H c c' := by
  induction h with
  | refl => exact .refl c
  | look _ d ih => exact ih.trans (handles_look _ d)

theorem handles_sift (c : Cache) (baseline : Option Digest) (names : List Name) :
    Handles H c (c.sift H baseline names).1 := by
  obtain ⟨hlooks, -⟩ := leftOver_sub (H := H) c baseline (ascending names)
  obtain ⟨hsift | ⟨kept, hsift⟩, -⟩ := sift_cases (H := H) c baseline names
  · rw [hsift]
    exact hlooks.handles
  · rw [hsift]
    exact hlooks.handles.trans (handles_putNode _ _)

end Cache

/-! ## The steps of a reconciler -/

namespace Reconciler

open Traversal

variable {agent : Agent} {P : Digest → Prop} {r r' r'' : Reconciler} {outcome : Option Outcome}

/-- A reconciler becomes another by deeds by which no fetch ends, and the journal tells what was
fetched by them. -/
def Deals (H : Hashing) (r r' : Reconciler) : Prop :=
  ∃ deeds, r'.cache = r.cache.after H deeds ∧
    r'.journal.accepted = r.journal.accepted ++ r.cache.sent H deeds ∧
    ∀ d result, .complete d result ∉ deeds

theorem Deals.trans (h : Deals H r r') (h' : Deals H r' r'') : Deals H r r'' := by
  obtain ⟨deeds, hcache, haccepted, hends⟩ := h
  obtain ⟨deeds', hcache', haccepted', hends'⟩ := h'
  refine ⟨deeds ++ deeds', ?_, ?_, ?_⟩
  · rw [hcache', hcache, Cache.after_append]
  · rw [haccepted', haccepted, hcache, Cache.sent_append, List.append_assoc]
  · intro d result hmem
    exact (List.mem_append.mp hmem).elim (hends d result) (hends' d result)

theorem deals_of_handles (hcache : Cache.Handles H r.cache r'.cache)
    (haccepted : r'.journal.accepted = r.journal.accepted) : Deals H r r' := by
  obtain ⟨deeds, hdeeds, hsent, hends⟩ := hcache
  refine ⟨deeds, hdeeds, ?_, hends⟩
  rw [haccepted, hsent, List.append_nil]

theorem deals_same (hcache : r'.cache = r.cache)
    (haccepted : r'.journal.accepted = r.journal.accepted) : Deals H r r' :=
  deals_of_handles (hcache ▸ .refl _) haccepted

theorem deals_look (r : Reconciler) (d : Digest) : Deals H r (r.look H d).1 :=
  deals_of_handles (Cache.handles_look r.cache d) rfl

/-- Asking for a node and waiting is one request. -/
theorem request_await (agent : Agent) (r : Reconciler) (d : Digest) :
    (r.await agent d).cache = (r.cache.request d (agent r.journal.asked d)).1 ∧
      (r.await agent d).journal.accepted =
        r.journal.accepted ++ r.cache.sends (.request d (agent r.journal.asked d)) := by
  unfold await request
  simp only [Cache.sends]
  split
  · rename_i h
    simp only [h, and_self]
  · rename_i answer hsent h
    cases answer with
    | sent => exact absurd rfl hsent
    | underWay | present | givenUp => simp only [h, List.append_nil, and_self]
  · rename_i h
    simp only [h, List.append_nil, and_self]

theorem deals_await (agent : Agent) (r : Reconciler) (d : Digest) : Deals H r (r.await agent d) := by
  obtain ⟨hcache, haccepted⟩ := request_await agent r d
  refine ⟨[.request d (agent r.journal.asked d)], hcache, ?_, by simp⟩
  rw [haccepted, Cache.sent, Cache.sent, List.append_nil]

theorem Consults.deals (h : Consults H agent P r r') : Deals H r r' := by
  induction h with
  | refl => exact deals_same rfl rfl
  | look _ d ih => exact ih.trans (deals_look _ d)
  | ask _ _ ih => exact ih.trans (deals_await agent _ _)

theorem deals_takeBodies (bodies : List Bytes) (candidates : List Digest) (r : Reconciler) :
    Deals H r (takeBodies H bodies candidates r).1 := by
  induction bodies generalizing candidates r with
  | nil => exact deals_same rfl rfl
  | cons body rest ih =>
      have hput := Cache.handles_putBytes (H := H) r.cache body
      simp only [takeBodies]
      split
      · rename_i cache e h
        rw [h] at hput
        have hmid : Deals H r { r with cache } := deals_of_handles hput rfl
        exact hmid.trans (ih _ _)
      · rename_i cache d h
        rw [h] at hput
        split
        · have hmid : Deals H r { r with cache, awaitsBaseline := false, baseline := some d } :=
            deals_of_handles hput rfl
          exact hmid.trans (ih _ _)
        · have hmid : Deals H r { r with cache } := deals_of_handles hput rfl
          exact hmid.trans (ih _ _)

theorem deals_choose (r : Reconciler) : Deals H r (r.choose H) := by
  have htake := deals_takeBodies (H := H) r.queue.bodies [] { r with queue.bodies := [] }
  obtain ⟨cache, awaits, baseline, queue, htaken, -, hchoose⟩ := choose_eq (H := H) r
  rw [htaken] at htake
  refine Deals.trans (r := r) htake ?_
  rcases hchoose with hchoose | ⟨best, hchoose⟩
  · rw [hchoose]
    exact deals_same rfl rfl
  · rw [hchoose]
    exact deals_same rfl rfl

theorem deals_closeRound (r : Reconciler) : Deals H r (r.closeRound H) := by
  unfold closeRound
  split
  · exact deals_same rfl rfl
  · rename_i root hround
    exact deals_of_handles
      ((Cache.handles_sift r.cache (some root) r.remembered).trans (Cache.handles_markKnown _ root))
      rfl

theorem deals_abandonRound (r : Reconciler) : Deals H r (r.abandonRound H) :=
  deals_of_handles (Cache.handles_sift r.cache r.baseline r.remembered) rfl

theorem handles_of_plan {c c' : Cache} {w : Traversal} {result : Except Fault Move}
    (plan : Traversal.plan H c w = (c', result)) : Cache.Handles H c c' := by
  rcases plan_fst H c w with hplan | ⟨d, hplan⟩
  · obtain rfl : c' = c := by rw [← hplan, plan]
    exact .refl _
  · obtain rfl : c' = (c.look H d).1 := by rw [← hplan, plan]
    exact Cache.handles_look c d

theorem deals_effect (r : Reconciler) (w : Traversal) (m : Move) : Deals H r (effect r w m) := by
  have h := affects_effect r w m
  generalize effect r w m = r' at h ⊢
  cases h with
  | nothing => exact deals_same rfl rfl
  | marks => exact deals_of_handles (Cache.handles_markKnown _ _) rfl
  | records name handsOut => exact deals_same rfl rfl

theorem Onward.deals (h : Onward H agent r r') : Deals H r r' := by
  have hlook : ∀ d w, Deals H r { (r.look H d).1 with traversal := w } :=
    fun d w => (deals_look r d).trans (deals_same rfl rfl)
  cases h with
  | resumed next mem consults found =>
      exact (consults.look _).deals.trans (deals_same rfl rfl)
  | passedKnown next unresolved known => exact deals_same rfl rfl
  | openedNext next unresolved found => exact hlook _ _
  | putAside next above unresolved found consults =>
      exact ((Consults.look .refl _).trans consults).deals.trans (deals_same rfl rfl)
  | @leftNext f fs n next resolved isThrough =>
      unfold leaveNext
      split
      · exact deals_same rfl rfl
      · exact deals_of_handles (Cache.handles_markKnown _ f.digest) rfl
  | openedCurrent current unresolved found => exact hlook _ _
  | leftCurrent current resolved isThrough => exact deals_same rfl rfl
  | @acted c m f fs n j plan planned meets =>
      have hmid : Deals H r { r with cache := c, traversal := r.traversal.perform m } :=
        deals_of_handles (handles_of_plan plan) rfl
      exact hmid.trans (deals_effect _ _ _)

theorem Paced.deals (h : Paced H agent r r' outcome) : Deals H r r' := by
  cases h with
  | chose phase => exact deals_choose r
  | loaded phase loaded =>
      obtain ⟨P, hconsults⟩ := loaded.consults
      exact hconsults.deals.trans (deals_same rfl rfl)
  | waits phase consults => exact consults.deals
  | went phase goes => exact goes.deals
  | closed phase next aside => exact deals_closeRound r
  | halted halts idle =>
      obtain ⟨P, hconsults⟩ := halts.consults
      exact hconsults.deals
  | gaveUp halts work =>
      obtain ⟨P, hconsults⟩ := halts.consults
      exact hconsults.deals.trans (deals_abandonRound _)
  | @faulted c e phase plan meets =>
      have hmid : Deals H r { r with cache := c, tally.faults := r.tally.faults + 1 } :=
        deals_of_handles (handles_of_plan plan) rfl
      exact hmid.trans (deals_abandonRound _)
  | woke phase work => exact deals_same rfl rfl
  | rested phase idle => exact deals_same rfl rfl

/-- Whatever befalls a reconciler changes its nodes by deeds. -/
theorem deals_on (r : Reconciler) {e : Event} (he : ∀ d result, e ≠ .complete d result) :
    Deals H r (r.on H e) := by
  cases e with
  | announce d =>
      simp only [on, announce]
      split <;> exact deals_same rfl rfl
  | handIn bytes => exact deals_same rfl rfl
  | complete d result => exact absurd rfl (he d result)
  | call => exact deals_same rfl rfl
  | step agent => exact (paced_step agent r).deals

/-- An event is the end of a fetch, or the reconciler deals with its nodes by itself. -/
theorem ends_or_deals (r : Reconciler) (e : Event) :
    (∃ d result, e = .complete d result) ∨
      (∀ d result, e ≠ .complete d result) ∧ Deals H r (r.on H e) := by
  by_cases hends : ∃ d result, e = .complete d result
  · exact .inl hends
  · push Not at hends
    exact .inr ⟨hends, deals_on r hends⟩

theorem deals_after (r : Reconciler) {es : List Event}
    (hes : ∀ e ∈ es, ∀ d result, e ≠ .complete d result) : Deals H r (after H r es) := by
  refine after_induction (deals_same rfl rfl) ?_
  exact fun r' e he h => h.trans (deals_on r' (hes e he))

end Reconciler

end Reconcile

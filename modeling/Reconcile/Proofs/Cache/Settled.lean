import Reconcile.Proofs.Cache.Budget
import Reconcile.Proofs.Cache.Supply

/-! # Looks and requests that change nothing

A second look at a node changes nothing and finds the same, and a request that has an obstacle changes
nothing either. Both stay so whatever else is looked at and asked for. A node that was asked for has an
obstacle from then on: that it is under way, if nothing else. -/

namespace Reconcile

variable {H : Hashing} {c c' : Cache} {d e : Digest} {f : Cache.Finding} {a : Cache.Request}

theorem Slot.look_of_body {s : Slot} (h : ∀ bytes, s.body ≠ .bytes bytes) : s.look H d = s := by
  cases hbody : s.body with
  | bytes bytes => exact absurd hbody (h bytes)
  | empty | node n | spoilt => simp [look, hbody]

namespace Cache

/-! ## Looks -/

/-- A look at a node changes nothing. -/
def Seen (H : Hashing) (c : Cache) (d : Digest) (f : Finding) : Prop := c.look H d = (c, f)

theorem Seen.fst (h : c.Seen H d f) : (c.look H d).1 = c := congrArg Prod.fst h

theorem Seen.snd (h : c.Seen H d f) : (c.look H d).2 = f := congrArg Prod.snd h

theorem look_fst_of_body (h : ∀ bytes, (c.slot d).body ≠ .bytes bytes) : (c.look H d).1 = c := by
  have hslot : (c.slot d).look H d = c.slot d := Slot.look_of_body h
  unfold look
  unfold slot at hslot
  split
  · rfl
  · rename_i s hs
    rw [hs, Option.getD_some] at hslot
    simp only [hslot, Catalog.insert_get? _ _ _ hs]

/-- A look changes nothing just when there are no bytes that nobody has looked at. -/
theorem seen_iff : c.Seen H d f ↔
    (∀ bytes, (c.slot d).body ≠ .bytes bytes) ∧ view c.limit (c.slot d) = f := by
  constructor
  · intro h
    have hslot := c.slot_look (H := H) d d
    rw [h.fst, if_pos rfl] at hslot
    refine ⟨?_, ?_⟩
    · rw [hslot]
      exact Slot.body_look_ne_bytes _
    · rw [hslot, ← look_snd, h.snd]
  · rintro ⟨hbody, hview⟩
    refine Prod.ext (look_fst_of_body hbody) ?_
    rw [look_snd, Slot.look_of_body hbody, hview]

theorem seen_look (c : Cache) (d : Digest) : (c.look H d).1.Seen H d (c.look H d).2 := by
  rw [seen_iff, slot_look, if_pos rfl, limit_look, look_snd]
  exact ⟨Slot.body_look_ne_bytes _, rfl⟩

theorem Seen.congr (h : c.Seen H d f) (limit : c'.limit = c.limit)
    (body : (c'.slot d).body = (c.slot d).body)
    (failures : (c'.slot d).failures = (c.slot d).failures) : c'.Seen H d f := by
  obtain ⟨hbody, hview⟩ := seen_iff.mp h
  refine seen_iff.mpr ⟨body ▸ hbody, ?_⟩
  rw [← hview, view, view, limit, body, failures]

theorem Seen.slot_look (h : c.Seen H d f) (e : Digest) : (c.look H e).1.slot d = c.slot d := by
  by_cases hed : e = d
  · rw [hed, h.fst]
  · rw [Cache.slot_look, if_neg hed]

theorem Seen.look (h : c.Seen H d f) (e : Digest) : (c.look H e).1.Seen H d f :=
  h.congr (c.limit_look e) (by rw [h.slot_look]) (by rw [h.slot_look])

theorem Seen.request (h : c.Seen H d f) (e : Digest) (refusal : Option FetchFailure) :
    (c.request e refusal).1.Seen H d f := by
  refine h.congr (c.limit_on (H := H) (.request e refusal)) ?_ ?_ <;>
    · rw [slot_request]
      split <;> rfl

/-! ## Requests -/

theorem obstacle?_congr (limit : c'.limit = c.limit) (slot : c'.slot d = c.slot d) :
    c'.obstacle? d = c.obstacle? d := by
  rw [obstacle?, obstacle?, limit, slot]

/-- A request that has an obstacle is answered with it and changes nothing. -/
theorem request_of_obstacle? (h : c.obstacle? d = some a) (refusal : Option FetchFailure) :
    c.request d refusal = (c, .ok a) := by
  have hmentioned : ∃ s, c.slots.get? d = some s := by
    refine Option.ne_none_iff_exists'.mp ?_
    intro hnone
    have hempty : c.slot d = {} := by rw [slot, hnone, Option.getD_none]
    simp [obstacle?, hempty, Slot.isFilled, Slot.isSpoilt] at h
  obtain ⟨s, hs⟩ := hmentioned
  simp only [request, h, modify, slot, hs, Option.getD_some, id_eq, Catalog.insert_get? _ _ _ hs]

/-- An obstacle does not go away by asking. -/
theorem obstacle?_request (h : c.obstacle? d = some a) (e : Digest)
    (refusal : Option FetchFailure) : (c.request e refusal).1.obstacle? d = some a := by
  rw [← h]
  refine obstacle?_congr (c.limit_on (H := fun _ => e) (.request e refusal)) ?_
  rw [slot_request, if_neg]
  intro hsends
  cases h.symm.trans (mem_sends_iff.mp hsends).2

theorem Seen.obstacle?_look (h : c.Seen H d f) (e : Digest) :
    (c.look H e).1.obstacle? d = c.obstacle? d :=
  obstacle?_congr (c.limit_look e) (h.slot_look e)

/-- A request that is not refused leaves an obstacle. -/
theorem obstacle?_request_self (c : Cache) (d : Digest) :
    (c.request d none).1.obstacle? d = some ((c.obstacle? d).getD .underWay) := by
  cases hobstacle : c.obstacle? d with
  | some a => exact obstacle?_request hobstacle d none
  | none =>
      obtain ⟨hfilled, -, -⟩ := obstacle?_eq_none hobstacle
      have hfilled' : ((c.slot d).setPending true).isFilled = false := hfilled
      have hpending : ((c.slot d).setPending true).pending = true := rfl
      have hmem : d ∈ c.sends (.request d none) := mem_sends_iff.mpr ⟨rfl, hobstacle⟩
      rw [obstacle?, slot_request, if_pos hmem]
      simp [hfilled', hpending]

/-! ## Nodes that are waited for -/

/-- A node is not there but on its way, and neither looking nor asking changes anything. -/
def Awaited (H : Hashing) (c : Cache) (d : Digest) : Prop :=
  (c.Seen H d .missing ∨ c.Seen H d (.spoilt false)) ∧ c.obstacle? d = some .underWay

theorem Awaited.look (h : c.Awaited H d) (e : Digest) : (c.look H e).1.Awaited H d := by
  obtain ⟨hmissing | hspoilt, hobstacle⟩ := h
  · exact ⟨.inl (hmissing.look e), (hmissing.obstacle?_look e).trans hobstacle⟩
  · exact ⟨.inr (hspoilt.look e), (hspoilt.obstacle?_look e).trans hobstacle⟩

theorem Awaited.request (h : c.Awaited H d) (e : Digest) (refusal : Option FetchFailure) :
    (c.request e refusal).1.Awaited H d :=
  ⟨h.1.imp (·.request e refusal) (·.request e refusal), obstacle?_request h.2 e refusal⟩

/-- Whoever misses a node and asks for it waits for it, if there is no refusal. -/
theorem Wants.awaited (h : c.Wants H d) : ((c.look H d).1.request d none).1.Awaited H d := by
  have hseen := c.seen_look (H := H) d
  refine ⟨h.imp (fun h => ?_) (fun h => ?_), ?_⟩
  · exact (h ▸ hseen).request d none
  · exact (h ▸ hseen).request d none
  · rw [obstacle?_request_self]
    rcases h.obstacle? with hnone | hunderWay
    · rw [hnone]
      rfl
    · rw [hunderWay]
      rfl

end Cache

end Reconcile

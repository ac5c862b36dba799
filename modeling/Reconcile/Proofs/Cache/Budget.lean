import Mathlib.Data.List.Induction
import Reconcile.Proofs.Cache.Course

/-! # How often a node is asked for

A slot accounts for every fetch of its node: each failure stands for one, and one more may be under
way or may have filled the slot. No deed lowers this account and every request raises it, so between
two requests a failure is counted. Nothing is said here about fetches that overlap. -/

namespace Reconcile

variable {H : Hashing} {c : Cache} {d e : Digest} {s s' : Slot} {deed : Deed}

/-! ## Slots -/

namespace Slot

/-- How many fetches of its node a slot accounts for. -/
def spent (s : Slot) : Nat := s.failures + if s.pending || s.isFilled then 1 else 0

theorem spent_idle (hfilled : s.isFilled = false) (hpending : s.pending = false) :
    s.spent = s.failures := by
  simp [spent, hfilled, hpending]

theorem spent_le (s : Slot) : s.spent ≤ s.failures + 1 := by
  unfold spent
  split <;> omega

theorem spent_of_isFilled (h : s.isFilled = true) : s.spent = s.failures + 1 := by
  simp [spent, h]

theorem setPending_self (s : Slot) : s.setPending s.pending = s := rfl

theorem spent_setPending (h : s.isFilled = true) (pending : Bool) :
    (s.setPending pending).spent = s.spent := by
  have hfilled : (s.setPending pending).isFilled = true := h
  rw [spent_of_isFilled h, spent_of_isFilled hfilled]
  rfl

/-- Bytes that turn out wrong are a failure, and all else stays as it was. -/
theorem spent_le_look (s : Slot) : s.spent ≤ (s.look H d).spent := by
  cases hbody : s.body with
  | bytes bytes =>
      cases hdecode : Node.decodeAs H d bytes with
      | ok n => simp [look, hbody, hdecode, spent, isFilled]
      | error e => simp [look, hbody, hdecode, spent, isFilled, fail]
  | empty => simp [look, hbody]
  | node n => simp [look, hbody]
  | spoilt => simp [look, hbody]

theorem spent_le_holdBytes (h : s.isFilled = false) (bytes : Bytes) :
    s.spent ≤ (s.holdBytes bytes).spent := by
  have hfilled : (s.holdBytes bytes).isFilled = true := by
    simp [holdBytes_of_unfilled h, isFilled]
  rw [spent_of_isFilled hfilled, holdBytes_of_unfilled h]
  exact s.spent_le

theorem spent_le_holdNode (s : Slot) (n : Node) : s.spent ≤ (s.holdNode n).spent := by
  have hfilled : (s.holdNode n).isFilled = true := rfl
  rw [spent_of_isFilled hfilled]
  exact s.spent_le

theorem spent_le_complete (s : Slot) (result : Except FetchFailure Bytes) :
    s.spent ≤ (s.complete result).spent := by
  cases hfilled : s.isFilled with
  | true => simp [complete_of_filled hfilled, spent_setPending hfilled]
  | false =>
      have hle := s.spent_le
      cases result with
      | ok bytes => simpa [complete_ok hfilled, spent, isFilled] using hle
      | error e => simpa [complete_error hfilled, spent, isFilled] using hle

/-- An empty slot has never failed. -/
def Unspoilt (s : Slot) : Prop := s.body = .empty → s.failures = 0

theorem Unspoilt.of_body (h : s.Unspoilt) (hbody : s'.body = s.body)
    (hfailures : s'.failures = s.failures) : s'.Unspoilt := by
  intro hempty
  rw [hfailures]
  exact h (hbody ▸ hempty)

theorem unspoilt_of_body_ne (h : s.body ≠ .empty) : s.Unspoilt := fun hempty => absurd hempty h

theorem Unspoilt.look (h : s.Unspoilt) : (s.look H d).Unspoilt := by
  cases hbody : s.body with
  | bytes bytes =>
      apply unspoilt_of_body_ne
      cases hdecode : Node.decodeAs H d bytes <;> simp [Slot.look, hbody, hdecode, fail]
  | empty => simpa [Slot.look, hbody] using h
  | node n => simpa [Slot.look, hbody] using h
  | spoilt => simpa [Slot.look, hbody] using h

theorem Turns.unspoilt (h : s.Turns H d s') (hs : s.Unspoilt) : s'.Unspoilt := by
  cases h with
  | same => exact hs
  | looked => exact hs.look
  | asked unfilled pending => exact hs.of_body rfl rfl
  | completed result =>
      cases hfilled : s.isFilled with
      | true => rw [complete_of_filled hfilled]; exact hs.of_body rfl rfl
      | false =>
          apply unspoilt_of_body_ne
          cases result <;> simp [complete_ok hfilled, complete_error hfilled]
  | took unfilled digest =>
      apply Unspoilt.look
      apply unspoilt_of_body_ne
      simp [holdBytes_of_unfilled unfilled]
  | held absent digest => exact unspoilt_of_body_ne (by simp [holdNode])
  | marked => exact hs.of_body rfl rfl

theorem failures_look_le (s : Slot) : (s.look H d).failures ≤ s.failures + 1 := by
  cases hbody : s.body with
  | bytes bytes =>
      cases hdecode : Node.decodeAs H d bytes <;> simp [look, hbody, hdecode, fail]
  | empty | node n | spoilt => simp [look, hbody]

/-- A slot counts one failure at a time. -/
theorem Turns.failures_le (h : s.Turns H d s') : s'.failures ≤ s.failures + 1 := by
  cases h with
  | same => exact Nat.le_succ _
  | looked => exact s.failures_look_le
  | asked unfilled pending => exact Nat.le_succ _
  | completed result =>
      cases hfilled : s.isFilled with
      | true => simp [complete_of_filled hfilled, setPending]
      | false => cases result <;> simp [complete_ok hfilled, complete_error hfilled]
  | took unfilled digest =>
      rw [holdBytes_of_unfilled unfilled]
      exact failures_look_le _
  | held absent digest => exact s.failures_look_le
  | marked => exact Nat.le_succ _

end Slot

/-! ## Requests -/

namespace Cache

/-- There are no more failures than deeds, so counts of them stay small in any life that ends. -/
theorem failures_after_le (c : Cache) (deeds : List Deed) (d : Digest) :
    ((c.after H deeds).slot d).failures ≤ (c.slot d).failures + deeds.length := by
  induction deeds generalizing c with
  | nil => exact Nat.le_refl _
  | cons deed deeds ih =>
      have hfirst := (turns_on (H := H) c deed d).failures_le
      have hrest := ih (c.on H deed)
      rw [List.length_cons]
      exact Nat.le_trans hrest (by omega)

/-- A deed has a node fetched just when it asks for it, is not refused and nothing is in the way. -/
theorem mem_sends_iff : d ∈ c.sends deed ↔ deed = .request d none ∧ c.obstacle? d = none := by
  cases deed with
  | request e refusal =>
      cases hobstacle : c.obstacle? e with
      | some r =>
          have hr : r ≠ .sent := fun h => obstacle?_ne_sent (h ▸ hobstacle)
          have hsends : c.sends (.request e refusal) = [] := by
            cases r <;> simp [sends, request, hobstacle] at hr ⊢
          rw [hsends]
          constructor
          · simp
          · rintro ⟨hdeed, hnone⟩
            cases hdeed
            cases hobstacle.symm.trans hnone
      | none =>
          cases refusal with
          | none =>
              simp only [sends, request, hobstacle, List.mem_singleton, Deed.request.injEq,
                and_true]
              constructor
              · rintro rfl
                exact ⟨rfl, hobstacle⟩
              · rintro ⟨rfl, -⟩
                rfl
          | some failure => simp [sends, request, hobstacle]
  | look e => simp [sends]
  | complete e result => simp [sends]
  | putBytes bytes => simp [sends]
  | putNode n => simp [sends]
  | markKnown e => simp [sends]

theorem count_sends (c : Cache) (deed : Deed) (d : Digest) :
    (c.sends deed).count d = if d ∈ c.sends deed then 1 else 0 := by
  have hlength : (c.sends deed).length ≤ 1 := by
    cases deed <;> simp only [sends, List.length_nil, Nat.zero_le]
    split <;> simp
  split
  · rename_i hmem
    have hpos := List.count_pos_iff.mpr hmem
    have hle := List.count_le_length (a := d) (l := c.sends deed)
    omega
  · rename_i hmem
    exact List.count_eq_zero.mpr hmem

/-- A request leaves every slot as it was, but notes the fetch that it starts. -/
theorem slot_request (c : Cache) (e : Digest) (refusal : Option FetchFailure) (d : Digest) :
    (c.request e refusal).1.slot d =
      if d ∈ c.sends (.request e refusal) then (c.slot d).setPending true else c.slot d := by
  by_cases hed : e = d
  · subst hed
    cases hobstacle : c.obstacle? e with
    | some r => simp [mem_sends_iff, request, hobstacle]
    | none =>
        obtain ⟨-, hpending, -⟩ := obstacle?_eq_none hobstacle
        cases refusal with
        | none => simp [mem_sends_iff, request, hobstacle]
        | some failure => simp [mem_sends_iff, request, hobstacle, ← hpending, Slot.setPending_self]
  · have hmem : d ∉ c.sends (.request e refusal) := by
      rw [mem_sends_iff]
      rintro ⟨hdeed, -⟩
      cases hdeed
      exact hed rfl
    rw [if_neg hmem]
    cases hobstacle : c.obstacle? e with
    | some r => simp [request, hobstacle, hed]
    | none => cases refusal <;> simp [request, hobstacle, hed]

theorem spent_le_of_modify {f : Slot → Slot} (hf : (c.slot e).spent ≤ (f (c.slot e)).spent) :
    (c.slot d).spent ≤ ((c.modify e f).slot d).spent := by
  rw [slot_modify]
  split
  · rename_i hed
    exact hed ▸ hf
  · exact Nat.le_refl _

/-- What holds of a cache whatever is done with it. -/
structure Usable (c : Cache) : Prop where
  consistent : c.Consistent
  unspoilt : ∀ d, (c.slot d).Unspoilt
  limit_pos : 0 < c.limit

/-- A node is asked for only while its slot is idle and it may fail once more. -/
theorem Usable.spent_of_mem_sends (hc : c.Usable) (h : d ∈ c.sends deed) :
    (c.slot d).spent = (c.slot d).failures ∧ (c.slot d).failures < c.limit := by
  obtain ⟨-, hobstacle⟩ := mem_sends_iff.mp h
  obtain ⟨hfilled, hpending, hhope⟩ := obstacle?_eq_none hobstacle
  refine ⟨Slot.spent_idle hfilled hpending, ?_⟩
  cases hbody : (c.slot d).body with
  | empty => simpa [hc.unspoilt d hbody] using hc.limit_pos
  | spoilt => simpa [Slot.isSpoilt, hbody] using hhope
  | bytes bytes => simp [Slot.isFilled, hbody] at hfilled
  | node n => simp [Slot.isFilled, hbody] at hfilled

/-- A deed has the fetches on the account that it starts, and takes none off. -/
theorem spent_le_on (c : Cache) (deed : Deed) (d : Digest) :
    (c.slot d).spent + (c.sends deed).count d ≤ ((c.on H deed).slot d).spent := by
  cases deed with
  | request e refusal =>
      rw [count_sends, on, slot_request]
      split
      · rename_i hmem
        obtain ⟨hfilled, hpending, -⟩ := obstacle?_eq_none (mem_sends_iff.mp hmem).2
        rw [Slot.spent_idle hfilled hpending]
        simp [Slot.spent, Slot.setPending]
      · exact Nat.le_refl _
  | look e =>
      rw [on, slot_look]
      split
      · exact Slot.spent_le_look _
      · exact Nat.le_refl _
  | complete e result =>
      rw [on, complete_fst]
      exact spent_le_of_modify (Slot.spent_le_complete _ result)
  | putBytes bytes =>
      rw [on, putBytes_fst]
      apply spent_le_of_modify
      unfold taken
      dsimp only
      split
      · exact Slot.spent_le_look _
      · rename_i hfilled
        exact Nat.le_trans (Slot.spent_le_holdBytes (by simpa using hfilled) bytes)
          (Slot.spent_le_look _)
  | putNode n =>
      unfold on putNode
      dsimp only
      apply spent_le_of_modify
      split
      · exact Slot.spent_le_look _
      · exact Nat.le_trans (Slot.spent_le_look _) (Slot.spent_le_holdNode _ n)
  | markKnown e => exact spent_le_of_modify (Nat.le_refl _)

theorem limit_on (c : Cache) (deed : Deed) : (c.on H deed).limit = c.limit := by
  cases deed with
  | look d => exact c.limit_look d
  | request d refusal =>
      cases hobstacle : c.obstacle? d with
      | some r => simp [on, request, hobstacle]
      | none => cases refusal <;> simp [on, request, hobstacle]
  | complete d result => simp [on, complete_fst]
  | putBytes bytes => simp [on, putBytes_fst]
  | putNode n => rfl
  | markKnown d => rfl

theorem limit_after (c : Cache) (deeds : List Deed) : (c.after H deeds).limit = c.limit := by
  induction deeds generalizing c with
  | nil => rfl
  | cons deed deeds ih => rw [after_cons, ih, limit_on]

theorem spent_le_after (c : Cache) (deeds : List Deed) (d : Digest) :
    (c.slot d).spent + (c.sent H deeds).count d ≤ ((c.after H deeds).slot d).spent := by
  induction deeds generalizing c with
  | nil => simp [sent]
  | cons deed deeds ih =>
      have hon := c.spent_le_on (H := H) deed d
      have hafter := ih (c.on H deed)
      simp only [sent, List.count_append, after_cons]
      omega

theorem usable_ofAttempts (attempts : Nat) : (ofAttempts attempts).Usable where
  consistent := consistent_ofAttempts attempts
  unspoilt _ _ := rfl
  limit_pos := Nat.lt_of_lt_of_le Nat.zero_lt_one (Nat.le_max_right attempts 1)

theorem Usable.after (hc : c.Usable) (deeds : List Deed) : (c.after H deeds).Usable where
  consistent := hc.consistent.after deeds
  unspoilt d :=
    slot_after (P := Slot.Unspoilt) (fun _ _ hturns => hturns.unspoilt) deeds (hc.unspoilt d)
  limit_pos := (c.limit_after deeds).symm ▸ hc.limit_pos

/-- Between two requests of a node a failure of it is counted. -/
theorem Usable.failures_lt (hc : c.Usable) {since : List Deed} {deed' : Deed}
    (hfirst : d ∈ c.sends deed) (hsecond : d ∈ (c.after H (deed :: since)).sends deed') :
    (c.slot d).failures < ((c.after H (deed :: since)).slot d).failures := by
  have hspent := (hc.spent_of_mem_sends hfirst).1
  have hspent' := ((hc.after (deed :: since)).spent_of_mem_sends hsecond).1
  have hle := c.spent_le_after (H := H) (deed :: since) d
  have hcount := List.count_pos_iff.mpr (List.mem_append_left ((c.on H deed).sent H since) hfirst)
  rw [sent] at hle
  omega

/-- A node is asked for no more often than it may fail, and each time but the first a failure of it
has been counted since the time before. -/
theorem requests_within_limit (attempts : Nat) (deeds : List Deed) (d : Digest) :
    let c := ofAttempts attempts
    (c.sent H deeds).count d ≤ max attempts 1 ∧
    ∀ before deed since deed' rest, deeds = before ++ deed :: since ++ deed' :: rest →
      let c₁ := c.after H before
      let c₂ := c.after H (before ++ deed :: since)
      d ∈ c₁.sends deed → d ∈ c₂.sends deed' → (c₁.slot d).failures < (c₂.slot d).failures := by
  intro c
  have husable : ∀ deeds, (c.after H deeds).Usable := (usable_ofAttempts attempts).after
  constructor
  · induction deeds using List.reverseRecOn with
    | nil => simp [sent]
    | append_singleton deeds deed ih =>
        rw [sent_append, List.count_append]
        simp only [sent, List.append_nil, count_sends]
        split
        · rename_i hmem
          obtain ⟨hspent, hfailures⟩ := (husable deeds).spent_of_mem_sends hmem
          have hle := c.spent_le_after (H := H) deeds d
          have hlimit : (c.after H deeds).limit = max attempts 1 := c.limit_after deeds
          omega
        · exact ih
  · intro before deed since deed' rest _ c₁ c₂ hfirst hsecond
    have hc₂ : c₂ = c₁.after H (deed :: since) := c.after_append before (deed :: since)
    rw [hc₂] at hsecond ⊢
    exact (husable before).failures_lt hfirst hsecond

/-- The first fetch fails, and the second brings what is no node: two are all that are allowed. -/
theorem requests_within_limit_flaky :
    let d : Digest := ⟨[7]⟩
    let c := ofAttempts 2
    let failed : List Deed := [.request d none, .complete d (.error (.notFound d))]
    let wrong : List Deed := [.request d none, .complete d (.ok [0]), .look d, .request d none]
    (c.sent Digest.mk (failed ++ wrong)).count d = 2 ∧
      (c.sent Digest.mk (failed ++ wrong)).count d ≤ max 2 1 ∧
      (c.slot d).failures < ((c.after Digest.mk failed).slot d).failures := by
  intro d c failed wrong
  obtain ⟨hcount, hfailures⟩ := requests_within_limit (H := Digest.mk) 2 (failed ++ wrong) d
  refine ⟨by decide +kernel, hcount, ?_⟩
  exact hfailures [] (.request d none) [.complete d (.error (.notFound d))] (.request d none)
    wrong.tail rfl (by decide +kernel) (by decide +kernel)

end Cache

end Reconcile

import Reconcile.Proofs.Cache.Supply

/-! # The course of a cache

All that is ever done with a cache is one of six deeds, and what one deed can make of a slot is a short
list of cases. So a node that was seen once is seen ever after, what is known stays known, and nothing
lies in the slot of a node that is under way. -/

namespace Reconcile

variable {H : Hashing} {c : Cache} {d e : Digest} {n : Node} {s s' : Slot}

/-! ## What becomes of a slot -/

namespace Slot

/-- What a deed makes of the slot of a digest. -/
inductive Turns (H : Hashing) (d : Digest) (s : Slot) : Slot → Prop
  | same : Turns H d s s
  | looked : Turns H d s (s.look H d)
  | asked (unfilled : s.isFilled = false) (pending : Bool) : Turns H d s (s.setPending pending)
  | completed (result : Except FetchFailure Bytes) : Turns H d s (s.complete result)
  | took {bytes : Bytes} (unfilled : s.isFilled = false) (digest : H bytes = d) :
      Turns H d s ((s.holdBytes bytes).look H d)
  | held {n : Node} (absent : (s.look H d).node? = none) (digest : n.digest H = d) :
      Turns H d s ((s.look H d).holdNode n)
  | marked : Turns H d s s.markKnown

/-- A look depends on what lies in the slot and on nothing else. -/
theorem node?_look_congr (h : s'.body = s.body) : (s'.look H d).node? = (s.look H d).node? := by
  cases hbody : s.body with
  | bytes bytes =>
      rw [hbody] at h
      cases hdecode : Node.decodeAs H d bytes <;>
        simp [look, h, hbody, hdecode, node?, fail]
  | empty | node m | spoilt =>
      rw [hbody] at h
      simp [look, h, hbody, node?]

theorem isFilled_of_node?_look (h : (s.look H d).node? = some n) : s.isFilled = true := by
  cases hbody : s.body with
  | bytes bytes => simp [isFilled, hbody]
  | node m => simp [isFilled, hbody]
  | empty => simp [look, node?, hbody] at h
  | spoilt => simp [look, node?, hbody] at h

theorem complete_of_filled (h : s.isFilled = true) (result : Except FetchFailure Bytes) :
    s.complete result = s.setPending false := by
  have hfilled : (s.setPending false).isFilled = true := h
  simp [complete, hfilled]

theorem holdBytes_of_unfilled (h : s.isFilled = false) (bytes : Bytes) :
    s.holdBytes bytes = { s with body := .bytes bytes, pending := false } := by
  cases hbody : s.body with
  | empty => simp [holdBytes, hbody]
  | spoilt => simp [holdBytes, hbody]
  | bytes b => simp [isFilled, hbody] at h
  | node m => simp [isFilled, hbody] at h

/-- Nothing lies in the slot of a node that is under way. -/
def Consistent (s : Slot) : Prop := s.pending = true → s.isFilled = false

theorem consistent_of_pending_eq_false (h : s.pending = false) : s.Consistent :=
  fun hpending => nomatch h.symm.trans hpending

/-- A look never starts a fetch. -/
theorem pending_of_look (h : (s.look H d).pending = true) : s.pending = true := by
  cases hbody : s.body with
  | bytes bytes =>
      cases hdecode : Node.decodeAs H d bytes <;> simp [look, hbody, hdecode, fail] at h
      exact h
  | empty | node m | spoilt => simpa [look, hbody] using h

/-- Nothing is under way once bytes were taken. -/
theorem pending_took (h : s.isFilled = false) (bytes : Bytes) :
    ((s.holdBytes bytes).look H d).pending = false := by
  refine Bool.eq_false_iff.mpr ?_
  intro hpending
  have hheld := pending_of_look hpending
  rw [holdBytes_of_unfilled h] at hheld
  cases hheld

namespace Turns

theorem genuine (h : s.Turns H d s') (hs : s.Genuine H d) : s'.Genuine H d := by
  cases h with
  | same => exact hs
  | looked => exact hs.look
  | asked unfilled pending => exact hs.setPending pending
  | completed result =>
      cases hfilled : s.isFilled with
      | true =>
          rw [complete_of_filled hfilled]
          exact hs.setPending false
      | false =>
          intro m hm
          cases result <;> simp [complete_ok hfilled, complete_error hfilled, node?] at hm
  | took unfilled digest => exact (hs.holdBytes _).look
  | held absent digest => exact genuine_holdNode (digest ▸ denotes_digest H _) _
  | marked => exact hs.markKnown

theorem known (h : s.Turns H d s') (hs : s.known = true) : s'.known = true := by
  cases h with
  | same => exact hs
  | looked => exact (known_look s d).trans hs
  | asked unfilled pending => exact hs
  | completed result =>
      cases hfilled : s.isFilled with
      | true =>
          rw [complete_of_filled hfilled]
          exact hs
      | false => cases result <;> simpa [complete_ok hfilled, complete_error hfilled] using hs
  | took unfilled digest => simpa using hs
  | held absent digest => simpa using hs
  | marked => rfl

theorem consistent (h : s.Turns H d s') (hs : s.Consistent) : s'.Consistent := by
  cases h with
  | same => exact hs
  | looked =>
      intro hpending
      have hunfilled := hs (pending_of_look hpending)
      rw [look_of_isFilled_eq_false hunfilled]
      exact hunfilled
  | asked unfilled pending => exact fun _ => unfilled
  | completed result => exact consistent_of_pending_eq_false (pending_complete s result)
  | took unfilled digest => exact consistent_of_pending_eq_false (pending_took unfilled _)
  | held absent digest => exact consistent_of_pending_eq_false rfl
  | marked => exact hs

/-- A node that a look shows is shown by every later look. -/
theorem shown (h : s.Turns H d s') (hs : (s.look H d).node? = some n) :
    (s'.look H d).node? = some n := by
  have hfilled := isFilled_of_node?_look hs
  cases h with
  | same => exact hs
  | looked => rwa [look_look]
  | asked unfilled pending => cases unfilled.symm.trans hfilled
  | completed result =>
      rw [complete_of_filled hfilled, ← hs]
      exact node?_look_congr rfl
  | took unfilled digest => cases unfilled.symm.trans hfilled
  | held absent digest => cases absent.symm.trans hs
  | marked =>
      rw [← hs]
      exact node?_look_congr rfl

end Turns

end Slot

/-! ## Deeds -/

/-- Something that is done with a cache. -/
inductive Deed
  | look (d : Digest)
  /-- A node is asked for. `refusal` is what the one who would fetch it says if it will not. -/
  | request (d : Digest) (refusal : Option FetchFailure)
  /-- A fetch ends, whether anybody asked for it or not. -/
  | complete (d : Digest) (result : Except FetchFailure Bytes)
  | putBytes (bytes : Bytes)
  | putNode (n : Node)
  | markKnown (d : Digest)

namespace Cache

/-- The cache after a deed. -/
def on (H : Hashing) (c : Cache) : Deed → Cache
  | .look d => (c.look H d).1
  | .request d refusal => (c.request d refusal).1
  | .complete d result => (c.complete d result).1
  | .putBytes bytes => (c.putBytes H bytes).1
  | .putNode n => (c.putNode H n).1
  | .markKnown d => c.markKnown d

/-- The cache after a row of deeds. -/
def after (H : Hashing) (c : Cache) (deeds : List Deed) : Cache := deeds.foldl (on H) c

@[simp] theorem after_nil (c : Cache) : c.after H [] = c := rfl

@[simp] theorem after_cons (c : Cache) (deed : Deed) (deeds : List Deed) :
    c.after H (deed :: deeds) = (c.on H deed).after H deeds := rfl

theorem after_append (c : Cache) (deeds deeds' : List Deed) :
    c.after H (deeds ++ deeds') = (c.after H deeds).after H deeds' := List.foldl_append

theorem after_concat (c : Cache) (deeds : List Deed) (deed : Deed) :
    c.after H (deeds ++ [deed]) = (c.after H deeds).on H deed := c.after_append deeds [deed]

theorem turns_modify {f : Slot → Slot} (h : (c.slot d).Turns H d (f (c.slot d))) (e : Digest) :
    (c.slot e).Turns H e ((c.modify d f).slot e) := by
  rw [slot_modify]
  split
  · rename_i hde
    exact hde ▸ h
  · exact .same

theorem turns_request (c : Cache) (d : Digest) (refusal : Option FetchFailure) (e : Digest) :
    (c.slot e).Turns H e ((c.request d refusal).1.slot e) := by
  unfold request
  cases hobstacle : c.obstacle? d with
  | some r => exact turns_modify .same e
  | none =>
      obtain ⟨hfilled, -, -⟩ := obstacle?_eq_none hobstacle
      cases refusal with
      | none => exact turns_modify (.asked hfilled true) e
      | some failure => exact turns_modify (.asked hfilled false) e

theorem turns_putBytes (c : Cache) (bytes : Bytes) (e : Digest) :
    (c.slot e).Turns H e ((c.putBytes H bytes).1.slot e) := by
  rw [putBytes_fst]
  refine turns_modify ?_ e
  unfold taken
  dsimp only
  split
  · exact .looked
  · rename_i hfilled
    exact .took (by simpa using hfilled) rfl

theorem turns_putNode (c : Cache) (n : Node) (e : Digest) :
    (c.slot e).Turns H e ((c.putNode H n).1.slot e) := by
  unfold putNode
  dsimp only
  split
  · exact turns_modify .looked e
  · rename_i habsent
    exact turns_modify (.held habsent rfl) e

/-- A deed turns each slot in one of the ways. -/
theorem turns_on (c : Cache) (deed : Deed) (e : Digest) :
    (c.slot e).Turns H e ((c.on H deed).slot e) := by
  cases deed with
  | look d =>
      simp only [on, slot_look]
      split
      · exact .looked
      · exact .same
  | request d refusal => exact turns_request c d refusal e
  | complete d result =>
      simp only [on, complete_fst]
      exact turns_modify (.completed result) e
  | putBytes bytes => exact turns_putBytes c bytes e
  | putNode n => exact turns_putNode c n e
  | markKnown d => exact turns_modify .marked e

/-- What every turn of a slot keeps holds of it after any row of deeds. -/
theorem slot_after {P : Slot → Prop} (hturns : ∀ s s', Slot.Turns H d s s' → P s → P s')
    (deeds : List Deed) (h : P (c.slot d)) : P ((c.after H deeds).slot d) := by
  induction deeds generalizing c with
  | nil => exact h
  | cons deed deeds ih => exact ih (hturns _ _ (turns_on c deed d) h)

theorem look_eq_present_iff : (c.look H d).2 = .present n ↔ ((c.slot d).look H d).node? = some n := by
  rw [look_snd]
  unfold view
  cases hbody : ((c.slot d).look H d).body <;> simp [Slot.node?, hbody]

/-- A node that a look shows is shown after any further deeds. -/
theorem present_after (h : (c.look H d).2 = .present n) (deeds : List Deed) :
    ((c.after H deeds).look H d).2 = .present n :=
  look_eq_present_iff.mpr
    (slot_after (P := fun s => (s.look H d).node? = some n) (fun _ _ hturns => hturns.shown) deeds
      (look_eq_present_iff.mp h))

/-- Nothing lies in the slots of nodes that are under way. -/
def Consistent (c : Cache) : Prop := ∀ d, (c.slot d).Consistent

theorem consistent_ofAttempts (attempts : Nat) : (ofAttempts attempts).Consistent := fun _ h => nomatch h

theorem Consistent.after (h : c.Consistent) (deeds : List Deed) : (c.after H deeds).Consistent :=
  fun d => slot_after (P := Slot.Consistent) (fun _ _ hturns => hturns.consistent) deeds (h d)

theorem Consistent.complete (h : c.Consistent) (d : Digest) (result : Except FetchFailure Bytes) :
    (c.complete d result).1.Consistent := by
  intro e
  rw [slot_complete]
  split
  · exact Slot.consistent_of_pending_eq_false (Slot.pending_complete _ result)
  · exact h e

theorem Genuine.after (h : c.Genuine H) (deeds : List Deed) : (c.after H deeds).Genuine H :=
  fun d => slot_after (P := Slot.Genuine H d) (fun _ _ hturns => hturns.genuine) deeds (h d)

/-! ### What is under way -/

/-- The nodes that a deed has somebody fetch. -/
def sends (c : Cache) : Deed → List Digest
  | .request d refusal =>
    match (c.request d refusal).2 with
    | .ok .sent => [d]
    | _ => []
  | _ => []

/-- The nodes that a row of deeds has somebody fetch. -/
def sent (H : Hashing) : Cache → List Deed → List Digest
  | _, [] => []
  | c, deed :: deeds => c.sends deed ++ sent H (c.on H deed) deeds

theorem pending_of_modify {f : Slot → Slot}
    (hf : (f (c.slot d)).pending = true → (c.slot d).pending = true)
    (h : (c.modify d f).pending e = true) : c.pending e = true := by
  rw [pending, slot_modify] at h
  split at h
  · rename_i hde
    exact hde ▸ hf h
  · exact h

theorem pending_of_request {refusal : Option FetchFailure}
    (h : (c.request d refusal).1.pending e = true) :
    c.pending e = true ∨ e ∈ c.sends (.request d refusal) := by
  unfold sends
  unfold request at h ⊢
  cases hobstacle : c.obstacle? d with
  | some r =>
      simp only [hobstacle] at h
      exact .inl (pending_of_modify id h)
  | none =>
      simp only [hobstacle] at h
      cases refusal with
      | none =>
          by_cases hde : d = e
          · subst hde
            exact .inr (by simp [hobstacle])
          · rw [pending, slot_modify, if_neg hde] at h
            exact .inl h
      | some failure => exact .inl (pending_of_modify (fun hpending => by cases hpending) h)

theorem pending_of_putBytes {bytes : Bytes} (h : (c.putBytes H bytes).1.pending e = true) :
    c.pending e = true := by
  rw [putBytes_fst] at h
  refine pending_of_modify ?_ h
  unfold taken
  dsimp only
  split
  · exact Slot.pending_of_look
  · rename_i hfilled
    intro hpending
    cases (Slot.pending_took (by simpa using hfilled) bytes).symm.trans hpending

theorem pending_of_putNode (h : (c.putNode H n).1.pending e = true) : c.pending e = true := by
  unfold putNode at h
  dsimp only at h
  split at h
  · exact pending_of_modify Slot.pending_of_look h
  · exact pending_of_modify (fun hpending => by cases hpending) h

/-- A fetch that is under way after a deed was so before, or the deed is its request. -/
theorem pending_of_on {deed : Deed} (h : (c.on H deed).pending e = true) :
    c.pending e = true ∨ e ∈ c.sends deed := by
  cases deed with
  | look d =>
      simp only [on, pending, slot_look] at h
      split at h
      · exact .inl (Slot.pending_of_look h)
      · exact .inl h
  | request d refusal => exact pending_of_request h
  | complete d result =>
      by_cases hde : d = e
      · subst hde
        cases (pending_complete_self c d result).symm.trans h
      · exact .inl ((pending_complete_of_ne c result hde).symm.trans h)
  | putBytes bytes => exact .inl (pending_of_putBytes h)
  | putNode n => exact .inl (pending_of_putNode h)
  | markKnown d => exact .inl (pending_of_modify id h)

/-- A fetch that is under way after a row of deeds was so before, or was asked for in it. -/
theorem pending_of_after {deeds : List Deed} (h : (c.after H deeds).pending e = true) :
    c.pending e = true ∨ e ∈ c.sent H deeds := by
  induction deeds generalizing c with
  | nil => exact .inl h
  | cons deed deeds ih =>
      rcases ih h with hpending | hsent
      · exact (pending_of_on hpending).imp_right (List.mem_append_left _)
      · exact .inr (List.mem_append_right _ hsent)

theorem sent_append (c : Cache) (deeds deeds' : List Deed) :
    c.sent H (deeds ++ deeds') = c.sent H deeds ++ (c.after H deeds).sent H deeds' := by
  induction deeds generalizing c with
  | nil => rfl
  | cons deed deeds ih => simp [sent, ih]

/-- Looking and asking end no fetch. -/
theorem Consistent.pending_look (h : c.Consistent) (d : Digest) (hpending : c.pending e = true) :
    (c.look H d).1.pending e = true := by
  rw [pending, slot_look]
  split
  · rw [Slot.look_of_isFilled_eq_false (h e hpending)]
    exact hpending
  · exact hpending

theorem Consistent.pending_request (h : c.Consistent) (refusal : Option FetchFailure)
    (hpending : c.pending e = true) : (c.request d refusal).1.pending e = true := by
  by_cases hde : d = e
  · subst hde
    have hobstacle : c.obstacle? d = some .underWay := by
      have hslot : (c.slot d).pending = true := hpending
      simp [obstacle?, h d hpending, hslot]
    simpa [request, hobstacle, pending] using hpending
  · unfold request
    cases c.obstacle? d with
    | some r => simpa [pending, hde] using hpending
    | none => cases refusal <;> simpa [pending, hde] using hpending

/-- Nor does a fetch that ends when its node is there. -/
theorem Consistent.pending_complete (h : c.Consistent) (hfilled : (c.slot d).isFilled = true)
    (result : Except FetchFailure Bytes) (hpending : c.pending e = true) :
    (c.complete d result).1.pending e = true := by
  have hde : d ≠ e := by
    rintro rfl
    cases (h d hpending).symm.trans hfilled
  rwa [pending_complete_of_ne c result hde]

/-! ### All that a cache finds -/

/-- Whatever is done with a cache, each node it shows is one that its digest denotes and is shown ever
after, what is known stays known, and nothing lies in the slot of a node that is under way. -/
theorem findings_genuine_and_lasting (attempts : Nat) (deeds more : List Deed) (d : Digest) :
    let c := (ofAttempts attempts).after H deeds
    (∀ n, (c.look H d).2 = .present n →
      Denotes H d n ∧ ((c.after H more).look H d).2 = .present n) ∧
    (c.known d = true → (c.after H more).known d = true) ∧
    (c.pending d = true → (c.slot d).isFilled = false) := by
  intro c
  have hgenuine : c.Genuine H := (genuine_ofAttempts attempts).after deeds
  have hconsistent : c.Consistent := (consistent_ofAttempts attempts).after deeds
  refine ⟨?_, ?_, hconsistent d⟩
  · intro n hn
    exact ⟨denotes_of_look hgenuine hn, present_after hn more⟩
  · exact slot_after (P := fun s => s.known = true) (fun _ _ hturns => hturns.known) more

/-- One node is fetched and marked, another is under way; after that other bytes come, and failures. -/
theorem findings_of_fetched :
    let n := Node.ofNames []
    let d := n.digest Digest.mk
    let e : Digest := ⟨[7]⟩
    let c := (ofAttempts 1).after Digest.mk
      [.request d none, .request e none, .complete d (.ok n.encode), .markKnown d]
    let c' := c.after Digest.mk
      [.complete d (.ok [7]), .complete d (.error .shutDown), .look d, .complete e (.ok [0]), .look e]
    (c.look Digest.mk d).2 = .present n ∧ c.known d = true ∧ c.pending e = true ∧
      Denotes Digest.mk d n ∧ (c'.look Digest.mk d).2 = .present n ∧ c'.known d = true ∧
      (c.slot e).isFilled = false := by
  intro n d e c c'
  have hd := findings_genuine_and_lasting (H := Digest.mk) 1
    [.request d none, .request e none, .complete d (.ok n.encode), .markKnown d]
    [.complete d (.ok [7]), .complete d (.error .shutDown), .look d, .complete e (.ok [0]), .look e]
  have hpresent : (c.look Digest.mk d).2 = .present n := by decide +kernel
  have hknown : c.known d = true := by decide +kernel
  have hpending : c.pending e = true := by decide +kernel
  exact ⟨hpresent, hknown, hpending, ((hd d).1 n hpresent).1, ((hd d).1 n hpresent).2,
    (hd d).2.1 hknown, (hd e).2.2 hpending⟩

end Cache

end Reconcile

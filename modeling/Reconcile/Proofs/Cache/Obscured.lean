import Mathlib.Data.List.Induction
import Reconcile.Proofs.Cache.Course

/-! # Bytes that lie in the way

Bytes that a fetch brought are kept unread, and while they lie there no others are taken. So wrong bytes
keep the right ones out until somebody looks at them, and this is the only way to keep them out. -/

namespace Reconcile

variable {H : Hashing} {c : Cache} {d : Digest} {n : Node} {s s' : Slot} {bytes : Bytes} {deed : Deed}

/-! ## Slots -/

namespace Slot

/-- Bytes that nobody has looked at lie in the slot, and they are not the node of the digest. -/
def Obscured (H : Hashing) (d : Digest) (s : Slot) : Prop :=
  ∃ wrong, s.body = .bytes wrong ∧ ∀ n, Node.decodeAs H d wrong ≠ .ok n

theorem Obscured.isFilled (h : s.Obscured H d) : s.isFilled = true := by
  obtain ⟨wrong, hbody, -⟩ := h
  simp [Slot.isFilled, hbody]

theorem Obscured.look (h : s.Obscured H d) : (s.look H d).body = .spoilt := by
  obtain ⟨wrong, hbody, hwrong⟩ := h
  cases hdecode : Node.decodeAs H d wrong with
  | error e => simp [Slot.look, hbody, hdecode, fail]
  | ok m => exact absurd hdecode (hwrong m)

theorem not_obscured_look (s : Slot) : ¬ (s.look H d).Obscured H d := by
  rintro ⟨wrong, hbody, -⟩
  exact s.body_look_ne_bytes wrong hbody

/-- What lies in a slot is a node, unless the slot is obscured. -/
theorem exists_node_of_not_obscured (hfilled : s.isFilled = true) (h : ¬ s.Obscured H d) :
    ∃ m, (s.look H d).node? = some m := by
  cases hbody : s.body with
  | empty => simp [Slot.isFilled, hbody] at hfilled
  | spoilt => simp [Slot.isFilled, hbody] at hfilled
  | node m => exact ⟨m, by simp [Slot.look, node?, hbody]⟩
  | bytes wrong =>
      cases hdecode : Node.decodeAs H d wrong with
      | ok m => exact ⟨m, by simp [Slot.look, node?, hbody, hdecode]⟩
      | error e => exact absurd ⟨wrong, hbody, by simp [hdecode]⟩ h

theorem node?_eq_none_of_body (h : s.body = .spoilt) : s.node? = none := by
  simp [node?, h]

section Right

variable (hs : s.Genuine H d) (right : Node.decodeAs H d bytes = .ok n)
  (unique : ∀ m, Denotes H d m → m = n)

include hs unique in
theorem node?_look_iff (hfilled : s.isFilled = true) :
    (s.look H d).node? = some n ↔ ¬ s.Obscured H d := by
  constructor
  · intro hn hobscured
    cases (node?_eq_none_of_body hobscured.look).symm.trans hn
  · intro hclear
    obtain ⟨m, hm⟩ := exists_node_of_not_obscured hfilled hclear
    exact unique m (hs.look m hm) ▸ hm

include hs right unique in
/-- The right bytes are shown after a fetch of them, unless the slot was obscured. -/
theorem node?_look_complete_iff :
    ((s.complete (.ok bytes)).look H d).node? = some n ↔ ¬ s.Obscured H d := by
  cases hfilled : s.isFilled with
  | true =>
      rw [complete_of_filled hfilled, ← node?_look_iff hs unique hfilled]
      exact Eq.congr_left (node?_look_congr rfl)
  | false =>
      refine iff_of_true ?_ (fun h => nomatch h.isFilled.symm.trans hfilled)
      simp [complete_ok hfilled, Slot.look, right, node?]

end Right

end Slot

/-! ## Deeds -/

/-- The bytes that lie under a digest are decoded. -/
def Deed.Reads (H : Hashing) (d : Digest) : Deed → Prop
  | look e => e = d
  | putBytes bytes => H bytes = d
  | putNode n => n.digest H = d
  | request _ _ | complete _ _ | markKnown _ => False

namespace Cache

theorem not_obscured_of_reads (h : deed.Reads H d) : ¬ ((c.on H deed).slot d).Obscured H d := by
  cases deed with
  | look e =>
      obtain rfl : e = d := h
      rw [on, slot_look, if_pos rfl]
      exact Slot.not_obscured_look _
  | putBytes bytes =>
      obtain rfl : H bytes = d := h
      rw [on, putBytes_fst, slot_modify, if_pos rfl]
      exact Slot.not_obscured_look _
  | putNode n =>
      obtain rfl : n.digest H = d := h
      unfold on putNode
      dsimp only
      rw [slot_modify, if_pos rfl]
      split
      · exact Slot.not_obscured_look _
      · rintro ⟨wrong, hbody, -⟩
        cases hbody
  | request e refusal => cases h
  | complete e result => cases h
  | markKnown e => cases h

theorem body_request (c : Cache) (e : Digest) (refusal : Option FetchFailure) (d : Digest) :
    ((c.request e refusal).1.slot d).body = (c.slot d).body := by
  have hmodify : ∀ f : Slot → Slot, (∀ s, (f s).body = s.body) →
      ((c.modify e f).slot d).body = (c.slot d).body := by
    intro f hf
    rw [slot_modify]
    split
    · rename_i hed
      rw [hf, hed]
    · rfl
  unfold request
  cases c.obstacle? e with
  | some r => exact hmodify _ (fun _ => rfl)
  | none => cases refusal <;> exact hmodify _ (fun _ => rfl)

/-- What lies under a digest is changed by a fetch that ends and by being read, and by nothing else. -/
theorem body_on (hreads : ¬ deed.Reads H d) (hcomplete : ∀ result, deed ≠ .complete d result) :
    ((c.on H deed).slot d).body = (c.slot d).body := by
  cases deed with
  | look e =>
      have hed : e ≠ d := hreads
      rw [on, slot_look, if_neg hed]
  | putBytes bytes =>
      have hed : H bytes ≠ d := hreads
      rw [on, putBytes_fst, slot_modify, if_neg hed]
  | putNode n =>
      have hed : n.digest H ≠ d := hreads
      unfold on putNode
      dsimp only
      rw [slot_modify, if_neg hed]
  | request e refusal => exact body_request c e refusal d
  | complete e result =>
      have hed : e ≠ d := fun h => hcomplete result (h ▸ rfl)
      rw [on, slot_complete, if_neg hed]
  | markKnown e =>
      rw [on, markKnown, slot_modify]
      split
      · rename_i hed
        rw [hed]
        rfl
      · rfl

/-- A slot is obscured after a deed if it was so before and was not read, or if a fetch brought wrong
bytes while nothing lay there. -/
theorem obscured_on_iff :
    ((c.on H deed).slot d).Obscured H d ↔
      (c.slot d).Obscured H d ∧ ¬ deed.Reads H d ∨
        ∃ wrong, deed = .complete d (.ok wrong) ∧ (c.slot d).isFilled = false ∧
          ∀ n, Node.decodeAs H d wrong ≠ .ok n := by
  by_cases hcomplete : ∃ result, deed = .complete d result
  · obtain ⟨result, rfl⟩ := hcomplete
    have hreads : ¬ (Deed.complete d result).Reads H d := id
    rw [on, slot_complete, if_pos rfl]
    cases hfilled : (c.slot d).isFilled with
    | true => simp [Slot.complete_of_filled hfilled, Slot.Obscured, Slot.setPending, hreads]
    | false =>
        have hclear : ¬ (c.slot d).Obscured H d := by
          intro h
          cases h.isFilled.symm.trans hfilled
        rw [or_iff_right (fun h => hclear h.1)]
        cases result with
        | error e => simp [Slot.complete_error hfilled, Slot.Obscured]
        | ok wrong => simp [Slot.complete_ok hfilled, Slot.Obscured]
  · push Not at hcomplete
    have hnone : ¬ ∃ wrong, deed = .complete d (.ok wrong) ∧ (c.slot d).isFilled = false ∧
        ∀ n, Node.decodeAs H d wrong ≠ .ok n := by
      rintro ⟨wrong, hdeed, -⟩
      exact hcomplete _ hdeed
    rw [or_iff_left hnone]
    by_cases hreads : deed.Reads H d
    · exact iff_of_false (not_obscured_of_reads hreads) (fun h => h.2 hreads)
    · simp only [Slot.Obscured, body_on hreads hcomplete, hreads, not_false_iff, and_true]

/-- A fetch brought wrong bytes while nothing lay under their digest, and nobody has read them since. -/
def Obscures (H : Hashing) (c : Cache) (deeds : List Deed) (d : Digest) : Prop :=
  ∃ before wrong since, deeds = before ++ .complete d (.ok wrong) :: since ∧
    ((c.after H before).slot d).isFilled = false ∧ (∀ n, Node.decodeAs H d wrong ≠ .ok n) ∧
    ∀ deed ∈ since, ¬ deed.Reads H d

theorem obscures_concat_iff {deeds : List Deed} :
    c.Obscures H (deeds ++ [deed]) d ↔
      c.Obscures H deeds d ∧ ¬ deed.Reads H d ∨
        ∃ wrong, deed = .complete d (.ok wrong) ∧ ((c.after H deeds).slot d).isFilled = false ∧
          ∀ n, Node.decodeAs H d wrong ≠ .ok n := by
  constructor
  · rintro ⟨before, wrong, since, hsplit, hfilled, hwrong, hsince⟩
    cases since using List.reverseRecOn with
    | nil =>
        obtain ⟨rfl, hdeed⟩ := List.append_inj' hsplit rfl
        exact .inr ⟨wrong, List.singleton_inj.mp hdeed, hfilled, hwrong⟩
    | append_singleton since last =>
        rw [← List.cons_append, ← List.append_assoc] at hsplit
        obtain ⟨rfl, hlast⟩ := List.append_inj' hsplit rfl
        obtain rfl := List.singleton_inj.mp hlast
        refine .inl ⟨⟨before, wrong, since, rfl, hfilled, hwrong, ?_⟩, hsince deed (by simp)⟩
        exact fun deed' hdeed' => hsince deed' (List.mem_append_left _ hdeed')
  · rintro (⟨⟨before, wrong, since, rfl, hfilled, hwrong, hsince⟩, hreads⟩ |
      ⟨wrong, rfl, hfilled, hwrong⟩)
    · refine ⟨before, wrong, since ++ [deed], by simp, hfilled, hwrong, ?_⟩
      intro deed' hdeed'
      rcases List.mem_append.mp hdeed' with hdeed' | hdeed'
      · exact hsince deed' hdeed'
      · exact List.mem_singleton.mp hdeed' ▸ hreads
    · exact ⟨deeds, wrong, [], rfl, hfilled, hwrong, fun deed' hdeed' => nomatch hdeed'⟩

theorem obscured_after_iff (hclear : ¬ (c.slot d).Obscured H d) (deeds : List Deed) :
    ((c.after H deeds).slot d).Obscured H d ↔ c.Obscures H deeds d := by
  induction deeds using List.reverseRecOn with
  | nil =>
      refine iff_of_false hclear ?_
      rintro ⟨before, wrong, since, hsplit, -⟩
      simp at hsplit
  | append_singleton deeds deed ih => rw [after_concat, obscured_on_iff, obscures_concat_iff, ih]

/-! ## Right bytes -/

section Right

variable (hc : c.Genuine H) (right : Node.decode bytes = .ok n)
  (unique : ∀ m, Denotes H (H bytes) m → m = n)

theorem decodeAs_self (right : Node.decode bytes = .ok n) :
    Node.decodeAs H (H bytes) bytes = .ok n := by
  rw [Node.decodeAs, if_pos rfl, right]

include hc right unique in
theorem present_complete_iff :
    ((c.complete (H bytes) (.ok bytes)).1.look H (H bytes)).2 = .present n ↔
      ¬ (c.slot (H bytes)).Obscured H (H bytes) := by
  rw [look_eq_present_iff, slot_complete, if_pos rfl]
  exact Slot.node?_look_complete_iff (hc _) (decodeAs_self right) unique

include hc right unique in
theorem node?_taken_iff :
    (c.taken H bytes).node? = some n ↔ ¬ (c.slot (H bytes)).Obscured H (H bytes) := by
  unfold taken
  dsimp only
  cases hfilled : (c.slot (H bytes)).isFilled with
  | true => exact Slot.node?_look_iff (hc _) unique hfilled
  | false =>
      refine iff_of_true ?_ (fun h => nomatch h.isFilled.symm.trans hfilled)
      simp [Slot.holdBytes_of_unfilled hfilled, Slot.look, decodeAs_self right, Slot.node?]

include right in
theorem putBytes_snd : (c.putBytes H bytes).2 =
    if (c.taken H bytes).node?.isSome then .ok (H bytes)
    else .error (.malformed (.unattached (H bytes))) := by
  unfold putBytes taken
  dsimp only
  split
  · rename_i hnode
    simp [hnode]
  · rename_i hnode
    simp [hnode, right]

include hc right unique in
theorem present_putBytes_iff :
    (c.putBytes H bytes).2 = .ok (H bytes) ∧
        ((c.putBytes H bytes).1.look H (H bytes)).2 = .present n ↔
      ¬ (c.slot (H bytes)).Obscured H (H bytes) := by
  have htwice : (c.taken H bytes).look H (H bytes) = c.taken H bytes := Slot.look_look H _ _
  rw [← node?_taken_iff hc right unique, look_eq_present_iff, putBytes_fst, slot_modify, if_pos rfl,
    htwice, putBytes_snd right]
  constructor
  · exact And.right
  · intro hnode
    simp [hnode]

theorem redundant_of_obscured (h : (c.slot d).Obscured H d) (bytes : Bytes) :
    (c.complete d (.ok bytes)).2 = .redundant := by
  have hfilled : ((c.slot d).setPending false).isFilled = true := h.isFilled
  simp [complete, hfilled]

theorem spoilt_of_obscured (h : (c.slot d).Obscured H d) (bytes : Bytes) :
    ∃ givenUp, ((c.complete d (.ok bytes)).1.look H d).2 = .spoilt givenUp := by
  have hspoilt : (((c.slot d).setPending false).look H d).body = .spoilt := Slot.Obscured.look h
  rw [look_snd, slot_complete, if_pos rfl, Slot.complete_of_filled h.isFilled]
  simp [view, hspoilt]

include right in
theorem putBytes_of_obscured (h : (c.slot (H bytes)).Obscured H (H bytes)) :
    (c.putBytes H bytes).2 = .error (.malformed (.unattached (H bytes))) := by
  have hnone : (c.taken H bytes).node? = none := by
    unfold taken
    dsimp only
    rw [if_pos h.isFilled]
    exact Slot.node?_eq_none_of_body h.look
  rw [putBytes_snd right, hnone]
  rfl

end Right

theorem not_obscured_ofAttempts (attempts : Nat) : ¬ ((ofAttempts attempts).slot d).Obscured H d := by
  rintro ⟨wrong, hbody, -⟩
  cases hbody

/-- Bytes that write the one node of their digest are taken by either way and shown from then on, just
when no wrong bytes lie unread under their digest. Otherwise a fetch of them counts for nothing and
they are refused when they are put in, and the node is spoilt. -/
theorem right_bytes_taken_iff (attempts : Nat) (deeds : List Deed) {bytes : Bytes} {n : Node}
    (right : Node.decode bytes = .ok n) (unique : ∀ m, Denotes H (H bytes) m → m = n) :
    let c := (ofAttempts attempts).after H deeds
    let d := H bytes
    let obscured := (ofAttempts attempts).Obscures H deeds d
    (((c.complete d (.ok bytes)).1.look H d).2 = .present n ↔ ¬ obscured) ∧
    ((c.putBytes H bytes).2 = .ok d ∧ ((c.putBytes H bytes).1.look H d).2 = .present n ↔
      ¬ obscured) ∧
    (obscured →
      (c.complete d (.ok bytes)).2 = .redundant ∧
      (∃ givenUp, ((c.complete d (.ok bytes)).1.look H d).2 = .spoilt givenUp) ∧
      (c.putBytes H bytes).2 = .error (.malformed (.unattached d))) := by
  intro c d obscured
  have hc : c.Genuine H := (genuine_ofAttempts attempts).after deeds
  have hobscured : (c.slot d).Obscured H d ↔ obscured :=
    obscured_after_iff (not_obscured_ofAttempts attempts) deeds
  rw [← hobscured]
  refine ⟨present_complete_iff hc right unique, present_putBytes_iff hc right unique, ?_⟩
  exact fun h => ⟨redundant_of_obscured h bytes, spoilt_of_obscured h bytes, putBytes_of_obscured right h⟩

/-- A byte that is no node comes first, unasked, and keeps the node of the digest out. -/
theorem right_bytes_refused :
    let n := Node.ofNames []
    let d := n.digest Digest.mk
    let c := (ofAttempts 3).after Digest.mk [.complete d (.ok [255])]
    (c.complete d (.ok n.encode)).2 = .redundant ∧
    (∃ givenUp, ((c.complete d (.ok n.encode)).1.look Digest.mk d).2 = .spoilt givenUp) ∧
    (c.putBytes Digest.mk n.encode).2 = .error (.malformed (.unattached d)) := by
  intro n d c
  have right : Node.decode n.encode = .ok n := by decide +kernel
  have unique : ∀ m, Denotes Digest.mk (Digest.mk n.encode) m → m = n := fun m hm =>
    hm.unique (fun _ _ h => congrArg Digest.bytes h) ⟨n.encode, rfl, .inl right⟩
  refine (right_bytes_taken_iff 3 [.complete d (.ok [255])] right unique).2.2
    ⟨[], [255], [], rfl, rfl, ?_, fun deed hdeed => nomatch hdeed⟩
  intro m hm
  have hmismatch : Node.decodeAs Digest.mk d [255] = .error (.digestMismatch d ⟨[255]⟩) := by
    decide +kernel
  cases hmismatch.symm.trans hm

end Cache

end Reconcile

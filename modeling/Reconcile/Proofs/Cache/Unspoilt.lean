import Reconcile.Proofs.Cache.Course

/-! # Where every fetch brings its node, no slot is spoilt

A slot is spoilt only by a fetch that fails or by bytes that are not its node. If neither ever comes in,
a look finds every node or misses it, and none is given up. -/

namespace Reconcile

variable {H : Hashing} {d : Digest} {s s' : Slot} {c : Cache} {result : Except FetchFailure Bytes}

theorem Brings.digest {bytes : Bytes} (h : Brings H d (.ok bytes)) : H bytes = d := by
  obtain ⟨bytes', n, hbytes, hdecode⟩ := h
  obtain rfl := Except.ok.inj hbytes
  unfold Node.decodeAs at hdecode
  split at hdecode
  · assumption
  · cases hdecode

theorem Slot.isSpoilt_look_congr (h : s'.body = s.body) :
    (s'.look H d).isSpoilt = (s.look H d).isSpoilt := by
  cases hbody : s.body with
  | bytes bytes =>
      rw [hbody] at h
      cases hdecode : Node.decodeAs H d bytes <;>
        simp [look, h, hbody, hdecode, isSpoilt, fail]
  | empty | node m | spoilt =>
      rw [hbody] at h
      simp [look, h, hbody, isSpoilt]

/-- Bytes of the node are taken where nothing lay. -/
theorem Slot.isSpoilt_hold (hfilled : s.isFilled = false) {bytes : Bytes}
    (hbytes : Brings H d (.ok bytes)) : ((s.holdBytes bytes).look H d).isSpoilt = false := by
  obtain ⟨bytes', n, hsame, hdecode⟩ := hbytes
  obtain rfl := Except.ok.inj hsame
  rw [holdBytes_of_unfilled hfilled]
  simp [look, hdecode, isSpoilt]

theorem Slot.isSpoilt_complete (hs : (s.look H d).isSpoilt = false) (hresult : Brings H d result) :
    ((s.complete result).look H d).isSpoilt = false := by
  obtain ⟨bytes, n, rfl, hdecode⟩ := hresult
  cases hfilled : s.isFilled with
  | true =>
      rw [complete_of_filled hfilled, ← hs]
      exact isSpoilt_look_congr rfl
  | false =>
      rw [complete_ok hfilled]
      simp [look, hdecode, isSpoilt]

namespace Cache

/-- Whatever came is the node that was asked for. -/
def Unspoilt (H : Hashing) (c : Cache) : Prop := ∀ d, ((c.slot d).look H d).isSpoilt = false

theorem unspoilt_ofAttempts (attempts : Nat) : (ofAttempts attempts).Unspoilt H := fun _ => rfl

namespace Unspoilt

theorem look_ne (h : c.Unspoilt H) {givenUp : Bool} : (c.look H d).2 ≠ .spoilt givenUp := by
  intro hlook
  have hslot := h d
  rw [look_snd] at hlook
  unfold view at hlook
  split at hlook
  · cases hlook
  · rename_i hbody
    simp [Slot.isSpoilt, hbody] at hslot
  · cases hlook
  · cases hlook

theorem modify (h : c.Unspoilt H) {f : Slot → Slot}
    (hf : ((f (c.slot d)).look H d).isSpoilt = false) : (c.modify d f).Unspoilt H := by
  intro e
  rw [slot_modify]
  split
  · rename_i hde
    exact hde ▸ hf
  · exact h e

theorem look (h : c.Unspoilt H) (d : Digest) : (c.look H d).1.Unspoilt H := by
  rcases c.look_fst d with hlook | hlook
  · rw [hlook]
    exact h
  · rw [hlook]
    refine h.modify ?_
    rw [Slot.look_look]
    exact h d

theorem request (h : c.Unspoilt H) (d : Digest) (refusal : Option FetchFailure) :
    (c.request d refusal).1.Unspoilt H := by
  have hpending : ∀ pending, (((c.slot d).setPending pending).look H d).isSpoilt = false := by
    intro pending
    rw [← h d]
    exact Slot.isSpoilt_look_congr rfl
  unfold Cache.request
  cases c.obstacle? d with
  | some r => exact h.modify (h d)
  | none => cases refusal <;> exact h.modify (hpending _)

theorem complete (h : c.Unspoilt H) (hresult : Brings H d result) :
    (c.complete d result).1.Unspoilt H := by
  rw [complete_fst]
  exact h.modify (Slot.isSpoilt_complete (h d) hresult)

theorem putBytes (h : c.Unspoilt H) {bytes : Bytes} (hbytes : Brings H d (.ok bytes)) :
    (c.putBytes H bytes).1.Unspoilt H := by
  obtain rfl := hbytes.digest
  rw [putBytes_fst]
  refine h.modify ?_
  unfold taken
  dsimp only
  rw [Slot.look_look]
  split
  · exact h _
  · rename_i hfilled
    exact Slot.isSpoilt_hold (by simpa using hfilled) hbytes

end Unspoilt

end Cache

end Reconcile

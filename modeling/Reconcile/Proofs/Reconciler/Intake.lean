import Reconcile.Proofs.Cache.Shown
import Reconcile.Proofs.Reconciler.Change

/-! # Which bodies are taken in

A body that is handed in is taken in as the node of its digest unless it does not decode, or wrong bytes
lie unread under its digest. These go away when it is refused, so the next body with the digest is not
refused for them. -/

namespace Reconcile

variable {H : Hashing} {c : Cache} {d : Digest} {body bytes : Bytes} {bodies rest : List Bytes}

namespace Cache

/-! ## One body -/

/-- Bytes are taken in as the node of their digest: the node is at hand, or they decode and no wrong
bytes lie unread in their way. -/
def Admits (H : Hashing) (c : Cache) (bytes : Bytes) : Prop :=
  (∃ n, c.shown H (H bytes) = some n) ∨
    (∃ n, Node.decode bytes = .ok n) ∧ ¬ (c.slot (H bytes)).Obscured H (H bytes)

theorem node?_taken_ne_none_iff : (∃ n, (c.taken H bytes).node? = some n) ↔ c.Admits H bytes := by
  unfold taken Admits shown
  dsimp only
  cases hfilled : (c.slot (H bytes)).isFilled with
  | true =>
      refine ⟨.inl, ?_⟩
      rintro (hshown | ⟨-, hclear⟩)
      · exact hshown
      · exact Slot.exists_node_of_not_obscured hfilled hclear
  | false =>
      have hclear : ¬ (c.slot (H bytes)).Obscured H (H bytes) :=
        fun h => nomatch h.isFilled.symm.trans hfilled
      have hdecode : Node.decodeAs H (H bytes) bytes = Node.decode bytes := by
        simp [Node.decodeAs]
      simp only [Bool.false_eq_true, if_false, Slot.holdBytes_of_unfilled hfilled, Slot.look, hdecode]
      constructor
      · rintro ⟨n, hn⟩
        refine .inr ⟨?_, hclear⟩
        cases hbytes : Node.decode bytes with
        | ok m => exact ⟨m, rfl⟩
        | error e => simp [hbytes, Slot.fail, Slot.node?] at hn
      · rintro (⟨n, hn⟩ | ⟨⟨n, hn⟩, -⟩)
        · cases (Slot.isFilled_of_node?_look hn).symm.trans hfilled
        · exact ⟨n, by simp [hn, Slot.node?]⟩

theorem putBytes_of_admits (h : c.Admits H bytes) : (c.putBytes H bytes).2 = .ok (H bytes) := by
  obtain ⟨n, hn⟩ := node?_taken_ne_none_iff.mpr h
  unfold putBytes
  unfold taken at hn
  dsimp only at hn ⊢
  rw [hn]

theorem putBytes_of_not_admits (h : ¬ c.Admits H bytes) :
    ∃ e, (c.putBytes H bytes).2 = .error e := by
  have hnone : (c.taken H bytes).node? = none := by
    by_contra hsome
    exact h (node?_taken_ne_none_iff.mp (Option.ne_none_iff_exists'.mp hsome))
  unfold putBytes
  unfold taken at hnone
  dsimp only at hnone ⊢
  rw [hnone]
  cases Node.decode bytes with
  | ok n => exact ⟨_, rfl⟩
  | error e => exact ⟨e, rfl⟩

theorem slot_putBytes_of_ne (h : H bytes ≠ d) : (c.putBytes H bytes).1.slot d = c.slot d := by
  rw [putBytes_fst, slot_modify, if_neg h]

/-- What is put in has been looked at. -/
theorem not_obscured_putBytes :
    ¬ ((c.putBytes H bytes).1.slot (H bytes)).Obscured H (H bytes) := by
  rw [putBytes_fst, slot_modify, if_pos rfl]
  exact Slot.not_obscured_look _

theorem shown_putBytes_self : (∃ n, (c.putBytes H bytes).1.shown H (H bytes) = some n) ↔
    c.Admits H bytes := by
  have htwice : (c.taken H bytes).look H (H bytes) = c.taken H bytes := Slot.look_look H _ _
  rw [← node?_taken_ne_none_iff, shown, putBytes_fst, slot_modify, if_pos rfl, htwice]

/-! ## A row of bodies -/

/-- One of a row of bodies, put in one after another, is taken in as the node of a digest: the node is at
hand, or the body decodes, and no wrong bytes lie unread in its way or a body before it has cleared
them away. -/
def Takes (H : Hashing) (c : Cache) (bodies : List Bytes) (d : Digest) : Prop :=
  ∃ front body back, bodies = front ++ body :: back ∧ H body = d ∧
    ((∃ n, c.shown H d = some n) ∨
      (∃ n, Node.decode body = .ok n) ∧ (¬ (c.slot d).Obscured H d ∨ d ∈ front.map H))

theorem not_takes_nil : ¬ c.Takes H [] d := by
  rintro ⟨front, body, back, hsplit, -⟩
  simp at hsplit

theorem takes_cons_of_ne (h : H body ≠ d) :
    c.Takes H (body :: rest) d ↔ (c.putBytes H body).1.Takes H rest d := by
  have hslot := slot_putBytes_of_ne (c := c) h
  unfold Takes shown
  rw [hslot]
  constructor
  · rintro ⟨front, b, back, hsplit, hb, htaken⟩
    cases front with
    | nil =>
        obtain ⟨rfl, -⟩ := List.cons.inj hsplit
        exact absurd hb h
    | cons b' front =>
        obtain ⟨rfl, rfl⟩ := List.cons.inj hsplit
        refine ⟨front, b, back, rfl, hb, ?_⟩
        rwa [List.map_cons, List.mem_cons, or_iff_right (Ne.symm h)] at htaken
  · rintro ⟨front, b, back, rfl, hb, htaken⟩
    refine ⟨body :: front, b, back, rfl, hb, ?_⟩
    rwa [List.map_cons, List.mem_cons, or_iff_right (Ne.symm h)]

/-- The first body is admitted, or has cleared the way for the others. -/
theorem takes_cons_self : c.Takes H (body :: rest) (H body) ↔
    c.Admits H body ∨ (c.putBytes H body).1.Takes H rest (H body) := by
  constructor
  · rintro ⟨front, b, back, hsplit, hb, htaken⟩
    cases front with
    | nil =>
        obtain ⟨rfl, -⟩ := List.cons.inj hsplit
        refine .inl (htaken.imp_right ?_)
        rintro ⟨hdecodes, hclear | hmem⟩
        · exact ⟨hdecodes, hclear⟩
        · cases hmem
    | cons b' front =>
        obtain ⟨rfl, rfl⟩ := List.cons.inj hsplit
        rcases htaken with hshown | ⟨hdecodes, -⟩
        · exact .inl (.inl hshown)
        · exact .inr ⟨front, b, back, rfl, hb, .inr ⟨hdecodes, .inl not_obscured_putBytes⟩⟩
  · rintro (hadmits | ⟨front, b, back, rfl, hb, hshown | ⟨hdecodes, -⟩⟩)
    · exact ⟨[], body, rest, rfl, rfl, hadmits.imp_right (.imp_right .inl)⟩
    · have hadmits : c.Admits H body := shown_putBytes_self.mp hshown
      exact ⟨[], body, front ++ b :: back, rfl, rfl, hadmits.imp_right (.imp_right .inl)⟩
    · exact ⟨body :: front, b, back, rfl, hb, .inr ⟨hdecodes, .inr List.mem_cons_self⟩⟩

end Cache

namespace Reconciler

variable {r : Reconciler} {ds : List Digest}

theorem baseline_takeBodies (h : r.awaitsBaseline = false) (bodies : List Bytes) (ds : List Digest) :
    (takeBodies H bodies ds r).1.baseline = r.baseline := by
  induction bodies generalizing ds r with
  | nil => rfl
  | cons body rest ih =>
      simp only [takeBodies]
      split
      · rename_i cache e hput
        exact ih (r := { r with cache }) h ds
      · rename_i cache d hput
        rw [if_neg (by simp [h])]
        exact ih (r := { r with cache }) h (ds ++ [d])

/-- The bodies that are taken in bring their digests, but for one that is adopted as baseline. -/
theorem mem_takeBodies (h : some d ≠ (takeBodies H bodies ds r).1.baseline) :
    d ∈ (takeBodies H bodies ds r).2 ↔ d ∈ ds ∨ r.cache.Takes H bodies d := by
  induction bodies generalizing ds r with
  | nil => simp [takeBodies, Cache.not_takes_nil]
  | cons body rest ih =>
      by_cases hadmits : r.cache.Admits H body
      · have hput : r.cache.putBytes H body = ((r.cache.putBytes H body).1, .ok (H body)) :=
          Prod.ext rfl (Cache.putBytes_of_admits hadmits)
        cases hawaits : r.awaitsBaseline with
        | true =>
            have htake : takeBodies H (body :: rest) ds r = takeBodies H rest ds
                { r with
                  cache := (r.cache.putBytes H body).1
                  awaitsBaseline := false
                  baseline := some (H body) } := by
              rw [takeBodies, hput]
              simp [hawaits]
            rw [htake] at h ⊢
            have hne : H body ≠ d := by
              rintro rfl
              exact h (baseline_takeBodies (r := { r with
                cache := (r.cache.putBytes H body).1
                awaitsBaseline := false
                baseline := some (H body) }) rfl rest ds).symm
            rw [ih h, Cache.takes_cons_of_ne hne]
        | false =>
            have htake : takeBodies H (body :: rest) ds r =
                takeBodies H rest (ds ++ [H body])
                  { r with cache := (r.cache.putBytes H body).1 } := by
              rw [takeBodies, hput]
              simp [hawaits]
            rw [htake] at h ⊢
            rw [ih h, List.mem_append, List.mem_singleton, or_assoc]
            refine or_congr_right ?_
            by_cases hbody : H body = d
            · subst hbody
              rw [Cache.takes_cons_self]
              simp [hadmits]
            · rw [Cache.takes_cons_of_ne hbody, or_iff_right (Ne.symm hbody)]
      · obtain ⟨e, he⟩ := Cache.putBytes_of_not_admits hadmits
        have hput : r.cache.putBytes H body = ((r.cache.putBytes H body).1, .error e) :=
          Prod.ext rfl he
        have htake : takeBodies H (body :: rest) ds r =
            takeBodies H rest ds { r with cache := (r.cache.putBytes H body).1 } := by
          rw [takeBodies, hput]
        rw [htake] at h ⊢
        rw [ih h]
        refine or_congr_right ?_
        by_cases hbody : H body = d
        · subst hbody
          rw [Cache.takes_cons_self, or_iff_right hadmits]
        · rw [Cache.takes_cons_of_ne hbody]

end Reconciler

end Reconcile

import Reconcile.Proofs.Cache.Genuine

/-! # How nodes come in

Some nodes never come: each fetch of them fails or brings other bytes. They are asked for until they
are given up. Every other node comes when it is asked for, so it is asked for once. -/

namespace Reconcile

variable {H : Hashing} {lost lost' failed : Digest → Prop} {limit count : Nat} {d e : Digest}
  {s : Slot} {result : Except FetchFailure Bytes}

/-- The result of a fetch is the node of the digest. -/
def Brings (H : Hashing) (d : Digest) (result : Except FetchFailure Bytes) : Prop :=
  ∃ bytes n, result = .ok bytes ∧ Node.decodeAs H d bytes = .ok n

/-! ## Slots -/

namespace Slot

theorem body_look_ne_bytes (s : Slot) (bytes : Bytes) : (s.look H d).body ≠ .bytes bytes := by
  cases hbody : s.body with
  | bytes b => cases hdecode : Node.decodeAs H d b <;> simp [look, hbody, hdecode, fail]
  | empty => simp [look, hbody]
  | node n => simp [look, hbody]
  | spoilt => simp [look, hbody]

theorem look_of_isFilled_eq_false (h : s.isFilled = false) : s.look H d = s := by
  cases hbody : s.body with
  | bytes b => simp [isFilled, hbody] at h
  | node n => simp [isFilled, hbody] at h
  | empty => simp [look, hbody]
  | spoilt => simp [look, hbody]

theorem failures_le_look (s : Slot) : s.failures ≤ (s.look H d).failures := by
  cases hbody : s.body with
  | bytes bytes => cases hdecode : Node.decodeAs H d bytes <;> simp [look, hbody, hdecode, fail]
  | empty => simp [look, hbody]
  | node n => simp [look, hbody]
  | spoilt => simp [look, hbody]

/-- The slot after a fetch has ended. -/
def complete (s : Slot) (result : Except FetchFailure Bytes) : Slot :=
  let s := s.setPending false
  if s.isFilled then s
  else match result with
    | .ok bytes => s.holdBytes bytes
    | .error e => s.fail e.message

theorem pending_complete (s : Slot) (result : Except FetchFailure Bytes) :
    (s.complete result).pending = false := by
  unfold complete
  dsimp only
  split
  · rfl
  · cases result with
    | error e => rfl
    | ok bytes => cases hbody : s.body <;> simp [holdBytes, setPending, hbody]

theorem complete_of_isFilled (h : s.isFilled = true) (hpending : s.pending = false) :
    s.complete result = s := by
  have hsame : s.setPending false = s := by
    obtain ⟨body, known, pending, failures, lastFailure⟩ := s
    obtain rfl : pending = false := hpending
    rfl
  simp [complete, hsame, h]

theorem complete_ok (h : s.isFilled = false) (bytes : Bytes) :
    s.complete (.ok bytes) = { s with body := .bytes bytes, pending := false } := by
  cases hbody : s.body with
  | empty => simp [complete, setPending, isFilled, holdBytes, hbody]
  | spoilt => simp [complete, setPending, isFilled, holdBytes, hbody]
  | bytes b => simp [isFilled, hbody] at h
  | node n => simp [isFilled, hbody] at h

theorem complete_error (h : s.isFilled = false) (e : FetchFailure) :
    s.complete (.error e) =
      { s with
        body := .spoilt
        pending := false
        failures := s.failures + 1
        lastFailure := some e.message } := by
  cases hbody : s.body with
  | empty => simp [complete, setPending, isFilled, fail, hbody]
  | spoilt => simp [complete, setPending, isFilled, fail, hbody]
  | bytes b => simp [isFilled, hbody] at h
  | node n => simp [isFilled, hbody] at h

/-- What a look into the slot of a node shows. A node that is `lost` is never there; any other that
`failed` before is there; no fetch of a third one fails. -/
structure Shows (lost failed : Digest → Prop) (limit : Nat) (d : Digest) (s : Slot) : Prop where
  capped : s.failures ≤ limit
  never : lost d → s.node? = none
  kept : ¬ lost d → s.isSpoilt = false
  handed : failed d → ¬ lost d → s.node?.isSome
  spotless : ¬ failed d → s.failures = 0

/-- The slot of a node that was asked for `count` times. -/
structure Tracked (H : Hashing) (lost failed : Digest → Prop) (limit : Nat) (d : Digest) (count : Nat)
    (s : Slot) : Prop where
  shows : (s.look H d).Shows lost failed limit d
  fresh : s.body = .empty → s.failures = 0
  pending : s.pending = true → s.isFilled = false ∧ s.failures < limit ∧ 0 < count
  counted : count ≤ s.failures + if s.pending || s.isFilled then 1 else 0
  unasked : lost d → count = 0 → s.isFilled = false

namespace Tracked

theorem empty (hhanded : failed d → lost d) : Tracked H lost failed limit d 0 {} where
  shows := ⟨Nat.zero_le _, fun _ => rfl, fun _ => rfl,
    fun hfailed hkept => absurd (hhanded hfailed) hkept, fun _ => rfl⟩
  fresh _ := rfl
  pending h := nomatch h
  counted := Nat.zero_le _
  unasked _ _ := rfl

/-- Only whether the node itself is lost matters. -/
theorem congr (h : s.Tracked H lost failed limit d count) (hlost : lost' d ↔ lost d) :
    s.Tracked H lost' failed limit d count := by
  obtain ⟨⟨capped, never, kept, handed, spotless⟩, fresh, pending, counted, unasked⟩ := h
  rw [← hlost] at never kept handed unasked
  exact ⟨⟨capped, never, kept, handed, spotless⟩, fresh, pending, counted, unasked⟩

/-- Tracking does not depend on what is known in full. -/
theorem known (h : s.Tracked H lost failed limit d count) (known : Bool) :
    Tracked H lost failed limit d count { s with known } := by
  have hlook : Slot.look H d { s with known } = { s.look H d with known } := by
    cases hbody : s.body with
    | bytes b => cases hdecode : Node.decodeAs H d b <;> simp [Slot.look, hbody, hdecode, fail]
    | empty => simp [Slot.look, hbody]
    | node n => simp [Slot.look, hbody]
    | spoilt => simp [Slot.look, hbody]
  refine ⟨?_, h.fresh, h.pending, h.counted, h.unasked⟩
  obtain ⟨capped, never, kept, handed, spotless⟩ := h.shows
  rw [hlook]
  exact ⟨capped, never, kept, handed, spotless⟩

theorem pending_of_isFilled (h : s.Tracked H lost failed limit d count)
    (hfilled : s.isFilled = true) : s.pending = false := by
  cases hpending : s.pending with
  | false => rfl
  | true => exact nomatch (h.pending hpending).1.symm.trans hfilled

/-- A look leaves it open whether a fetch is under way. -/
theorem pending_look (h : s.Tracked H lost failed limit d count) :
    (s.look H d).pending = s.pending := by
  cases hfilled : s.isFilled with
  | false => rw [look_of_isFilled_eq_false hfilled]
  | true =>
      have hpending := h.pending_of_isFilled hfilled
      cases hbody : s.body with
      | empty => simp [Slot.look, hbody]
      | spoilt => simp [Slot.look, hbody]
      | node n => simp [Slot.look, hbody]
      | bytes bytes =>
          cases hdecode : Node.decodeAs H d bytes <;>
            simp [Slot.look, hbody, hdecode, fail, hpending]

theorem look (h : s.Tracked H lost failed limit d count) :
    (s.look H d).Tracked H lost failed limit d count := by
  cases hfilled : s.isFilled with
  | false => rwa [look_of_isFilled_eq_false hfilled]
  | true =>
      have hpending := h.pending_of_isFilled hfilled
      have hcounted := h.counted
      simp only [hfilled, Bool.or_true, if_true] at hcounted
      have hunasked : ¬ (lost d ∧ count = 0) := by
        rintro ⟨hlost, hcount⟩
        exact nomatch (h.unasked hlost hcount).symm.trans hfilled
      refine ⟨?_, ?_, ?_, ?_, fun hlost hcount => absurd ⟨hlost, hcount⟩ hunasked⟩
      · rw [look_look]
        exact h.shows
      all_goals
        cases hbody : s.body with
        | empty => simp [isFilled, hbody] at hfilled
        | spoilt => simp [isFilled, hbody] at hfilled
        | node n => simp [Slot.look, hbody, isFilled, hpending, hcounted]
        | bytes bytes =>
            cases hdecode : Node.decodeAs H d bytes <;>
              simp [Slot.look, hbody, hdecode, fail, isFilled, hpending, hcounted]

/-- A node is asked for that is not there, is not under way and was not given up. -/
theorem ask (h : s.Tracked H lost failed limit d count) (hlimit : 0 < limit)
    (hfilled : s.isFilled = false) (hpending : s.pending = false)
    (hhope : (s.isSpoilt && limit ≤ s.failures) = false) :
    (s.setPending true).Tracked H lost failed limit d (count + 1) := by
  have hfailures : s.failures < limit := by
    cases hbody : s.body with
    | empty => exact h.fresh hbody ▸ hlimit
    | spoilt => simpa [isSpoilt, hbody] using hhope
    | bytes bytes => simp [isFilled, hbody] at hfilled
    | node n => simp [isFilled, hbody] at hfilled
  have hshows := h.shows
  have hcounted := h.counted
  rw [look_of_isFilled_eq_false hfilled] at hshows
  simp only [hpending, hfilled, Bool.or_self, Bool.false_eq_true, if_false] at hcounted
  refine ⟨?_, h.fresh, fun _ => ⟨hfilled, hfailures, Nat.succ_pos count⟩, ?_, fun _ _ => hfilled⟩
  · rw [look_of_isFilled_eq_false (s := s.setPending true) hfilled]
    exact ⟨hshows.capped, hshows.never, hshows.kept, hshows.handed, hshows.spotless⟩
  · simpa [setPending] using hcounted

/-- A fetch of a node that never comes ends. -/
theorem complete_lost (h : s.Tracked H lost failed limit d count) (hlost : lost d) (hfailed : failed d)
    (hpending : s.pending = true) (hresult : ¬ Brings H d result) :
    (s.complete result).Tracked H lost failed limit d count := by
  obtain ⟨hfilled, hfailures, hcount⟩ := h.pending hpending
  have hcounted := h.counted
  simp only [hpending, Bool.true_or, if_true] at hcounted
  have hunasked : lost d → count = 0 → (s.complete result).isFilled = false :=
    fun _ hzero => absurd hzero (Nat.ne_of_gt hcount)
  have hshows : ∀ t : Slot, t.body = .spoilt → t.failures = s.failures + 1 →
      t.Shows lost failed limit d := by
    intro t hbody hfailures'
    exact ⟨by omega, fun _ => by simp [node?, hbody], absurd hlost, fun _ => absurd hlost,
      absurd hfailed⟩
  cases result with
  | error e =>
      rw [complete_error hfilled] at hunasked ⊢
      refine ⟨?_, ?_, ?_, ?_, hunasked⟩
      · exact hshows _ rfl rfl
      · simp
      · simp
      · simpa [isFilled] using hcounted
  | ok bytes =>
      obtain ⟨e, hdecode⟩ : ∃ e, Node.decodeAs H d bytes = .error e := by
        cases hdecode : Node.decodeAs H d bytes with
        | error e => exact ⟨e, rfl⟩
        | ok n => exact absurd ⟨bytes, n, rfl, hdecode⟩ hresult
      rw [complete_ok hfilled] at hunasked ⊢
      refine ⟨?_, ?_, ?_, ?_, hunasked⟩
      · exact hshows _ (by simp [Slot.look, hdecode, fail]) (by simp [Slot.look, hdecode, fail])
      · simp
      · simp
      · simpa [isFilled] using hcounted

/-- A node comes that is not lost, or not any more. -/
theorem complete_kept (h : s.Tracked H lost failed limit d count) (hkept : ¬ lost' d)
    (hempty : lost d → s.isFilled = false) (hresult : Brings H d result) :
    (s.complete result).Tracked H lost' failed limit d count := by
  obtain ⟨bytes, n, rfl, hdecode⟩ := hresult
  have hunasked : lost' d → count = 0 → (s.complete (.ok bytes)).isFilled = false :=
    fun hlost => absurd hlost hkept
  have hshows := h.shows
  have hcounted := h.counted
  cases hfilled : s.isFilled with
  | true =>
      have hkept' : ¬ lost d := fun hlost => nomatch (hempty hlost).symm.trans hfilled
      have hpending := h.pending_of_isFilled hfilled
      rw [complete_of_isFilled hfilled hpending] at hunasked ⊢
      refine ⟨?_, h.fresh, h.pending, hcounted, hunasked⟩
      exact ⟨hshows.capped, fun hlost => absurd hlost hkept, fun _ => hshows.kept hkept',
        fun hfailed _ => hshows.handed hfailed hkept', hshows.spotless⟩
  | false =>
      rw [look_of_isFilled_eq_false hfilled] at hshows
      rw [complete_ok hfilled] at hunasked ⊢
      refine ⟨?_, ?_, ?_, ?_, hunasked⟩
      · have hlook : Slot.look H d { s with body := .bytes bytes, pending := false } =
            { s with body := .node n, pending := false } := by
          simp [Slot.look, hdecode]
        rw [hlook]
        exact ⟨hshows.capped, fun hlost => absurd hlost hkept, fun _ => rfl, fun _ _ => rfl,
          hshows.spotless⟩
      · simp
      · simp
      · cases hpending : s.pending <;> simp [hpending, hfilled] at hcounted <;>
          simp [isFilled] <;> omega

/-- A node is asked for once, and once more after each failure. -/
theorem count_le (h : s.Tracked H lost failed limit d count) : count ≤ (s.look H d).failures + 1 := by
  have hfailures := s.failures_le_look (H := H) (d := d)
  have hcounted := h.counted
  split at hcounted <;> omega

end Tracked

end Slot

/-! ## The cache -/

namespace Cache

variable {c : Cache}

/-- A look shows that a node is not there but may still come. -/
def Wants (H : Hashing) (c : Cache) (d : Digest) : Prop :=
  (c.look H d).2 = .missing ∨ (c.look H d).2 = .spoilt false

/-- A node is not there and will not be asked for again. -/
def GivenUp (c : Cache) (d : Digest) : Prop :=
  (c.slot d).isSpoilt = true ∧ c.limit ≤ (c.slot d).failures

theorem slot_look (c : Cache) (d e : Digest) :
    (c.look H d).1.slot e = if d = e then (c.slot e).look H e else c.slot e := by
  have hempty : Slot.look H d {} = {} := rfl
  unfold look slot
  cases hget : c.slots.get? d with
  | none =>
      by_cases hde : d = e
      · obtain rfl := hde
        simp [hget, hempty]
      · simp [hde]
  | some s =>
      by_cases hde : d = e
      · obtain rfl := hde
        simp [hget]
      · simp [hde]

theorem limit_look (c : Cache) (d : Digest) : (c.look H d).1.limit = c.limit := by
  rcases c.look_fst d with h | h <;> rw [h]
  rfl

theorem obstacle?_eq_none (h : c.obstacle? d = none) :
    (c.slot d).isFilled = false ∧ (c.slot d).pending = false ∧
      ((c.slot d).isSpoilt && c.limit ≤ (c.slot d).failures) = false := by
  unfold obstacle? at h
  dsimp only at h
  split at h
  · cases h
  · split at h
    · cases h
    · split at h
      · cases h
      · rename_i hfilled hpending hhope
        simpa using And.intro hfilled (And.intro hpending hhope)

theorem obstacle?_ne_sent : c.obstacle? d ≠ some .sent := by
  unfold obstacle?
  dsimp only
  split_ifs <;> simp

theorem pending_of_obstacle? (h : c.obstacle? d = some .underWay) : c.pending d = true := by
  unfold obstacle? at h
  dsimp only at h
  split_ifs at h with hfilled hpending hhope
  · cases h
  · exact hpending
  · cases h

theorem complete_fst (c : Cache) (d : Digest) (result : Except FetchFailure Bytes) :
    (c.complete d result).1 = c.modify d (Slot.complete · result) := by
  unfold complete Slot.complete
  dsimp only
  split
  · simp [*, modify]
  · cases result <;> simp [*, modify]

theorem slot_complete (c : Cache) (d e : Digest) (result : Except FetchFailure Bytes) :
    (c.complete d result).1.slot e = if d = e then (c.slot d).complete result else c.slot e := by
  rw [complete_fst, slot_modify]

theorem pending_complete_self (c : Cache) (d : Digest) (result : Except FetchFailure Bytes) :
    (c.complete d result).1.pending d = false := by
  rw [pending, slot_complete, if_pos rfl]
  exact Slot.pending_complete _ _

theorem pending_complete_of_ne (c : Cache) (result : Except FetchFailure Bytes) (h : d ≠ e) :
    (c.complete d result).1.pending e = c.pending e := by
  rw [pending, slot_complete, if_neg h, pending]

/-- Nothing stands in the way of asking for a node that may still come, but that it was asked for
already. -/
theorem Wants.obstacle? (h : c.Wants H d) :
    (c.look H d).1.obstacle? d = none ∨ (c.look H d).1.obstacle? d = some .underWay := by
  rw [Wants, look_snd] at h
  have hbytes := (c.slot d).body_look_ne_bytes (H := H) (d := d)
  unfold Cache.obstacle?
  simp only [slot_look, if_true, limit_look]
  cases hbody : ((c.slot d).look H d).body with
  | bytes bytes => exact absurd hbody (hbytes bytes)
  | node n => simp [view, hbody] at h
  | empty =>
      simp only [Slot.isFilled, Slot.isSpoilt, hbody]
      cases ((c.slot d).look H d).pending <;> simp
  | spoilt =>
      have hfailures : ¬ c.limit ≤ ((c.slot d).look H d).failures := by simpa [view, hbody] using h
      simp only [Slot.isFilled, Slot.isSpoilt, hbody, hfailures]
      cases ((c.slot d).look H d).pending <;> simp

theorem givenUp_of_look (h : (c.look H d).2 = .spoilt true) : (c.look H d).1.GivenUp d := by
  rw [look_snd] at h
  rw [GivenUp, slot_look, if_pos rfl, limit_look]
  unfold view at h
  split at h
  · cases h
  · rename_i hbody
    exact ⟨by simp [Slot.isSpoilt, hbody], by simpa using h⟩
  · cases h
  · cases h

theorem GivenUp.unfilled (h : c.GivenUp d) : (c.slot d).isFilled = false := by
  have hspoilt := h.1
  cases hbody : (c.slot d).body <;> simp [Slot.isSpoilt, hbody] at hspoilt
  simp [Slot.isFilled, hbody]

theorem GivenUp.look (h : c.GivenUp d) (e : Digest) : (c.look H e).1.GivenUp d := by
  rw [GivenUp, slot_look, limit_look]
  split
  · rw [Slot.look_of_isFilled_eq_false h.unfilled]
    exact h
  · exact h

end Cache

end Reconcile

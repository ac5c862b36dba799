import Reconcile.Proofs.Cache.Budget
import Reconcile.Proofs.Cache.Obscured

/-! # Fetches that overlap

That a fetch is under way is noted in the slot of its node, and whatever comes in for the node wipes
the note out, whoever brought it. So wrong content that somebody else brings has the node fetched a
second time before the first fetch is back; nothing else does. -/

namespace Reconcile

variable {H : Hashing} {c : Cache} {d : Digest} {s s' : Slot} {deed : Deed} {deeds : List Deed}

/-- Content is brought for a node that is not the node. -/
def Deed.Misleads (H : Hashing) (d : Digest) : Deed → Prop
  | complete e result => e = d ∧ ¬ Brings H d result
  | putBytes bytes => H bytes = d ∧ ¬ Brings H d (.ok bytes)
  | look _ | request _ _ | putNode _ | markKnown _ => False

/-! ## Failures -/

namespace Slot

theorem failures_look (h : ¬ s.Obscured H d) : (s.look H d).failures = s.failures := by
  cases hbody : s.body with
  | bytes bytes =>
      cases hdecode : Node.decodeAs H d bytes with
      | ok n => simp [look, hbody, hdecode]
      | error e => exact absurd ⟨bytes, hbody, by simp [hdecode]⟩ h
  | empty => simp [look, hbody]
  | node n => simp [look, hbody]
  | spoilt => simp [look, hbody]

theorem failures_complete {result : Except FetchFailure Bytes} (h : Brings H d result) (s : Slot) :
    (s.complete result).failures = s.failures := by
  obtain ⟨bytes, n, rfl, -⟩ := h
  cases hfilled : s.isFilled with
  | true => simp [complete_of_filled hfilled, setPending]
  | false => simp [complete_ok hfilled]

/-- A slot in which a fetch stays noted has not failed. -/
theorem Turns.failures_of_pending (h : s.Turns H d s') (hs : s.Consistent)
    (hpending : s.pending = true) (hpending' : s'.pending = true) : s'.failures = s.failures := by
  cases h with
  | same => rfl
  | looked => rw [look_of_isFilled_eq_false (hs hpending)]
  | asked unfilled pending => rfl
  | completed result => cases (pending_complete s result).symm.trans hpending'
  | took unfilled digest => cases (pending_took unfilled _).symm.trans hpending'
  | held absent digest => cases hpending'
  | marked => rfl

end Slot

namespace Cache

theorem failures_modify {f : Slot → Slot} {e : Digest}
    (hf : e = d → (f (c.slot e)).failures = (c.slot e).failures) :
    ((c.modify e f).slot d).failures = (c.slot d).failures := by
  rw [slot_modify]
  split
  · rename_i hed
    rw [hf hed, hed]
  · rfl

/-- A failure is counted over wrong content only, as it comes in or as it is read. -/
theorem failures_on (hclear : ¬ (c.slot d).Obscured H d) (hright : ¬ deed.Misleads H d) :
    ((c.on H deed).slot d).failures = (c.slot d).failures := by
  cases deed with
  | look e =>
      rw [on, slot_look]
      split
      · rename_i hed
        exact Slot.failures_look hclear
      · rfl
  | request e refusal =>
      rw [on, slot_request]
      split <;> rfl
  | complete e result =>
      rw [on, complete_fst]
      apply failures_modify
      rintro rfl
      apply Slot.failures_complete (H := H) (d := e)
      simpa [Deed.Misleads] using hright
  | putBytes bytes =>
      rw [on, putBytes_fst]
      apply failures_modify
      rintro rfl
      obtain ⟨b, n, hb, hdecode⟩ : Brings H (H bytes) (.ok bytes) := by
        simpa [Deed.Misleads] using hright
      cases hb
      unfold taken
      dsimp only
      split
      · exact Slot.failures_look hclear
      · rename_i hfilled
        rw [Slot.holdBytes_of_unfilled (by simpa using hfilled)]
        simp [Slot.look, hdecode]
  | putNode n =>
      unfold on putNode
      dsimp only
      apply failures_modify
      rintro rfl
      split
      · exact Slot.failures_look hclear
      · exact Slot.failures_look hclear
  | markKnown e => exact failures_modify (fun _ => rfl)

theorem not_obscured_on (hclear : ¬ (c.slot d).Obscured H d) (hright : ¬ deed.Misleads H d) :
    ¬ ((c.on H deed).slot d).Obscured H d := by
  rw [obscured_on_iff]
  rintro (⟨hobscured, -⟩ | ⟨wrong, rfl, -, hwrong⟩)
  · exact hclear hobscured
  · apply hright
    refine ⟨rfl, ?_⟩
    rintro ⟨b, n, hb, hdecode⟩
    cases hb
    exact hwrong n hdecode

theorem exists_misleads_of_failures_lt (hclear : ¬ (c.slot d).Obscured H d)
    (h : (c.slot d).failures < ((c.after H deeds).slot d).failures) :
    ∃ deed ∈ deeds, deed.Misleads H d := by
  by_contra hnone
  push Not at hnone
  apply Nat.ne_of_gt h
  clear h
  induction deeds generalizing c with
  | nil => rfl
  | cons deed deeds ih =>
      have hright := hnone deed (by simp)
      rw [after_cons, ih (not_obscured_on hclear hright) (fun e he => hnone e (by simp [he])),
        failures_on hclear hright]

theorem failures_after_of_pending (hc : c.Consistent) (hnone : d ∉ c.sent H deeds)
    (h : (c.after H deeds).pending d = true) :
    ((c.after H deeds).slot d).failures = (c.slot d).failures := by
  induction deeds generalizing c with
  | nil => rfl
  | cons deed deeds ih =>
      simp only [sent, List.mem_append, not_or] at hnone
      have hlater : (c.on H deed).pending d = true :=
        (pending_of_after (c := c.on H deed) h).resolve_right hnone.2
      have hnow : c.pending d = true := (pending_of_on hlater).resolve_right hnone.1
      rw [after_cons, ih (c := c.on H deed) (hc.after [deed]) hnone.2 h]
      exact (turns_on c deed d).failures_of_pending (hc d) hnow hlater

end Cache

/-! ## Traffic -/

/-- A cache, and the fetches that were agreed to and have not ended. -/
structure Fetching where
  cache : Cache
  flying : List Digest := []

/-- Something that happens to a cache and to the fetches for it. -/
inductive Traffic
  /-- Something is done with the cache, and no fetch ends. -/
  | deed (deed : Deed)
  /-- A fetch of the node ends, if there is one. -/
  | landing (d : Digest) (result : Except FetchFailure Bytes)

namespace Fetching

variable {f : Fetching} {t : Traffic} {ts before since : List Traffic}

def on (H : Hashing) (f : Fetching) : Traffic → Fetching
  | .deed deed => { cache := f.cache.on H deed, flying := f.flying ++ f.cache.sends deed }
  | .landing d result =>
    if d ∈ f.flying then
      { cache := (f.cache.complete d result).1, flying := f.flying.erase d }
    else f

/-- What has become of it after a row of traffic. -/
def after (H : Hashing) (f : Fetching) (ts : List Traffic) : Fetching := ts.foldl (on H) f

@[simp] theorem after_nil (f : Fetching) : f.after H [] = f := rfl

@[simp] theorem after_cons (f : Fetching) (t : Traffic) (ts : List Traffic) :
    f.after H (t :: ts) = (f.on H t).after H ts := rfl

theorem after_append (f : Fetching) (ts ts' : List Traffic) :
    f.after H (ts ++ ts') = (f.after H ts).after H ts' := List.foldl_append

theorem after_concat (f : Fetching) (ts : List Traffic) (t : Traffic) :
    f.after H (ts ++ [t]) = (f.after H ts).on H t := f.after_append ts [t]

/-- What the cache gets to do with traffic. -/
def deedsOf (f : Fetching) : Traffic → List Deed
  | .deed deed => [deed]
  | .landing d result => if d ∈ f.flying then [.complete d result] else []

theorem cache_on (f : Fetching) (t : Traffic) :
    (f.on H t).cache = f.cache.after H (f.deedsOf t) := by
  cases t with
  | deed deed => rfl
  | landing d result => by_cases h : d ∈ f.flying <;> simp [on, deedsOf, h, Cache.on]

theorem count_landing (f : Fetching) (e : Digest) (result : Except FetchFailure Bytes)
    (d : Digest) :
    (f.on H (.landing e result)).flying.count d = f.flying.count d - if e = d then 1 else 0 := by
  by_cases hmem : e ∈ f.flying
  · simp [on, hmem, List.count_erase]
  · by_cases hed : e = d
    · subst hed
      simp [on, hmem, List.count_eq_zero.mpr hmem]
    · simp [on, hmem, hed]

theorem count_on (f : Fetching) (h : ∀ result, t ≠ .landing d result) :
    (f.on H t).flying.count d = f.flying.count d + (f.cache.sent H (f.deedsOf t)).count d := by
  cases t with
  | deed deed => simp [on, deedsOf, Cache.sent]
  | landing e result =>
      have hed : e ≠ d := fun hed => h result (hed ▸ rfl)
      have hsent : f.cache.sent H (f.deedsOf (.landing e result)) = [] := by
        by_cases hin : e ∈ f.flying <;> simp [deedsOf, hin, Cache.sent, Cache.sends]
      simp [count_landing, hed, hsent]

/-- A deed that the cache gets to do is done with it, or a fetch that ends. -/
theorem mem_deedsOf (h : deed ∈ f.deedsOf t) :
    t = .deed deed ∨ ∃ d result, deed = .complete d result ∧ t = .landing d result := by
  cases t with
  | deed deed' => exact .inl (by simp_all [deedsOf])
  | landing d result =>
      by_cases hin : d ∈ f.flying
      · exact .inr ⟨d, result, by simp_all [deedsOf]⟩
      · simp [deedsOf, hin] at h

/-- Traffic is a row of deeds for the cache. While no fetch of a node ends, its fetches add up. -/
theorem exists_deeds (f : Fetching) (ts : List Traffic) :
    ∃ deeds, (f.after H ts).cache = f.cache.after H deeds ∧
      (∀ deed ∈ deeds, .deed deed ∈ ts ∨
        ∃ d result, deed = .complete d result ∧ .landing d result ∈ ts) ∧
      ∀ d, (∀ result, .landing d result ∉ ts) →
        (f.after H ts).flying.count d = f.flying.count d + (f.cache.sent H deeds).count d := by
  induction ts using List.reverseRecOn with
  | nil => exact ⟨[], rfl, by simp, by simp [Cache.sent]⟩
  | append_singleton ts t ih =>
      obtain ⟨deeds, hcache, hmem, hcount⟩ := ih
      refine ⟨deeds ++ (f.after H ts).deedsOf t, ?_, ?_, ?_⟩
      · rw [after_concat, cache_on, Cache.after_append, hcache]
      · intro deed hdeed
        rcases List.mem_append.mp hdeed with hdeed | hdeed
        · rcases hmem deed hdeed with hin | ⟨d, result, hdeed, hin⟩
          · exact .inl (List.mem_append_left _ hin)
          · exact .inr ⟨d, result, hdeed, List.mem_append_left _ hin⟩
        · rcases mem_deedsOf hdeed with rfl | ⟨d, result, rfl, rfl⟩
          · exact .inl (by simp)
          · exact .inr ⟨d, result, rfl, by simp⟩
      · intro d hnone
        have hlast : ∀ result, t ≠ .landing d result := by
          rintro result rfl
          exact hnone result (by simp)
        have hcount := hcount d (fun result hin => hnone result (List.mem_append_left _ hin))
        rw [after_concat, count_on _ hlast, hcount, Cache.sent_append, List.count_append, hcache,
          Nat.add_assoc]

/-! ## Fetches of one node -/

/-- The node is asked for. -/
def ask (d : Digest) : Traffic := .deed (.request d none)

/-- A fetch of the node was agreed to, and no fetch of it has ended since. -/
structure Aloft (H : Hashing) (f : Fetching) (before since : List Traffic) (d : Digest) : Prop where
  agreed : (f.after H before).cache.obstacle? d = none
  out : ∀ result, .landing d result ∉ since

/-- A fetch of the node is aloft and wrong content was brought meanwhile, by somebody else. It was
found out, nothing has taken its place, and the node is not given up. -/
structure Misled (H : Hashing) (f : Fetching) (before since : List Traffic) (d : Digest) : Prop
    extends Aloft H f before since d where
  wrong : ∃ deed, .deed deed ∈ since ∧ deed.Misleads H d
  found : ((f.after H before).cache.slot d).failures <
    ((f.after H (before ++ ask d :: since)).cache.slot d).failures
  hope : ((f.after H (before ++ ask d :: since)).cache.slot d).failures < f.cache.limit
  unfilled : ((f.after H (before ++ ask d :: since)).cache.slot d).isFilled = false

/-- A node is asked for with success while a fetch of it is aloft. -/
def Overlap (H : Hashing) (f : Fetching) (ts : List Traffic) (d : Digest) : Prop :=
  ∃ before since, before ++ ask d :: since ++ [ask d] <+: ts ∧ Aloft H f before since d ∧
    (f.after H (before ++ ask d :: since)).cache.obstacle? d = none

theorem Overlap.mono {ts' : List Traffic} (h : Overlap H f ts d) (hrow : ts <+: ts') :
    Overlap H f ts' d := by
  obtain ⟨before, since, hts, haloft, hagain⟩ := h
  exact ⟨before, since, hts.trans hrow, haloft, hagain⟩

theorem count_ask (h : f.cache.obstacle? d = none) :
    (f.on H (ask d)).flying.count d = f.flying.count d + 1 := by
  have hsends : d ∈ f.cache.sends (.request d none) := Cache.mem_sends_iff.mpr ⟨rfl, h⟩
  rw [count_on f (by simp [ask])]
  simp [deedsOf, ask, Cache.sent, Cache.count_sends, hsends]

/-- Other traffic sends no fetch of a node out. -/
theorem count_on_le (h : ¬ (t = ask d ∧ f.cache.obstacle? d = none)) :
    (f.on H t).flying.count d ≤ f.flying.count d := by
  cases t with
  | deed deed =>
      have hsends : d ∉ f.cache.sends deed := by
        rw [Cache.mem_sends_iff]
        rintro ⟨rfl, hobstacle⟩
        exact h ⟨rfl, hobstacle⟩
      rw [count_on f (by simp)]
      simp [deedsOf, Cache.sent, Cache.count_sends, hsends]
  | landing e result =>
      rw [count_landing]
      omega

/-- Unless two fetches of a node have overlapped, there is none, or one that is aloft. -/
theorem overlap_or (hf : f.flying = []) (ts : List Traffic) :
    Overlap H f ts d ∨ (f.after H ts).flying.count d = 0 ∨
      (f.after H ts).flying.count d = 1 ∧ ∃ before since, ts = before ++ ask d :: since ∧
        Aloft H f before since d := by
  induction ts using List.reverseRecOn with
  | nil => exact .inr (.inl (by simp [hf]))
  | append_singleton ts t ih =>
      rw [after_concat]
      rcases ih with hoverlap | hzero | ⟨hone, before, since, rfl, haloft⟩
      · exact .inl (hoverlap.mono (List.prefix_append ts [t]))
      · refine .inr ?_
        by_cases ht : t = ask d ∧ (f.after H ts).cache.obstacle? d = none
        · obtain ⟨rfl, hagreed⟩ := ht
          refine .inr ⟨by rw [count_ask hagreed, hzero], ts, [], rfl, hagreed, ?_⟩
          simp
        · have hle := count_on_le (H := H) ht
          omega
      · by_cases ht : t = ask d ∧ (f.after H (before ++ ask d :: since)).cache.obstacle? d = none
        · obtain ⟨rfl, hagain⟩ := ht
          exact .inl ⟨before, since, List.prefix_rfl, haloft, hagain⟩
        · refine .inr ?_
          by_cases hland : ∃ result, t = .landing d result
          · obtain ⟨result, rfl⟩ := hland
            exact .inl (by rw [count_landing, hone]; simp)
          · have hle := count_on_le (H := H) ht
            push Not at hland
            have hcount := count_on (H := H) (f.after H (before ++ ask d :: since)) hland
            refine .inr ⟨by omega, before, since ++ [t], by simp, haloft.agreed, ?_⟩
            intro result hin
            rcases List.mem_append.mp hin with hin | hin
            · exact haloft.out result hin
            · exact hland result (List.mem_singleton.mp hin).symm

/-- As long as a fetch is aloft it is counted, with all that were sent out after it. -/
theorem Aloft.exists_deeds (h : Aloft H f before since d) :
    ∃ deeds, let c := (f.after H before).cache.on H (.request d none)
      (f.after H (before ++ ask d :: since)).cache = c.after H deeds ∧
      (∀ deed ∈ deeds, deed.Misleads H d → .deed deed ∈ since) ∧
      (f.after H (before ++ ask d :: since)).flying.count d =
        (f.after H before).flying.count d + 1 + (c.sent H deeds).count d := by
  obtain ⟨deeds, hcache, hmem, hcount⟩ :=
    ((f.after H before).on H (ask d)).exists_deeds (H := H) since
  refine ⟨deeds, ?_, ?_, ?_⟩
  · rw [after_append, after_cons, hcache]
    rfl
  · intro deed hdeed hmisleads
    rcases hmem deed hdeed with hin | ⟨e, result, rfl, hin⟩
    · exact hin
    · obtain ⟨rfl, -⟩ := hmisleads
      exact absurd hin (h.out result)
  · rw [after_append, after_cons, hcount d h.out, count_ask h.agreed]
    rfl

theorem usable_after (hf : f.cache.Usable) (ts : List Traffic) : (f.after H ts).cache.Usable := by
  obtain ⟨deeds, hcache, -⟩ := f.exists_deeds (H := H) ts
  exact hcache ▸ hf.after deeds

theorem limit_after (f : Fetching) (ts : List Traffic) :
    (f.after H ts).cache.limit = f.cache.limit := by
  obtain ⟨deeds, hcache, -⟩ := f.exists_deeds (H := H) ts
  rw [hcache, Cache.limit_after]

/-- A fetch that is aloft is overtaken only after others have brought wrong content. No wrong bytes lie
under its digest when it sets out, because a node is fetched only while its slot is unfilled. -/
theorem Aloft.misled (h : Aloft H f before since d) (hf : f.cache.Usable)
    (hagain : (f.after H (before ++ ask d :: since)).cache.obstacle? d = none) :
    Misled H f before since d := by
  have hfirst : d ∈ (f.after H before).cache.sends (.request d none) :=
    Cache.mem_sends_iff.mpr ⟨rfl, h.agreed⟩
  have hsecond : d ∈ (f.after H (before ++ ask d :: since)).cache.sends (.request d none) :=
    Cache.mem_sends_iff.mpr ⟨rfl, hagain⟩
  have hhope := ((usable_after hf _).spent_of_mem_sends hsecond).2
  rw [limit_after] at hhope
  obtain ⟨hunfilled, -⟩ := Cache.obstacle?_eq_none hagain
  obtain ⟨deeds, hcache, hmisleads, -⟩ := h.exists_deeds
  have hslot : ((f.after H before).cache.on H (.request d none)).slot d =
      ((f.after H before).cache.slot d).setPending true := by
    rw [Cache.on, Cache.slot_request, if_pos hfirst]
  have hfound : ((f.after H before).cache.slot d).failures <
      ((f.after H (before ++ ask d :: since)).cache.slot d).failures := by
    rw [hcache] at hsecond ⊢
    exact (usable_after hf before).failures_lt hfirst hsecond
  refine ⟨h, ?_, hfound, hhope, hunfilled⟩
  have hclear : ¬ (((f.after H before).cache.on H (.request d none)).slot d).Obscured H d := by
    intro hobscured
    rw [hslot] at hobscured
    cases (Cache.obstacle?_eq_none h.agreed).1.symm.trans hobscured.isFilled
  obtain ⟨deed, hdeed, hwrong⟩ := Cache.exists_misleads_of_failures_lt hclear
    (by rw [hslot, ← hcache]; exact hfound)
  exact ⟨deed, hmisleads deed hdeed hwrong, hwrong⟩

/-- After that nothing keeps the node from being asked for again, if that was not done already. -/
theorem Misled.overtaken (h : Misled H f before since d) (hf : f.cache.Usable) :
    1 < (f.after H (before ++ ask d :: since)).flying.count d ∨
      0 < (f.after H (before ++ ask d :: since)).flying.count d ∧
        (f.after H (before ++ ask d :: since)).cache.obstacle? d = none := by
  obtain ⟨deeds, hcache, -, hcount⟩ := h.exists_deeds
  by_cases hsent : d ∈ ((f.after H before).cache.on H (.request d none)).sent H deeds
  · have hpos := List.count_pos_iff.mpr hsent
    exact .inl (by omega)
  · refine .inr ⟨by omega, ?_⟩
    have hidle : (f.after H (before ++ ask d :: since)).cache.pending d = false := by
      by_contra hpending
      rw [Bool.not_eq_false, hcache] at hpending
      have hconsistent : ((f.after H before).cache.on H (.request d none)).Consistent :=
        (usable_after (H := H) hf before).consistent.after (H := H) [.request d none]
      have hsame := Cache.failures_after_of_pending hconsistent hsent hpending
      have hfound := h.found
      rw [hcache, hsame, Cache.on, Cache.slot_request] at hfound
      split at hfound <;> exact absurd hfound (Nat.lt_irrefl _)
    have hhope := h.hope
    rw [← f.limit_after (H := H) (before ++ ask d :: since)] at hhope
    rw [Cache.pending] at hidle
    simp [Cache.obstacle?, h.unfilled, hidle, hhope]

/-- Two fetches of a node are out at once just when it is asked for again while a fetch of it is
aloft and spoilt by wrong content that others have brought. -/
theorem fetched_twice_at_once_iff (attempts : Nat) (ts : List Traffic) (d : Digest) :
    let f : Fetching := { cache := .ofAttempts attempts }
    (∃ ts', ts' <+: ts ∧ 1 < (f.after H ts').flying.count d) ↔
      ∃ before since, before ++ ask d :: since ++ [ask d] <+: ts ∧ Misled H f before since d := by
  intro f
  have hf : f.cache.Usable := Cache.usable_ofAttempts attempts
  constructor
  · rintro ⟨ts', hrow, hcount⟩
    rcases overlap_or (f := f) rfl ts' with hoverlap | hzero | ⟨hone, -⟩
    · obtain ⟨before, since, hts, haloft, hagain⟩ := hoverlap.mono hrow
      exact ⟨before, since, hts, haloft.misled hf hagain⟩
    · omega
    · omega
  · rintro ⟨before, since, hrow, hmisled⟩
    rcases hmisled.overtaken hf with hcount | ⟨hcount, hagain⟩
    · exact ⟨_, (List.prefix_append _ _).trans hrow, hcount⟩
    · refine ⟨_, hrow, ?_⟩
      rw [after_concat, count_ask hagain]
      omega

/-- A byte that is no node comes in unasked while the node is fetched, and is read. -/
theorem fetched_twice_at_once_stray :
    let f : Fetching := { cache := .ofAttempts 3 }
    let d : Digest := ⟨[7]⟩
    let stray : List Traffic := [.deed (.complete d (.ok [255])), .deed (.look d)]
    Misled Digest.mk f [] stray d ∧
      ∃ ts', ts' <+: ask d :: stray ++ [ask d] ∧ 1 < (f.after Digest.mk ts').flying.count d := by
  intro f d stray
  have hmisled : Misled Digest.mk f [] stray d := by
    refine ⟨⟨rfl, by simp [stray]⟩, ⟨.complete d (.ok [255]), by simp [stray], rfl, ?_⟩,
      by decide +kernel, by decide +kernel, by decide +kernel⟩
    rintro ⟨bytes, n, hbytes, hdecode⟩
    cases hbytes
    have hmismatch : Node.decodeAs Digest.mk d [255] = .error (.digestMismatch d ⟨[255]⟩) := by
      decide +kernel
    cases hmismatch.symm.trans hdecode
  exact ⟨hmisled, (fetched_twice_at_once_iff 3 _ d).mpr ⟨[], stray, List.prefix_rfl, hmisled⟩⟩

end Fetching

end Reconcile

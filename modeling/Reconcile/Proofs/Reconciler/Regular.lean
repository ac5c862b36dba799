import Reconcile.Proofs.Reconciler.Pacing

/-! # What holds of every reconciler

Whatever trees are announced and whatever comes in, the nodes at hand are genuine, a reconciler that
awaits its baseline has no round, and one without a round has found no names in it. So every event
comes to one of a few cases: it leaves the round in progress alone, or chooses a root, takes the traversal
one step on, ends the round or gives it up. -/

namespace Reconcile

/-- The event brings the root `d`, by its digest or by the body of a node. -/
def Event.Offers (H : Hashing) (d : Digest) : Event → Prop
  | announce e => e = d
  | handIn bytes => H bytes = d ∧ ∃ n, Denotes H d n
  | complete _ _ | call | step _ => False

namespace Reconciler

open Traversal

variable {H : Hashing} {agent : Agent} {r r' : Reconciler} {outcome : Option Outcome}

/-- The state of a reconciler fits together. Nothing is said of the trees. -/
structure Regular (H : Hashing) (r : Reconciler) : Prop where
  genuine : r.cache.Genuine H
  awaiting : r.awaitsBaseline = true → r.baseline = none ∧ r.round = none
  phase : r.round = none ↔ r.phase = .choosing ∨ r.phase = .done
  resting : r.round = none → r.recorded = []

namespace Regular

theorem fetches (h : r.Regular H) (hf : Fetches H r r') : r'.Regular H := by
  refine ⟨hf.keeps.genuine h.genuine, ?_, ?_, ?_⟩
  · rw [hf.awaitsBaseline, hf.baseline, hf.round]
    exact h.awaiting
  · rw [hf.round, hf.phase]
    exact h.phase
  · rw [hf.round, hf.recorded]
    exact h.resting

theorem exists_round (h : r.Regular H) (hphase : r.phase = .loading ∨ r.phase = .comparing) :
    ∃ y, r.round = some y := by
  refine Option.ne_none_iff_exists'.mp ?_
  intro hround
  rcases h.phase.mp hround with hr | hr <;> rcases hphase with hphase | hphase <;>
    cases hr.symm.trans hphase

/-- In a round no baseline is awaited. -/
theorem awaits_false (h : r.Regular H) {y : Digest} (hround : r.round = some y) :
    r.awaitsBaseline = false := by
  cases hawaits : r.awaitsBaseline with
  | false => rfl
  | true => cases (h.awaiting hawaits).2.symm.trans hround

theorem onward (h : r.Regular H) (hphase : r.phase = .comparing) (goes : Onward H agent r r') :
    r'.Regular H := by
  obtain ⟨y, hround⟩ := h.exists_round (.inr hphase)
  have hc := goes.continues
  refine ⟨goes.genuine h.genuine, ?_, ?_, ?_⟩
  · rw [hc.awaitsBaseline, hc.baseline, hc.round]
    exact h.awaiting
  · rw [hc.round, hc.phase]
    exact h.phase
  · rw [hc.round, hround]
    intro hnone
    cases hnone

theorem choose (h : r.Regular H) (hphase : r.phase = .choosing) : (r.choose H).Regular H := by
  have hround : r.round = none := h.phase.mpr (.inl hphase)
  obtain ⟨genuine, -, -, -, -, baseline, -, -, turn⟩ := turned_choose h.genuine hround
  rcases turn with idles | ⟨y, opens⟩
  · refine ⟨genuine, ?_, iff_of_true idles.round (.inr idles.phase), ?_⟩
    · intro hawaits
      rcases baseline with ⟨hsame, hbaseline⟩ | ⟨-, hadopted, -⟩
      · exact ⟨hbaseline.trans (h.awaiting (hsame.symm.trans hawaits)).1, idles.round⟩
      · cases hadopted.symm.trans hawaits
    · exact fun _ => idles.recorded.trans (h.resting hround)
  · refine ⟨genuine, ?_, ?_, fun _ => opens.recorded⟩
    · intro hawaits
      cases opens.awaits.symm.trans hawaits
    · rw [opens.round, opens.phase]
      simp

/-- The end of a round leaves nothing but its baseline and its stand-in. -/
theorem closeRound (h : r.Regular H) {y : Digest} (hround : r.round = some y) :
    (r.closeRound H).Regular H := by
  obtain ⟨hkeeps, -⟩ := Cache.sift_sub (H := H) r.cache (some y) r.remembered
  unfold Reconciler.closeRound
  simp only [hround]
  refine ⟨Cache.genuine_markKnown y (hkeeps.genuine h.genuine), ?_, iff_of_true rfl (.inr rfl),
    fun _ => rfl⟩
  intro hawaits
  cases (h.awaits_false hround).symm.trans hawaits

theorem abandonRound (h : r.Regular H) {y : Digest} (hround : r.round = some y) :
    (r.abandonRound H).Regular H := by
  obtain ⟨hkeeps, -⟩ := Cache.sift_sub (H := H) r.cache r.baseline r.remembered
  refine ⟨hkeeps.genuine h.genuine, ?_, iff_of_true rfl (.inl rfl), fun _ => rfl⟩
  intro hawaits
  cases (h.awaits_false hround).symm.trans hawaits

theorem paced (h : r.Regular H) (hr : Paced H agent r r' outcome) : r'.Regular H := by
  cases hr with
  | chose phase => exact h.choose phase
  | loaded phase loaded =>
      obtain ⟨y, hround⟩ := h.exists_round (.inl phase)
      obtain ⟨P, hconsults⟩ := loaded.consults
      have hr := h.fetches hconsults.fetches
      refine { hr with phase := ?_ }
      rw [hconsults.fetches.round, hround]
      simp
  | waits phase consults => exact h.fetches consults.fetches
  | went phase goes => exact h.onward phase goes
  | closed phase next aside =>
      obtain ⟨y, hround⟩ := h.exists_round (.inr phase)
      exact h.closeRound hround
  | halted halts idle =>
      obtain ⟨P, hconsults⟩ := halts.consults
      exact h.fetches hconsults.fetches
  | gaveUp halts work =>
      obtain ⟨y, hround⟩ := h.exists_round halts.phase
      obtain ⟨P, hconsults⟩ := halts.consults
      exact (h.fetches hconsults.fetches).abandonRound (hconsults.fetches.round.trans hround)
  | faulted phase plan meets =>
      obtain ⟨y, hround⟩ := h.exists_round (.inr phase)
      exact (h.fetches (fetches_of_plan plan)).abandonRound hround
  | woke phase work => exact { h with phase := iff_of_true (h.phase.mpr (.inr phase)) (.inl rfl) }
  | rested phase idle => exact h

/-- Whatever befalls a reconciler, its state fits together. -/
theorem on (h : r.Regular H) (e : Event) : (r.on H e).Regular H := by
  cases e with
  | announce d =>
      simp only [Reconciler.on, announce]
      split
      · exact h
      · exact { h with }
  | handIn bytes => exact { h with }
  | complete d result => exact h.fetches (fetches_complete r d result)
  | call => exact { h with }
  | step agent => exact h.paced (paced_step agent r)

theorem after (h : r.Regular H) (es : List Event) : (after H r es).Regular H :=
  after_induction h (fun _ e _ h => h.on e)

end Regular

/-! ## What an event comes to -/

/-- Nothing happened to the round in progress, but that nodes may have come. -/
structure Unmoved (H : Hashing) (r r' : Reconciler) : Prop where
  keeps : Cache.Keeps H r.cache r'.cache
  traversal : r'.traversal = r.traversal
  round : r'.round = r.round
  awaitsBaseline : r'.awaitsBaseline = r.awaitsBaseline
  baseline : r'.baseline = r.baseline
  extra : r'.extra = r.extra
  recorded : r'.recorded = r.recorded
  log : r'.journal.recorded = r.journal.recorded
  faults : r'.tally.faults = r.tally.faults
  sameRound : SameRound r r'

theorem Unmoved.refl (r : Reconciler) : Unmoved H r r :=
  ⟨.refl _, rfl, rfl, rfl, rfl, rfl, rfl, rfl, rfl, rfl, rfl⟩

theorem Consults.unmoved {P : Digest → Prop} (h : Consults H agent P r r') : Unmoved H r r' :=
  ⟨h.fetches.keeps, h.fetches.traversal, h.fetches.round, h.fetches.awaitsBaseline,
    h.fetches.baseline, h.fetches.extra, h.fetches.recorded, h.fetches.log, h.says_nothing.2.2.2,
    h.sameRound⟩

/-- A round is given up, either because it cannot go on or because its plan failed. -/
inductive Abandons (H : Hashing) (r : Reconciler) : Reconciler → Prop
  | stalled {r₁ : Reconciler} (fetches : Fetches H r r₁) (faults : r₁.tally.faults = r.tally.faults)
      (sameRound : SameRound r r₁) : Abandons H r (r₁.abandonRound H)
  | faulted {c : Cache} {e : Fault} (plan : Traversal.plan H r.cache r.traversal = (c, .error e))
      (meets : r.traversal.Meets) :
      Abandons H r (abandonRound H { r with cache := c, tally.faults := r.tally.faults + 1 })

/-- What an event comes to for the round in progress. -/
inductive Turns (H : Hashing) (r : Reconciler) : Reconciler → Prop
  | stays {r' : Reconciler} (same : Unmoved H r r') : Turns H r r'
  | chose (round : r.round = none) : Turns H r (r.choose H)
  | went {agent : Agent} {r' : Reconciler} {y : Digest} (round : r.round = some y)
      (goes : Onward H agent r r') : Turns H r r'
  | closed {y : Digest} (round : r.round = some y) (next : r.traversal.next = [])
      (aside : r.traversal.aside = []) : Turns H r (r.closeRound H)
  | gaveUp {r' : Reconciler} {y : Digest} (round : r.round = some y) (abandons : Abandons H r r') :
      Turns H r r'

theorem Regular.turns_paced (h : r.Regular H) (hr : Paced H agent r r' outcome) : Turns H r r' := by
  cases hr with
  | chose phase => exact .chose (h.phase.mpr (.inl phase))
  | loaded phase loaded =>
      obtain ⟨P, hconsults⟩ := loaded.consults
      exact .stays { hconsults.unmoved with }
  | waits phase consults => exact .stays consults.unmoved
  | went phase goes =>
      obtain ⟨y, hround⟩ := h.exists_round (.inr phase)
      exact .went hround goes
  | closed phase next aside =>
      obtain ⟨y, hround⟩ := h.exists_round (.inr phase)
      exact .closed hround next aside
  | halted halts idle =>
      obtain ⟨P, hconsults⟩ := halts.consults
      exact .stays hconsults.unmoved
  | gaveUp halts work =>
      obtain ⟨y, hround⟩ := h.exists_round halts.phase
      obtain ⟨P, hconsults⟩ := halts.consults
      have hsame : Unmoved H r _ := hconsults.unmoved
      exact .gaveUp hround (.stalled hconsults.fetches hsame.faults hsame.sameRound)
  | faulted phase plan meets =>
      obtain ⟨y, hround⟩ := h.exists_round (.inr phase)
      exact .gaveUp hround (.faulted plan meets)
  | woke phase work => exact .stays { Unmoved.refl r with }
  | rested phase idle => exact .stays (.refl r)

/-- Every event comes to one of the cases. -/
theorem Regular.turns (h : r.Regular H) (e : Event) : Turns H r (r.on H e) := by
  cases e with
  | announce d =>
      simp only [Reconciler.on, announce]
      split
      · exact .stays (.refl r)
      · exact .stays { Unmoved.refl r with }
  | handIn bytes => exact .stays { Unmoved.refl r with }
  | complete d result =>
      exact .stays { Unmoved.refl (H := H) r with keeps := (fetches_complete r d result).keeps }
  | call => exact .stays { Unmoved.refl r with }
  | step agent => exact h.turns_paced (paced_step agent r)

/-- A round is given up after the reconciler only looked and asked. -/
theorem Abandons.fetches (h : Abandons H r r') :
    ∃ r₁, Fetches H r r₁ ∧ r' = r₁.abandonRound H := by
  cases h with
  | stalled fetches faults sameRound => exact ⟨_, fetches, rfl⟩
  | faulted plan meets => exact ⟨_, fetches_of_plan plan, rfl⟩

/-- Rounds that are given up are counted, and nothing else is counted with them. -/
theorem Turns.abandons (h : Turns H r r') (haborted : r'.tally.aborted ≠ r.tally.aborted) :
    ∃ y, r.round = some y ∧ Abandons H r r' := by
  cases h with
  | stays same => exact absurd same.sameRound.2 haborted
  | chose round => exact absurd (by rw [(journal_tally_choose r).2]) haborted
  | went round goes => exact absurd goes.continues.sameRound.2 haborted
  | closed round next aside => exact absurd (closeRound_aborted r) haborted
  | gaveUp round abandons => exact ⟨_, round, abandons⟩

/-! ## What comes to be waiting -/

theorem waiting_of_queue {d : Digest} (h : r'.Waiting H d) (hroots : r'.queue.roots = r.queue.roots)
    (hbodies : r'.queue.bodies = r.queue.bodies) : r.Waiting H d := by
  unfold Waiting at h ⊢
  rwa [hroots, hbodies] at h

/-- A step brings no root. -/
theorem Regular.waiting_paced (h : r.Regular H) (hr : Paced H agent r r' outcome) {d : Digest}
    (hd : r'.Waiting H d) : r.Waiting H d := by
  have hfetches : ∀ {r₁ : Reconciler}, Fetches H r r₁ → r₁.Waiting H d → r.Waiting H d :=
    fun hf hd => waiting_of_queue hd (by rw [hf.queue]) (by rw [hf.queue])
  cases hr with
  | chose phase =>
      have hturned := turned_choose h.genuine (h.phase.mpr (.inl phase))
      rcases hd with hd | ⟨body, hbody, -⟩
      · exact hturned.roots d hd
      · rw [hturned.bodies] at hbody
        cases hbody
  | loaded phase loaded =>
      obtain ⟨P, hconsults⟩ := loaded.consults
      exact hfetches hconsults.fetches hd
  | waits phase consults => exact hfetches consults.fetches hd
  | went phase goes =>
      have hqueue := goes.continues.queue
      exact waiting_of_queue hd (by rw [hqueue]) (by rw [hqueue])
  | closed phase next aside =>
      obtain ⟨y, hround⟩ := h.exists_round (.inr phase)
      simp only [Reconciler.closeRound, hround] at hd
      exact hd
  | halted halts idle =>
      obtain ⟨P, hconsults⟩ := halts.consults
      exact hfetches hconsults.fetches hd
  | @gaveUp r₁ halts work =>
      obtain ⟨P, hconsults⟩ := halts.consults
      have hd : r₁.Waiting H d := hd
      exact hfetches hconsults.fetches hd
  | faulted phase plan meets => exact hd
  | woke phase work => exact hd
  | rested phase idle => exact hd

/-- What is waiting after an event was waiting before, or the event brought it. -/
theorem Regular.waiting_on (h : r.Regular H) {e : Event} {d : Digest}
    (hd : (r.on H e).Waiting H d) : r.Waiting H d ∨ e.Offers H d := by
  cases e with
  | announce d' =>
      simp only [Reconciler.on, announce] at hd
      split at hd
      · exact .inl hd
      · rcases hd with hd | hd
        · rcases List.mem_append.mp hd with hd | hd
          · exact .inl (.inl hd)
          · exact .inr (List.mem_singleton.mp hd).symm
        · exact .inl (.inr hd)
  | handIn bytes =>
      rcases hd with hd | ⟨body, hbody, hd⟩
      · exact .inl (.inl hd)
      · rcases List.mem_append.mp hbody with hbody | hbody
        · exact .inl (.inr ⟨body, hbody, hd⟩)
        · exact .inr (List.mem_singleton.mp hbody ▸ hd)
  | complete d' result => exact .inl hd
  | call => exact .inl hd
  | step agent => exact .inl (h.waiting_paced (paced_step agent r) hd)

theorem regular_create {c : Cache} (hgenuine : c.Genuine H) (start : Origin)
    (firstName : Option Name) : (create c start firstName).Regular H where
  genuine := hgenuine
  awaiting := by
    intro hawaits
    cases start with
    | current => exact ⟨rfl, rfl⟩
    | empty => cases hawaits
    | root d => cases hawaits
  phase := iff_of_true rfl (.inl rfl)
  resting _ := rfl

end Reconciler

end Reconcile

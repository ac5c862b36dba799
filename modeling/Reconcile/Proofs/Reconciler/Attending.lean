import Reconcile.Proofs.History
import Reconcile.Proofs.Reconciler.Motion
import Reconcile.Proofs.Traversal.Outlook

/-! # Attending to one root

A reconciler with the baseline `x` gets the root `y` and no other. Over any trees: whatever it counts
as known it handled, so when a round is through, the whole tree of `y` is handled, but for what is
below lost nodes. -/

namespace Reconcile.Reconciler

open Traversal

variable {H : Hashing} {lost : Digest → Prop} {agent : Agent} {x y : Digest}
  {r₀ r r' : Reconciler}

/-- The names found since the state `r₀`. -/
def foundSince (r₀ r : Reconciler) : List Name := r.journal.recorded.drop r₀.journal.recorded.length

/-- A name is found, or belongs to the tree `x`, or only looks so: it is stated there as an end of a
range. -/
def Handled (H : Hashing) (lost : Digest → Prop) (x : Digest) (r₀ r : Reconciler) (a : Name) : Prop :=
  a ∈ foundSince r₀ r ∨ Leads H lost (.ref x) (.leaf a) ∨ Bounds H x a

theorem Handled.of_found {a : Name} (h : Handled H lost x r₀ r a)
    (hfound : ∀ a ∈ foundSince r₀ r, a ∈ foundSince r₀ r') : Handled H lost x r₀ r' a :=
  h.imp_left (hfound a)

theorem foundSince_eq (r₀ : Reconciler) (h : r'.journal.recorded = r.journal.recorded) :
    foundSince r₀ r' = foundSince r₀ r := by
  rw [foundSince, foundSince, h]

theorem handled_eq (H : Hashing) (lost : Digest → Prop) (x : Digest) (r₀ : Reconciler)
    (h : r'.journal.recorded = r.journal.recorded) :
    Handled H lost x r₀ r' = Handled H lost x r₀ r := by
  funext a
  rw [Handled, Handled, foundSince_eq r₀ h]

/-- All that a digest leads to is handled. -/
def Finishes (H : Hashing) (lost : Digest → Prop) (x : Digest) (r₀ r : Reconciler) (d : Digest) :
    Prop :=
  ∀ i, Leads H lost (.ref d) i → i.Done lost (Handled H lost x r₀ r)

theorem Finishes.of_found {d : Digest} (h : Finishes H lost x r₀ r d)
    (hfound : ∀ a ∈ foundSince r₀ r, a ∈ foundSince r₀ r') : Finishes H lost x r₀ r' d :=
  fun i hi => Item.Done.mono (fun _ ha => ha.of_found hfound) (h i hi)

/-- The reconciler attends to `y`, beside the baseline `x` that it had in the state `r₀`. -/
structure Attends (H : Hashing) (lost : Digest → Prop) (x y : Digest) (r₀ r : Reconciler) : Prop where
  genuine : r.cache.Genuine H
  known : ∀ d, r.cache.known d = true → Finishes H lost x r₀ r d
  grows : r₀.journal.recorded.length ≤ r.journal.recorded.length
  extra : ∀ n ∈ r.extra, ∀ a ∈ n.leaves, a ∈ foundSince r₀ r
  recorded : ∀ a ∈ r.recorded, a ∈ foundSince r₀ r
  roots : ∀ d ∈ r.queue.roots, d = y
  bodies : ∀ bytes ∈ r.queue.bodies, H bytes = y
  awaits : r.awaitsBaseline = false
  phase : r.round = none ↔ r.phase = .choosing ∨ r.phase = .done
  round : ∀ d ∈ r.round, d = y ∧ r.baseline = some x ∧
    Covers H lost x y (Handled H lost x r₀ r) r.traversal
  baseline : r.baseline = some x ∧ r.tally.completed = r₀.tally.completed ∨
    r.baseline = some y ∧ Finishes H lost x r₀ r y

namespace Attends

theorem fetches (h : Attends H lost x y r₀ r) (hf : Fetches H r r') :
    Attends H lost x y r₀ r' := by
  have hfound := foundSince_eq r₀ hf.log
  have hhandled := handled_eq H lost x r₀ hf.log
  refine ⟨hf.keeps.genuine h.genuine, ?_, ?_, ?_, ?_, ?_, ?_, ?_, ?_, ?_, ?_⟩
  · intro d hd
    rw [Finishes, hhandled]
    exact h.known d (hf.known ▸ hd)
  · rw [hf.log]
    exact h.grows
  · rw [hf.extra, hfound]
    exact h.extra
  · rw [hf.recorded, hfound]
    exact h.recorded
  · rw [hf.queue]
    exact h.roots
  · rw [hf.queue]
    exact h.bodies
  · rw [hf.awaitsBaseline]
    exact h.awaits
  · rw [hf.round, hf.phase]
    exact h.phase
  · rw [hf.round, hf.baseline, hf.traversal, hhandled]
    exact h.round
  · rw [hf.baseline, hf.completed, Finishes, hhandled]
    exact h.baseline

theorem exists_round (h : Attends H lost x y r₀ r) (hchoosing : r.phase ≠ .choosing)
    (hdone : r.phase ≠ .done) : r.round = some y := by
  obtain ⟨d, hd⟩ : ∃ d, r.round = some d := by
    refine Option.ne_none_iff_exists'.mp ?_
    intro hround
    rcases h.phase.mp hround with hphase | hphase
    · exact hchoosing hphase
    · exact hdone hphase
  rw [hd, (h.round d hd).1]

/-- The traversal moves on, and trees that are handled may be marked as known. -/
theorem walks (h : Attends H lost x y r₀ r) {w : Traversal} {c : Cache}
    (hw : Covers H lost x y (Handled H lost x r₀ r) w) (hgenuine : c.Genuine H)
    (hknown : ∀ d, c.known d = true → r.cache.known d = true ∨ Finishes H lost x r₀ r d) :
    Attends H lost x y r₀ { r with traversal := w, cache := c } := by
  refine { h with genuine := hgenuine, known := ?_, round := ?_ }
  · intro d hd
    exact (hknown d hd).elim (h.known d) id
  · intro d hd
    obtain ⟨rfl, hbaseline, -⟩ := h.round d hd
    exact ⟨rfl, hbaseline, hw⟩

/-- The traversal moves on, and a tree that is handled is marked as known. -/
theorem marks (h : Attends H lost x y r₀ r) {w : Traversal} {c : Cache} {d : Digest}
    (hw : Covers H lost x y (Handled H lost x r₀ r) w) (hc : Cache.Keeps H r.cache c)
    (hd : Finishes H lost x r₀ r d) :
    Attends H lost x y r₀ { r with traversal := w, cache := c.markKnown d } := by
  refine h.walks hw (Cache.genuine_markKnown d (hc.genuine h.genuine)) ?_
  intro e he
  rw [Cache.known_markKnown, Bool.or_eq_true, decide_eq_true_eq] at he
  rcases he with rfl | he
  · exact .inr hd
  · exact .inl (hc.known e ▸ he)

/-! ## Steps of the traversal -/

/-- The traversal moves on after a look. -/
theorem looks (h : Attends H lost x y r₀ r) (hf : Fetches H r r') {w : Traversal}
    (hw : Covers H lost x y (Handled H lost x r₀ r) w) :
    Attends H lost x y r₀ { r' with traversal := w } := by
  have h' := h.fetches hf
  refine h'.walks ?_ h'.genuine (fun _ hd => .inl hd)
  exact handled_eq H lost x r₀ hf.log ▸ hw

/-- Nothing in the tree `x` is lost, and all its names are handled. -/
theorem held (hx : ∀ e, Leads H lost (.ref x) (.ref e) → ¬ lost e) (r₀ r : Reconciler) :
    Finishes H lost x r₀ r x := by
  intro i hi
  cases i with
  | leaf a => exact .inr (.inl hi)
  | ref e => exact hx e hi

theorem delivers (h : Attends H lost x y r₀ r) (name : Name) :
    Attends H lost x y r₀ (r.deliver name) := by
  unfold deliver
  split
  · exact h.fetches ⟨.refl _, rfl, rfl⟩
  · exact h

/-- A name is recorded when the traversal passes it. If the stand-in lists it, it was found before. -/
theorem records (h : Attends H lost x y r₀ r) (hround : r.round = some y) {w : Traversal} {c : Cache}
    {a : Name} (hw : ∀ S' : Name → Prop, (∀ b, Handled H lost x r₀ r b → S' b) → S' a →
      Covers H lost x y S' w)
    (hgenuine : c.Genuine H) (hknown : ∀ d, c.known d = r.cache.known d) :
    Attends H lost x y r₀ (record { r with cache := c, traversal := w } a) := by
  obtain ⟨-, hbaseline, -⟩ := h.round y hround
  unfold record
  split
  · rename_i hlists
    obtain ⟨n, hn, ha⟩ := any_lists.mp hlists
    exact h.walks (hw _ (fun _ => id) (.inl (h.extra n hn a ha))) hgenuine
      (fun d hd => .inl (hknown d ▸ hd))
  · have hfound : (r.journal.recorded ++ [a]).drop r₀.journal.recorded.length =
        foundSince r₀ r ++ [a] := List.drop_append_of_le_length h.grows
    have hlog : ∀ b ∈ foundSince r₀ r,
        b ∈ (r.journal.recorded ++ [a]).drop r₀.journal.recorded.length := by
      intro b hb
      rw [hfound]
      exact List.mem_append_left _ hb
    have hlast : a ∈ (r.journal.recorded ++ [a]).drop r₀.journal.recorded.length := by
      rw [hfound]
      exact List.mem_append_right _ (List.mem_singleton_self a)
    apply delivers
    refine ⟨hgenuine, ?_, ?_, ?_, ?_, h.roots, h.bodies, h.awaits, h.phase, ?_, ?_⟩
    · intro d hd
      exact (h.known d (hknown d ▸ hd)).of_found hlog
    · rw [List.length_append]
      exact le_trans h.grows (Nat.le_add_right _ _)
    · intro n hn b hb
      exact hlog b (h.extra n hn b hb)
    · intro b hb
      rcases List.mem_append.mp hb with hb | hb
      · exact hlog b (h.recorded b hb)
      · exact List.mem_singleton.mp hb ▸ hlast
    · intro d hd
      obtain ⟨rfl, -, -⟩ := h.round d hd
      exact ⟨rfl, hbaseline, hw _ (fun b hb => hb.of_found hlog) (.inl hlast)⟩
    · exact h.baseline.imp_right (fun hy => ⟨hy.1, hy.2.of_found hlog⟩)

theorem acts (h : Attends H lost x y r₀ r) (hround : r.round = some y)
    (hx : ∀ e, Leads H lost (.ref x) (.ref e) → ¬ lost e) {c : Cache} {m : Move} {f : Frame}
    {fs : List Frame} {n : Node} {j : Item} (hc : Cache.Keeps H r.cache c)
    (hp : Planned H r.cache r.traversal m f fs n j) :
    Attends H lost x y r₀
      (effect { r with cache := c, traversal := r.traversal.perform m } r.traversal m) := by
  obtain ⟨-, -, hcovers⟩ := h.round y hround
  have hperform : ∀ S' : Name → Prop, (∀ a, Handled H lost x r₀ r a → S' a) →
      (m = .record → ∀ a, j = .leaf a → S' a) →
      Covers H lost x y S' (r.traversal.perform m) := fun S' hS hrecord =>
    hcovers.perform h.genuine hp hS (held hx r₀ r) h.known (fun a ha => .inr (.inr ha)) hrecord
  have hgenuine := hc.genuine h.genuine
  have hquiet : m ≠ .record → Attends H lost x y r₀
      { r with cache := c, traversal := r.traversal.perform m } := fun hm =>
    h.walks (hperform _ (fun _ => id) (fun hm' => absurd hm' hm)) hgenuine
      (fun d hd => .inl (hc.known d ▸ hd))
  cases m with
  | record =>
      obtain ⟨hnext, hf, -, hchosen⟩ := hp
      generalize r.traversal.current = current at hchosen
      cases hchosen with
      | @record _ a =>
          have hleaf : r.traversal.next.head?.bind leafAt = some a := by
            rw [hnext]
            exact leafAt_leaf hf
          simp only [effect, hleaf]
          refine h.records hround (fun S' hS ha => hperform S' hS ?_) hgenuine hc.known
          intro _ b hb
          exact Item.leaf.inj hb ▸ ha
  | share d =>
      refine h.marks (hperform _ (fun _ => id) (by simp)) hc ?_
      obtain ⟨-, -, -, hchosen⟩ := hp
      generalize hcurrent : r.traversal.current = current at hchosen
      cases hchosen with
      | share position =>
          have hd := (hcovers.current _ (hcurrent ▸ List.mem_cons_self)).item position
          exact fun i hi => held hx r₀ r i (hd.trans hi)
  | skipNext => exact hquiet (by simp)
  | skipCurrent => exact hquiet (by simp)
  | skipBoth => exact hquiet (by simp)
  | enterNext d => exact hquiet (by simp)
  | enterCurrent d => exact hquiet (by simp)
  | enterBoth d e => exact hquiet (by simp)
  | leaveCurrent => exact hquiet (by simp)

/-- A step of the traversal that goes on. Nodes that it enters are not lost. -/
theorem strides (inj : Function.Injective H) (h : Attends H lost x y r₀ r)
    (hround : r.round = some y) (hx : ∀ e, Leads H lost (.ref x) (.ref e) → ¬ lost e)
    (hfound : ∀ d n, (r.look H d).2 = .present n → ¬ lost d)
    (hs : Onward H agent r r') : Attends H lost x y r₀ r' := by
  obtain ⟨-, hbaseline, hcovers⟩ := h.round y hround
  cases hs with
  | @resumed r' d n next mem consults found =>
      rw [hbaseline]
      exact h.looks (consults.look d).fetches (hcovers.restart next mem)
  | @passedKnown f fs next unresolved known =>
      refine h.looks (.refl r) (hcovers.passes (fun _ => id) ?_ hcovers.current rfl)
      rw [next]
      refine .leave ?_
      intro i hi
      simp only [Frame.Ahead, unresolved] at hi
      exact h.known f.digest known i hi
  | @openedNext f fs n next unresolved found =>
      refine h.looks (fetches_look r f.digest)
        (hcovers.passes (fun _ => id) ?_ hcovers.current rfl)
      have hf := hcovers.next f (next ▸ List.mem_cons_self)
      have hkept := hfound f.digest n found
      rw [next]
      exact .resolve inj hf unresolved (denotes_of_look h.genuine found) hkept hkept
  | @putAside r' f fs givenUp next above unresolved found consults =>
      exact h.looks ((fetches_look r f.digest).trans consults.fetches)
        (hcovers.putAside next unresolved)
  | @leftNext f fs n next resolved isThrough =>
      have hleave : Covers H lost x y (Handled H lost x r₀ r) { r.traversal with next := fs } := by
        refine hcovers.passes (fun _ => id) ?_ hcovers.current rfl
        rw [next]
        exact .leave (fun i hi => absurd hi (Frame.not_ahead_of_isThrough resolved isThrough))
      unfold leaveNext
      cases hincomplete : f.incomplete with
      | true => exact h.walks hleave h.genuine (fun _ hd => .inl hd)
      | false =>
          exact h.marks hleave (.refl _)
            (hcovers.done_of_isThrough next resolved isThrough hincomplete)
  | @openedCurrent g gs n current unresolved found =>
      refine h.looks (fetches_look r g.digest)
        (hcovers.passes (fun _ => id) (.refl _) ?_ rfl)
      have hwithin := hcovers.current
      rw [current] at hwithin
      intro g' hg'
      rcases List.mem_cons.mp hg' with rfl | hg'
      · exact (hwithin g List.mem_cons_self).resolve (denotes_of_look h.genuine found)
          (hfound g.digest n found)
      · exact hwithin g' (List.mem_cons_of_mem g hg')
  | @leftCurrent g gs n current resolved isThrough =>
      refine h.looks (.refl r) (hcovers.passes (fun _ => id) (.refl _) ?_ rfl)
      intro g' hg'
      exact hcovers.current g' (current ▸ List.mem_cons_of_mem g hg')
  | acted plan planned =>
      have hkeeps := keeps_plan H r.cache r.traversal
      rw [plan] at hkeeps
      exact h.acts hround hx hkeeps planned

/-! ## Between two rounds -/

/-- The root is taken up, or there is nothing to do. -/
theorem chooses (h : Attends H lost x y r₀ r) (hround : r.round = none) :
    Attends H lost x y r₀ (r.choose H) := by
  obtain ⟨mid, ds, -, htaking, hchoice⟩ := choose_cases h.genuine
  have hadoption := adoption_of_taking htaking
  obtain ⟨hawaits, hbaseline⟩ := hadoption.awaits_false h.awaits
  have hawaits : mid.awaitsBaseline = false := hawaits
  have hbaseline : mid.baseline = r.baseline := hbaseline
  have hbare : Attends H lost x y r₀ { r with queue.bodies := [] } :=
    { h with bodies := fun bytes hbytes => nomatch hbytes }
  have hmid : Attends H lost x y r₀ mid := by
    cases htaking with
    | kept fetches brought nodes none_yet => exact hbare.fetches fetches
    | adopted front body back split awaited node fetches brought nodes =>
        cases h.awaits.symm.trans awaited
  have hmidround : mid.round = none :=
    (congrArg Ledger.round (ledger_of_taking htaking)).trans hround
  have hroot : ∀ d ∈ candidates r.cache.known r.ledger mid.awaitsBaseline mid.baseline ds,
      d = y ∧ some d ≠ mid.baseline := by
    intro d hd
    obtain ⟨hd, hne, -⟩ := mem_candidates.mp hd
    refine ⟨?_, hne⟩
    rcases hd with hd | ⟨-, hd⟩
    · obtain ⟨body, hbody, hd, -⟩ := hadoption.mem hd
      exact hd.symm.trans (h.bodies body hbody)
    · exact h.roots d hd
  have hkept : ∀ d ∈ r.ledger.kept mid.awaitsBaseline, d = y :=
    fun d hd => h.roots d (Ledger.mem_of_mem_kept hd)
  rcases hchoice with ⟨-, hchoose⟩ | ⟨best, hbest, hchoose⟩
  · rw [hchoose]
    refine { hmid with roots := hkept, bodies := ?_, phase := ?_ }
    · intro bytes hbytes
      cases hbytes
    · exact iff_of_true hmidround (.inr rfl)
  · obtain ⟨rfl, hne⟩ := hroot best (List.mem_of_getLast? hbest)
    have hx : mid.baseline = some x := by
      rcases hmid.baseline with ⟨hx, -⟩ | ⟨hy, -⟩
      · exact hx
      · exact absurd hy.symm hne
    rw [hchoose]
    refine { hmid with
      recorded := ?_
      roots := ?_
      bodies := ?_
      phase := ?_
      round := ?_ }
    · intro a ha
      cases ha
    · intro d hd
      rcases mem_addMissing.mp hd with hd | hd
      · exact hkept d hd
      · exact (hroot d (List.dropLast_subset _ hd)).1
    · intro bytes hbytes
      cases hbytes
    · constructor
      · intro hnone
        cases hnone
      · rintro (hphase | hphase) <;> cases hphase
    · intro d hd
      obtain rfl := Option.some.inj hd
      refine ⟨rfl, hx, ?_⟩
      simp only [openRound, hx]
      exact covers_begin _

/-- The stand-in for what a reconciler remembers lists only names that were found. -/
theorem sifted (h : Attends H lost x y r₀ r) (baseline : Option Digest) :
    ∀ n ∈ (r.cache.sift H baseline r.remembered).2.remainder.map Prod.snd, ∀ a ∈ n.leaves,
      a ∈ foundSince r₀ r := by
  obtain ⟨-, hremainder, hsub⟩ := Cache.sift_sub (H := H) r.cache baseline r.remembered
  rw [hremainder]
  intro n hn a ha
  have hkept := Cache.mem_leaves_standIn.mp ⟨n, hn, ha⟩
  rcases mem_remembered.mp (hsub a hkept) with ⟨n', hn', ha'⟩ | ha'
  · exact h.extra n' hn' a ha'
  · exact h.recorded a ha'

/-- The round is through. -/
theorem closes (h : Attends H lost x y r₀ r) (hround : r.round = some y)
    (hnext : r.traversal.next = []) (haside : r.traversal.aside = []) :
    Attends H lost x y r₀ (r.closeRound H) := by
  have hfinishes : Finishes H lost x r₀ r y := (h.round y hround).2.2.done hnext haside
  obtain ⟨hkeeps, -⟩ := Cache.sift_sub (H := H) r.cache (some y) r.remembered
  have hextra := h.sifted (some y)
  unfold closeRound
  simp only [hround]
  refine { h with
    genuine := Cache.genuine_markKnown y (hkeeps.genuine h.genuine)
    known := ?_
    extra := hextra
    recorded := fun a ha => nomatch ha
    phase := iff_of_true rfl (.inr rfl)
    round := fun d hd => nomatch hd
    baseline := .inr ⟨rfl, hfinishes⟩ }
  intro d hd
  rw [Cache.known_markKnown, Bool.or_eq_true, decide_eq_true_eq, hkeeps.known] at hd
  rcases hd with rfl | hd
  · exact hfinishes
  · exact h.known d hd

/-- The round is given up. -/
theorem abandons (h : Attends H lost x y r₀ r) :
    Attends H lost x y r₀ (r.abandonRound H) := by
  obtain ⟨hkeeps, -⟩ := Cache.sift_sub (H := H) r.cache r.baseline r.remembered
  have hextra := h.sifted r.baseline
  have hbaseline : ∀ d, r.baseline.or d = r.baseline := by
    rcases h.baseline with ⟨hb, -⟩ | ⟨hb, -⟩ <;> rw [hb] <;> intro d <;> rfl
  unfold abandonRound
  simp only [hbaseline]
  refine { h with
    genuine := hkeeps.genuine h.genuine
    known := ?_
    extra := ?_
    recorded := fun a ha => nomatch ha
    phase := iff_of_true rfl (.inl rfl)
    round := fun d hd => nomatch hd }
  · intro d hd
    rw [hkeeps.known] at hd
    exact h.known d hd
  · intro n hn
    split at hn
    · exact hextra n hn
    · cases hn

theorem givesWay (h : Attends H lost x y r₀ r) : Attends H lost x y r₀ (r.giveWay H).1 := by
  unfold giveWay
  split
  · exact h.abandons
  · exact h

end Attends

/-! ## Steps of a pass -/

/-- A step of the traversal that does not go on only looks and asks. -/
theorem Strode.consults {stride : Stride} (h : Strode H agent r r' stride)
    (hstride : stride ≠ .onward) : Fetches H r r' := by
  cases h with
  | onward goes => exact absurd rfl hstride
  | through next aside => exact .refl r
  | waiting waits => exact waits.consults.fetches
  | exhausted next left consults missed => exact consults.fetches
  | lostRoot next unresolved missed => exact fetches_look r _
  | lostCurrent current unresolved missed => exact fetches_look r _
  | faulted plan =>
      have hkeeps := keeps_plan H r.cache r.traversal
      rw [plan] at hkeeps
      exact fetches_cache r hkeeps

theorem attends_step (inj : Function.Injective H) (h : Attends H lost x y r₀ r)
    (hx : ∀ e, Leads H lost (.ref x) (.ref e) → ¬ lost e)
    (hfound : ∀ d n, (r.look H d).2 = .present n → ¬ lost d) (agent : Agent) :
    Attends H lost x y r₀ (r.step H agent).1 := by
  unfold step
  split
  · rename_i hphase
    exact h.chooses (h.phase.mpr (.inl hphase))
  · rename_i hphase
    have hf := fetches_load (H := H) agent r
    have hround := h.exists_round (by simp [hphase]) (by simp [hphase])
    generalize r.load H agent = loaded at hf
    obtain ⟨r', progress⟩ := loaded
    have h' := h.fetches hf
    cases progress with
    | through =>
        refine { h' with phase := ?_ }
        rw [hf.round, hround]
        simp
    | waiting => exact h'
    | stuck => exact h'.givesWay
  · rename_i hphase
    have hs := strode_stride (H := H) agent r
    have hround := h.exists_round (by simp [hphase]) (by simp [hphase])
    generalize r.stride H agent = strode at hs
    obtain ⟨r', stride⟩ := strode
    cases stride with
    | onward =>
        cases hs with
        | onward goes => exact h.strides inj hround hx hfound goes
    | through =>
        cases hs with
        | through next aside => exact h.closes hround next aside
    | waiting => exact h.fetches (hs.consults (by simp))
    | stuck => exact (h.fetches (hs.consults (by simp))).givesWay
    | fault f =>
        have h' := h.fetches (hs.consults (by simp))
        exact Attends.abandons { h' with }
  · rename_i hphase
    split
    · exact { h with phase := iff_of_true (h.phase.mpr (.inr hphase)) (.inl rfl) }
    · exact h

end Reconcile.Reconciler

import Reconcile.Proofs.History.Stalling
import Reconcile.Proofs.Reconciler.Striding

/-! # A round that is given up is not forgotten

However a round is given up, be it for a fault in the next tree or for another root, what it found goes
into the stand-in together with what the stand-in listed before, unless the baseline holds it. So the
round that follows finds none of these names again, if its root is honest. -/

namespace Reconcile

namespace Reconciler

open Traversal

variable {H : Hashing} {agent : Agent} {r₀ r r' : Reconciler} {a : Name} {z : Digest}

/-- A name will not be found again: the baseline holds it, or the stand-in beside it lists it. -/
def Retains (H : Hashing) (r : Reconciler) (a : Name) : Prop :=
  a ∈ heldNames H r.baseline ∨ ∃ n ∈ r.extra, a ∈ n.leaves

/-! ## What is left of the round -/

/-- A round that is given up without a baseline leaves its stand-in as one. -/
theorem honest_abandonRound (inj : Function.Injective H) (hbaseline : ∀ d ∈ r.baseline, Honest H d) :
    ∀ d ∈ (r.abandonRound H).baseline, Honest H d := by
  intro d hd
  rcases mem_baseline_abandonRound hd with hd | ⟨names, hd⟩
  · exact hbaseline d hd
  · exact (Cache.honest_standIn inj hd).1

/-- All that was remembered is retained. -/
theorem retains_abandonRound (inj : Function.Injective H) (hr : r.cache.Genuine H)
    (hbaseline : ∀ d ∈ r.baseline, Honest H d) (ha : a ∈ r.remembered) :
    (r.abandonRound H).Retains H a := by
  obtain ⟨-, kept, hremainder, -, hall⟩ := Cache.sift_spec inj hr hbaseline r.remembered
  cases hsome : r.baseline with
  | none =>
      rw [hsome] at hremainder hall
      have hkept : a ∈ kept := by simpa using hall a ha
      refine .inl ?_
      simp only [abandonRound, hsome, hremainder, Option.none_or]
      exact Cache.mem_heldNames_standIn inj hkept
  | some d =>
      rw [hsome] at hremainder hall
      rcases hall a ha with hkept | hheld
      · refine .inr ?_
        simp only [abandonRound, hsome, hremainder, Option.isSome_some, if_true]
        exact Cache.mem_leaves_standIn.mpr hkept
      · refine .inl ?_
        simp only [abandonRound, hsome, Option.some_or]
        exact hheld

theorem Fetches.remembered (h : Fetches H r r') : r'.remembered = r.remembered := by
  rw [Reconciler.remembered, Reconciler.remembered, h.recorded, h.extra]

/-! ## Steps of the round that follows -/

/-- What a step of a traversal adds to the names that were found: none, or one that is not retained. -/
inductive Adds (H : Hashing) (r r' : Reconciler) : Prop
  | none (recorded : r'.recorded = r.recorded) (log : r'.journal.recorded = r.journal.recorded)
  | one (a : Name) (new : ¬ r.Retains H a) (recorded : r'.recorded = r.recorded ++ [a])
      (log : r'.journal.recorded = r.journal.recorded ++ [a])

theorem adds_record (ha : a ∉ heldNames H r.baseline) : Adds H r (r.record a) := by
  unfold record
  split
  · exact .none rfl rfl
  · rename_i hlists
    have hnew : ¬ r.Retains H a := by
      rintro (hheld | hlisted)
      · exact ha hheld
      · exact hlists (any_lists.mpr hlisted)
    unfold deliver
    split <;> exact .one a hnew rfl rfl

/-- Beside an honest baseline the traversal of an honest tree finds only names that are not
retained. -/
theorem adds_onward (inj : Function.Injective H) (hr : r.cache.Genuine H)
    (hw : Walk H (heldNames H r.baseline) r.traversal) (goes : Onward H agent r r') :
    Adds H r r' := by
  have hlooked : ∀ {r₁ : Reconciler} {w : Traversal}, Fetches H r r₁ →
      Adds H r { r₁ with traversal := w } := fun hf => .none hf.recorded hf.log
  cases goes with
  | resumed next mem consults found => exact hlooked (consults.look _).fetches
  | passedKnown next unresolved known => exact .none rfl rfl
  | openedNext next unresolved found => exact .none rfl rfl
  | putAside next above unresolved found consults =>
      exact hlooked ((fetches_look r _).trans consults.fetches)
  | leftNext next resolved isThrough => exact .none rfl rfl
  | openedCurrent current unresolved found => exact .none rfl rfl
  | leftCurrent current resolved isThrough => exact .none rfl rfl
  | @acted c m f fs n j plan planned meets =>
      obtain ⟨-, m', p, q, hplan, hmove⟩ := plan_spec inj hr hw meets
      rw [plan] at hplan
      obtain rfl := Except.ok.inj hplan
      cases m with
      | record =>
          obtain ⟨a, hleaf, -, ha⟩ := hmove.sorts
          have hadds : Adds H { r with cache := c, traversal := r.traversal.perform .record }
              (record { r with cache := c, traversal := r.traversal.perform .record } a) :=
            adds_record ha
          simp only [effect, hleaf]
          cases hadds with
          | none recorded log => exact .none recorded log
          | one b new recorded log => exact .one b new recorded log
      | share d => exact .none rfl rfl
      | skipNext => exact .none rfl rfl
      | skipCurrent => exact .none rfl rfl
      | skipBoth => exact .none rfl rfl
      | enterNext d => exact .none rfl rfl
      | enterCurrent d => exact .none rfl rfl
      | enterBoth d e => exact .none rfl rfl
      | leaveCurrent => exact .none rfl rfl

/-- The traversal of an honest tree stays under way. It does not matter which names are accounted
for. -/
theorem underway_onward (inj : Function.Injective H) (hr : r.cache.Genuine H)
    (hbaseline : ∀ d ∈ r.baseline, Honest H d)
    (h : Underway H (heldNames H r.baseline) (fun _ => True) [] z r.traversal)
    (goes : Onward H agent r r') :
    Underway H (heldNames H r.baseline) (fun _ => True) [] z r'.traversal := by
  cases goes with
  | resumed next mem consults found => exact h.restart inj hbaseline next mem
  | passedKnown next unresolved known => exact h.leaveNext next (fun _ _ => trivial)
  | openedNext next unresolved found =>
      exact h.resolveNext inj next unresolved (denotes_of_look hr found)
  | putAside next above unresolved found consults => exact h.putAside inj next unresolved
  | leftNext next resolved isThrough => exact h.leaveNext next (fun _ _ => trivial)
  | openedCurrent current unresolved found =>
      exact h.resolveCurrent inj current unresolved (denotes_of_look hr found)
  | leftCurrent current resolved isThrough => exact h.leaveCurrent current isThrough
  | acted plan planned meets =>
      obtain ⟨-, m', p, q, hplan, hmove⟩ := plan_spec inj hr h.walk meets
      rw [plan] at hplan
      obtain rfl := Except.ok.inj hplan
      rw [traversal_effect]
      exact h.passes_same hmove.toPasses (fun _ _ => trivial)

/-! ## The round that follows -/

/-- Between a round that is given up and the end of the next one, only names are found that were not
retained. -/
structure Renewed (H : Hashing) (r₀ r : Reconciler) : Prop extends r.Regular H where
  awaits : r.awaitsBaseline = false
  baseline : r.baseline = r₀.baseline
  extra : r.extra = r₀.extra
  log : r.journal.recorded = r₀.journal.recorded ++ r.recorded
  new : ∀ a ∈ r.recorded, ¬ r₀.Retains H a
  round : ∀ z ∈ r.round, Honest H z →
    Underway H (heldNames H r.baseline) (fun _ => True) [] z r.traversal

namespace Renewed

theorem foundSince_eq (h : Renewed H r₀ r) : foundSince r₀ r = r.recorded := by
  rw [foundSince, h.log, List.drop_left]

theorem unmoved (h : Renewed H r₀ r) (hr' : r'.Regular H) (same : Unmoved H r r') :
    Renewed H r₀ r' where
  toRegular := hr'
  awaits := same.awaitsBaseline.trans h.awaits
  baseline := same.baseline.trans h.baseline
  extra := same.extra.trans h.extra
  log := by rw [same.log, same.recorded, h.log]
  new := same.recorded ▸ h.new
  round := by
    rw [same.round, same.baseline, same.traversal]
    exact h.round

theorem choose (inj : Function.Injective H) (hbaseline : ∀ d ∈ r₀.baseline, Honest H d)
    (h : Renewed H r₀ r) (hround : r.round = none) (hr' : (r.choose H).Regular H) :
    Renewed H r₀ (r.choose H) := by
  have hturned := turned_choose h.genuine hround
  have hnothing : r.recorded = [] := h.resting hround
  have hrecorded : (r.choose H).recorded = [] := by
    rcases hturned.turn with idles | ⟨y, opens⟩
    · exact idles.recorded.trans hnothing
    · exact opens.recorded
  have hsame : (r.choose H).awaitsBaseline = false ∧ (r.choose H).baseline = r₀.baseline := by
    rcases hturned.baseline with ⟨hawaits, hsame⟩ | ⟨hawaited, -⟩
    · exact ⟨hawaits.trans h.awaits, hsame.trans h.baseline⟩
    · cases h.awaits.symm.trans hawaited
  refine ⟨hr', hsame.1, hsame.2, hturned.extra.trans h.extra, ?_, ?_, ?_⟩
  · rw [hturned.log, hrecorded, h.log, hnothing]
  · intro a ha
    rw [hrecorded] at ha
    cases ha
  · intro z hz hhonest
    rw [(hturned.opens hz).traversal, hsame.2]
    exact underway_begin inj _ hbaseline hhonest

theorem onward (inj : Function.Injective H) (hbaseline : ∀ d ∈ r₀.baseline, Honest H d)
    (h : Renewed H r₀ r) (hround : r.round = some z) (hhonest : Honest H z) (hr' : r'.Regular H)
    (goes : Onward H agent r r') : Renewed H r₀ r' := by
  have hc := goes.continues
  have hunderway := h.round z hround hhonest
  have hadds := adds_onward inj h.genuine hunderway.walk goes
  have hretains : ∀ a, r.Retains H a ↔ r₀.Retains H a := by
    intro a
    rw [Retains, Retains, h.baseline, h.extra]
  refine ⟨hr', hc.awaitsBaseline.trans h.awaits, hc.baseline.trans h.baseline,
    hc.extra.trans h.extra, ?_, ?_, ?_⟩
  · cases hadds with
    | none recorded log => rw [recorded, log, h.log]
    | one a new recorded log => rw [recorded, log, h.log, List.append_assoc]
  · intro a ha
    cases hadds with
    | none recorded log => exact h.new a (recorded ▸ ha)
    | one b new recorded log =>
        rw [recorded] at ha
        rcases List.mem_append.mp ha with ha | ha
        · exact h.new a ha
        · rw [List.mem_singleton.mp ha, ← hretains]
          exact new
  · intro z' hz' _
    rw [hc.round, hround] at hz'
    obtain rfl := Option.some.inj hz'
    rw [hc.baseline]
    exact underway_onward inj h.genuine (h.baseline ▸ hbaseline) hunderway goes

/-- An event goes on with the round, or ends it and finds nothing. -/
theorem turns (inj : Function.Injective H) (hbaseline : ∀ d ∈ r₀.baseline, Honest H d)
    (h : Renewed H r₀ r) (hhonest : ∀ z ∈ r.round, Honest H z) (hr' : r'.Regular H)
    (ht : Turns H r r') :
    Renewed H r₀ r' ∨ ¬ SameRound r r' ∧ r'.journal.recorded = r.journal.recorded := by
  cases ht with
  | stays same => exact .inl (h.unmoved hr' same)
  | chose round => exact .inl (h.choose inj hbaseline round hr')
  | went round goes => exact .inl (h.onward inj hbaseline round (hhonest _ round) hr' goes)
  | closed round next aside =>
      simp only [closeRound, round] at hr' ⊢
      exact .inr ⟨fun hsame => absurd hsame.1 (Nat.succ_ne_self _), trivial⟩
  | gaveUp round abandons =>
      cases abandons with
      | stalled fetches faults sameRound =>
          refine .inr ⟨fun hsame => ?_, fetches.log⟩
          exact absurd (hsame.2.trans sameRound.2.symm) (Nat.succ_ne_self _)
      | faulted plan meets => exact .inr ⟨fun hsame => absurd hsame.2 (Nat.succ_ne_self _), rfl⟩

end Renewed

/-- No round ends before the last event of the history, and each root that gets a round is honest. -/
def NextRound (H : Hashing) (r : Reconciler) (es : List Event) : Prop :=
  ∀ n < es.length, SameRound r (after H r (es.take n)) ∧
    ∀ z ∈ (after H r (es.take n)).round, Honest H z

theorem NextRound.of_concat {es : List Event} {e : Event} (h : NextRound H r (es ++ [e])) :
    NextRound H r es ∧ SameRound r (after H r es) ∧ ∀ z ∈ (after H r es).round, Honest H z := by
  have hlength : (es ++ [e]).length = es.length + 1 := by simp
  have htake : ∀ n ≤ es.length, (es ++ [e]).take n = es.take n :=
    fun n hn => List.take_append_of_le_length hn
  constructor
  · intro n hn
    have hn' := h n (by omega)
    rwa [htake n (le_of_lt hn)] at hn'
  · have hall := h es.length (by omega)
    rwa [htake es.length le_rfl, List.take_length] at hall

/-- Up to the end of the next round, nothing is found that was retained. -/
theorem Renewed.after (inj : Function.Injective H) (hbaseline : ∀ d ∈ r₀.baseline, Honest H d)
    (h : Renewed H r₀ r₀) {es : List Event} (hes : NextRound H r₀ es) :
    (SameRound r₀ (after H r₀ es) → Renewed H r₀ (after H r₀ es)) ∧
      ∀ a ∈ foundSince r₀ (Reconciler.after H r₀ es), ¬ r₀.Retains H a := by
  induction es using List.reverseRecOn with
  | nil =>
      refine ⟨fun _ => h, ?_⟩
      intro a ha
      exact h.new a (h.foundSince_eq ▸ ha)
  | append_singleton es e ih =>
      obtain ⟨hes, hsame, hhonest⟩ := hes.of_concat
      obtain ⟨hrenewed, hnew⟩ := ih hes
      have hbefore := hrenewed hsame
      rw [after_concat]
      rcases hbefore.turns inj hbaseline hhonest (hbefore.toRegular.on e)
        (hbefore.toRegular.turns e) with hnext | ⟨hends, hlog⟩
      · refine ⟨fun _ => hnext, ?_⟩
        intro a ha
        exact hnext.new a (hnext.foundSince_eq ▸ ha)
      · refine ⟨fun hsame' => absurd ?_ hends, ?_⟩
        · exact ⟨hsame'.1.trans hsame.1.symm, hsame'.2.trans hsame.2.symm⟩
        · rw [Reconciler.foundSince_eq r₀ hlog]
          exact hnew

/-- However a round is given up, nothing of it is left but what it found: the baseline stays as it is
if there is one, all that was remembered is retained, and up to the end of the next round none of it is
found again, if the root of that round is honest. -/
theorem abandoned_round_retained (inj : Function.Injective H) {c : Cache} (hgenuine : c.Genuine H)
    (start : Origin) (firstName : Option Name) (es : List Event)
    (hr : r = after H (create c start firstName) es) (hbaseline : ∀ d ∈ r.baseline, Honest H d)
    {e : Event} (hr' : r' = r.on H e) (habandoned : r'.tally.aborted ≠ r.tally.aborted) :
    r'.traversal = {} ∧ r'.round = none ∧ r'.queue.active = none ∧
      (∀ d ∈ r.baseline, r'.baseline = some d) ∧ (∀ a ∈ r.remembered, r'.Retains H a) ∧
      ∀ es', NextRound H r' es' → ∀ a ∈ r.remembered, a ∉ foundSince r' (after H r' es') := by
  have hregular : r.Regular H := hr ▸ (regular_create hgenuine start firstName).after es
  have hregular' : r'.Regular H := hr' ▸ hregular.on e
  obtain ⟨y, hround, habandons⟩ := (hr' ▸ hregular.turns e).abandons habandoned
  have hawaits : r.awaitsBaseline = false := hregular.awaits_false hround
  obtain ⟨r₁, hf, rfl⟩ := habandons.fetches
  have hbaseline₁ : ∀ d ∈ r₁.baseline, Honest H d := hf.baseline ▸ hbaseline
  have hretains : ∀ a ∈ r.remembered, (r₁.abandonRound H).Retains H a := by
    rw [← hf.remembered]
    exact fun a ha => retains_abandonRound inj (hf.keeps.genuine hregular.genuine) hbaseline₁ ha
  refine ⟨rfl, rfl, rfl, ?_, hretains, ?_⟩
  · intro d hd
    have hd₁ : r₁.baseline = some d := hf.baseline.trans hd
    simp only [abandonRound, hd₁, Option.some_or]
  · intro es' hes' a ha hfound
    have hrenewed : Renewed H (r₁.abandonRound H) (r₁.abandonRound H) := by
      refine ⟨hregular', hf.awaitsBaseline.trans hawaits, rfl, rfl, (List.append_nil _).symm, ?_, ?_⟩
      · intro a ha
        cases ha
      · intro z hz
        cases hz
    have hnew := (hrenewed.after inj (honest_abandonRound inj hbaseline₁) hes').2
    exact hnew a hfound (hretains a ha)

end Reconciler

namespace Sample

/-- The round that was stalled is given up. Then its root is announced once more, and the branch that
was missing has come. -/
def renewing : List Event :=
  stepping 1 ++ [.announce (root branching), fetched (flat [2])] ++ stepping 12

end Sample

namespace Reconciler

open Sample in
/-- The name `1` was found before the round was given up; the round that compares the same root to its
end does not find it again. -/
theorem abandoned_round_retained_renewing :
    let r' := stalled.on Digest.mk (.step .accepting)
    stalled.remembered = [name 1] ∧ r'.tally.aborted = 1 ∧ r'.round = none ∧
      r'.Retains Digest.mk (name 1) ∧ (after Digest.mk r' renewing).tally.completed = 1 ∧
      name 1 ∉ foundSince r' (after Digest.mk r' renewing) := by
  have hbaseline : ∀ d ∈ stalled.baseline, Honest Digest.mk d := by
    have hstalled : stalled.baseline = some (root (flat [3])) := by decide +kernel
    intro d hd
    rw [hstalled] at hd
    exact Option.some.inj hd ▸ ⟨_, honestTree_flat [3]⟩
  have hremembered : stalled.remembered = [name 1] := by decide +kernel
  have hmem : name 1 ∈ stalled.remembered := hremembered ▸ List.mem_singleton_self _
  have hnext : NextRound Digest.mk (stalled.on Digest.mk (.step .accepting)) renewing := by
    have hprefix : ∀ n < renewing.length,
        let r := after Digest.mk (stalled.on Digest.mk (.step .accepting)) (renewing.take n)
        r.tally.completed = 0 ∧ r.tally.aborted = 1 ∧ ∀ z ∈ r.round, z = root branching := by
      decide +kernel
    intro n hn
    obtain ⟨hcompleted, haborted, hround⟩ := hprefix n hn
    exact ⟨⟨hcompleted, haborted⟩, fun z hz => hround z hz ▸ ⟨_, honestTree_branching⟩⟩
  obtain ⟨-, hround, -, -, hretains, hfound⟩ := abandoned_round_retained injective_mk
    (Cache.genuine_ofAttempts 1) (.root (root (flat [3]))) none stalling (r := stalled) rfl hbaseline
    (e := .step .accepting) rfl (by decide +kernel)
  exact ⟨hremembered, by decide +kernel, hround, hretains _ hmem, by decide +kernel,
    hfound _ hnext _ hmem⟩

end Reconciler

end Reconcile

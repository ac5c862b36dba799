import Reconcile.Proofs.Reconciler.Tracking
import Reconcile.Proofs.Traversal.Vetting

/-! # Which trees become a baseline

A root becomes the baseline when its round is through. By then every node of its tree was vetted: its
own names ascend and lie in its range. But a branch that is met again is passed over as known, so
nobody checks it against the names before it. As a baseline such a tree is walked again, and what
was passed over before may be entered now: there the round of a later root fails, however good that root
is. -/

namespace Reconcile

namespace Reconciler

open Traversal

variable {H : Hashing} {agent : Agent} {r r' : Reconciler} {x y : Digest}

/-- Everything that is taken for known, the baseline above all, consists of vetted nodes. -/
structure Accepts (H : Hashing) (r : Reconciler) : Prop extends r.Tracks H where
  awaits : r.awaitsBaseline = false
  known : ∀ d, r.cache.known d = true → VettedBut H (fun _ => False) d
  accepted : ∀ d ∈ r.baseline, VettedBut H (fun _ => False) d
  vets : ∀ y ∈ r.round, r.traversal.Vets H y

namespace Accepts

/-- A branch at the current side belongs to the baseline. -/
theorem current (h : r.Accepts H) (hround : r.round = some y) {g : Frame} {gs : List Frame} {n : Node}
    {d : Digest} (hcurrent : r.traversal.current = g :: gs) (hg : g.At n (.ref d)) :
    VettedBut H (fun _ => False) d := by
  have halong := (h.round y hround).current
  rw [hcurrent] at halong
  obtain ⟨x, hx, halong⟩ := halong.along
  exact (h.accepted x hx).branch ((halong.within g List.mem_cons_self).item hg)

/-- A step that goes on vets what it passes, and takes only vetted trees for known. -/
theorem onward (inj : Function.Injective H) (h : r.Accepts H) (hround : r.round = some y)
    (goes : Onward H agent r r') :
    (∀ d, r'.cache.known d = true → VettedBut H (fun _ => False) d) ∧ r'.traversal.Vets H y := by
  have hvets := h.vets y hround
  obtain ⟨e, -, halong⟩ := (h.round y hround).next
  have hkept : ∀ {c : Cache}, Cache.Keeps H r.cache c →
      ∀ d, c.known d = true → VettedBut H (fun _ => False) d :=
    fun hc d hd => h.known d (hc.known d ▸ hd)
  have hmarked : ∀ {c : Cache} {d : Digest}, (∀ d, c.known d = r.cache.known d) →
      VettedBut H (fun _ => False) d →
      ∀ d', (c.markKnown d).known d' = true → VettedBut H (fun _ => False) d' := by
    intro c d hc hd d' hd'
    rw [Cache.known_markKnown, Bool.or_eq_true, decide_eq_true_eq] at hd'
    rcases hd' with rfl | hd'
    · exact hd
    · exact h.known d' (hc d' ▸ hd')
  cases goes with
  | @resumed r₁ d n next mem consults found =>
      exact ⟨hkept (consults.look d).fetches.keeps, hvets.restart next r.baseline d⟩
  | @passedKnown f fs next unresolved known =>
      refine ⟨h.known, hvets.leave next ?_⟩
      exact (h.known f.digest known).mono (fun _ => False.elim)
  | @openedNext f fs n next unresolved found =>
      rw [next] at halong
      refine ⟨hkept (fetches_look r f.digest).keeps, hvets.resolve next ?_ n⟩
      exact (halong.within f List.mem_cons_self).start unresolved
  | putAside next above unresolved found consults =>
      exact ⟨hkept ((fetches_look r _).trans consults.fetches).keeps, hvets.putAside next⟩
  | @leftNext f fs n next resolved isThrough =>
      rw [next] at halong
      have hdenotes := ((halong.within f List.mem_cons_self).denotes n resolved).1
      have hf := hvets.vettedBut_of_isThrough inj next resolved isThrough hdenotes
      refine ⟨?_, hvets.leave next hf⟩
      unfold leaveNext
      cases hincomplete : f.incomplete with
      | true => exact h.known
      | false =>
          refine hmarked (fun _ => rfl) (hf.mono ?_)
          intro e he
          cases hincomplete.symm.trans he.1
  | openedCurrent current unresolved found =>
      exact ⟨hkept (fetches_look r _).keeps, ⟨hvets.checked, hvets.nested, hvets.branches⟩⟩
  | leftCurrent current resolved isThrough =>
      exact ⟨h.known, ⟨hvets.checked, hvets.nested, hvets.branches⟩⟩
  | @acted c m f fs n j plan planned meets =>
      have hkeeps := keeps_of_plan plan
      have hcurrent : ∀ g gs n' d, r.traversal.current = g :: gs → g.At n' (.ref d) →
          VettedBut H (fun _ => False) d := fun _ _ _ _ => h.current hround
      rw [traversal_effect]
      refine ⟨?_, hvets.perform (congrArg Prod.snd plan) planned h.known hcurrent⟩
      have haffects := affects_effect { r with cache := c, traversal := r.traversal.perform m }
        r.traversal m
      generalize effect _ r.traversal m = r' at haffects ⊢
      cases haffects with
      | nothing => exact hkept hkeeps
      | records name handsOut => exact hkept hkeeps
      | @marks d =>
          obtain ⟨-, -, -, hchosen⟩ := planned
          generalize hw : r.traversal.current = current at hchosen
          cases hchosen with
          | share position => exact hmarked hkeeps.known (hcurrent _ _ _ _ hw position)

/-- A round that is through has vetted its tree, which becomes the baseline. -/
theorem closeRound (h : r.Accepts H) (hround : r.round = some y) (hnext : r.traversal.next = [])
    (haside : r.traversal.aside = []) (htracks : (r.closeRound H).Tracks H) :
    (r.closeRound H).Accepts H := by
  have hy := (h.vets y hround).vetted hnext haside
  obtain ⟨hkeeps, -⟩ := Cache.sift_sub (H := H) r.cache (some y) r.remembered
  unfold Reconciler.closeRound at htracks ⊢
  simp only [hround] at htracks ⊢
  refine { htracks with awaits := h.awaits, known := ?_, accepted := ?_, vets := ?_ }
  · intro d hd
    rw [Cache.known_markKnown, Bool.or_eq_true, decide_eq_true_eq] at hd
    rcases hd with rfl | hd
    · exact hy
    · exact h.known d (hkeeps.known d ▸ hd)
  · intro d hd
    exact Option.some.inj hd ▸ hy
  · intro z hz
    cases hz

/-- The stand-in for a round that is given up is vetted. -/
theorem abandonRound (inj : Function.Injective H) (h : r.Accepts H) (hf : Fetches H r r')
    (htracks : (r'.abandonRound H).Tracks H) : (r'.abandonRound H).Accepts H := by
  obtain ⟨hkeeps, -⟩ := Cache.sift_sub (H := H) r'.cache r'.baseline r'.remembered
  refine { htracks with
    awaits := hf.awaitsBaseline.trans h.awaits, known := ?_, accepted := ?_,
    vets := fun z hz => (nomatch hz) }
  · intro d hd
    exact h.known d (hf.keeps.known d ▸ hkeeps.known d ▸ hd)
  · intro d hd
    rcases mem_baseline_abandonRound hd with hd | ⟨names, hd⟩
    · exact h.accepted d (hf.baseline ▸ hd)
    · exact vettedBut_of_ordered inj (ordered_of_honest inj (Cache.honest_standIn inj hd).1)

theorem on (inj : Function.Injective H) (h : r.Accepts H) (e : Event) : (r.on H e).Accepts H := by
  have htracks := h.toTracks.on inj e
  have hturns := h.turns e
  generalize r.on H e = r' at hturns htracks
  cases hturns with
  | stays same =>
      refine { htracks with
        awaits := same.awaitsBaseline.trans h.awaits, known := ?_, accepted := ?_, vets := ?_ }
      · exact fun d hd => h.known d (same.keeps.known d ▸ hd)
      · rw [same.baseline]
        exact h.accepted
      · rw [same.round, same.traversal]
        exact h.vets
  | chose round =>
      have hturned := turned_choose h.genuine round
      obtain ⟨hawaits, hbaseline⟩ := hturned.baseline.resolve_right
        (fun hawaited => nomatch h.awaits.symm.trans hawaited.1)
      refine { htracks with awaits := hawaits.trans h.awaits, known := ?_, accepted := ?_, vets := ?_ }
      · rw [hturned.known]
        exact h.known
      · rw [hbaseline]
        exact h.accepted
      · intro y hy
        rw [(hturned.opens hy).traversal]
        exact vets_begin _ _
  | @went agent _ y round goes =>
      have hc := goes.continues
      obtain ⟨hknown, hvets⟩ := h.onward inj round goes
      refine { htracks with
        awaits := hc.awaitsBaseline.trans h.awaits, known := hknown, accepted := ?_, vets := ?_ }
      · rw [hc.baseline]
        exact h.accepted
      · intro z hz
        obtain rfl := Option.some.inj ((hc.round.trans round).symm.trans hz)
        exact hvets
  | closed round next aside => exact h.closeRound round next aside htracks
  | gaveUp round abandons =>
      obtain ⟨r₁, hf, rfl⟩ := abandons.fetches
      exact h.abandonRound inj hf htracks

theorem after (inj : Function.Injective H) (h : r.Accepts H) (es : List Event) :
    (after H r es).Accepts H :=
  after_induction h (fun _ e _ h => h.on inj e)

end Accepts

/-- A reconciler that starts from nothing takes nothing for known that it did not vet. -/
theorem accepts_create {c : Cache} (hgenuine : c.Genuine H) (hknown : ∀ d, c.known d = false)
    (firstName : Option Name) : (create c .empty firstName).Accepts H :=
  { tracks_create hgenuine .empty firstName with
    awaits := rfl
    known := fun d hd => nomatch (hknown d).symm.trans hd
    accepted := fun _ hd => nomatch hd
    vets := fun _ hy => nomatch hy }

end Reconciler

namespace Traversal

/-- The current side is at the name `a` and has passed `b` last, but `a` does not come after `b`. -/
def Descends (w : Traversal) (b a : Name) : Prop :=
  (∃ g gs n, w.current = g :: gs ∧ g.At n (.leaf a)) ∧ w.lastCurrent = some b ∧ a ≤ b

end Traversal

namespace Reconciler

open Traversal

variable {H : Hashing} {r : Reconciler} {y z : Digest}

/-- Beside a root in order, a tree that was accepted is refused just where its names do not ascend. -/
theorem Accepts.plan_fails_iff (inj : Function.Injective H) (h : r.Accepts H)
    (hround : r.round = some z) (hz : Ordered H z) (hmeets : r.traversal.Meets) :
    (∃ e, (Traversal.plan H r.cache r.traversal).2 = .error e) ↔
      Unknown r.cache r.traversal ∧ ∃ b a, r.traversal.Descends b a := by
  obtain ⟨e, he, halong⟩ := (h.round z hround).next
  have hbranch : Ordered H e := by
    obtain ⟨l, hl⟩ := hz
    exact hl.of_leads inj he
  have hnext : ∀ e, ¬ Refused .next r.traversal.next r.traversal.lastNext e :=
    fun e => not_refused inj hbranch halong
  have hspans : ∀ {g gs n a}, r.traversal.current = g :: gs → g.At n (.leaf a) →
      n.spans a = true := by
    intro g gs n a hg hat
    have halong := (h.round z hround).current
    rw [hg] at halong
    obtain ⟨x, hx, halong⟩ := halong.along
    have hwithin := halong.within g List.mem_cons_self
    have hvetted := (h.accepted x hx g.digest hwithin.leads).resolve_left id
    exact (hvetted n (hwithin.denotes n hat.node).1).spans a hat.mem
  constructor
  · rintro ⟨e, hplan⟩
    obtain ⟨hunknown, g, gs, n, a, hg, hat, hcheck⟩ :=
      (refused_of_plan hmeets hplan).resolve_left (hnext e)
    refine ⟨hunknown, ?_⟩
    rcases checkName_eq_error hcheck with ⟨hout, -⟩ | ⟨-, ⟨b, hb, hab⟩, -⟩
    · cases (hspans hg hat).symm.trans hout
    · exact ⟨b, a, ⟨g, gs, n, hg, hat⟩, hb, hab⟩
  · rintro ⟨hunknown, b, a, ⟨g, gs, n, hg, hat⟩, hb, hab⟩
    cases hcheck : checkName .current n r.traversal.lastCurrent a with
    | ok u => exact absurd hab (not_le_of_gt ((checkName_eq_ok_iff.mp hcheck).2 b hb))
    | error e => exact ⟨e, plan_of_refused hunknown hnext ⟨g, gs, n, a, hg, hat, hcheck⟩⟩

/-- When a reconciler starts from nothing, a round of a root in order fails just where the baseline
comes to a name that does not come after the last one, while the next item is not known. All nodes of
the baseline were vetted when it was accepted, but the tree as a whole lists the two names the wrong way
round. -/
theorem accepted_baseline_malformed_iff (inj : Function.Injective H) {c : Cache}
    (hgenuine : c.Genuine H) (hknown : ∀ d, c.known d = false) (firstName : Option Name)
    (es : List Event) (hr : r = after H (create c .empty firstName) es) (hround : r.round = some z)
    (hz : Ordered H z) (agent : Agent) :
    ((r.step H agent).2 = some .malformed ↔ r.phase = .comparing ∧ r.traversal.Meets ∧
        Unknown r.cache r.traversal ∧ ∃ b a, r.traversal.Descends b a) ∧
      ∀ b a, r.traversal.Descends b a → ∃ x, r.baseline = some x ∧
        VettedBut H (fun _ => False) x ∧
        ∀ l, Tree H (fun _ _ => True) x l → [b, a].Sublist l := by
  have h : r.Accepts H := hr ▸ (accepts_create hgenuine hknown firstName).after inj es
  constructor
  · rw [step_malformed_iff]
    refine and_congr_right (fun _ => and_congr_right (fun hmeets => ?_))
    exact h.plan_fails_iff inj hround hz hmeets
  · rintro b a ⟨⟨g, gs, n, hg, hat⟩, hb, -⟩
    have halong := (h.round z hround).current
    rw [hg] at halong
    obtain ⟨x, hx, halong⟩ := halong.along
    refine ⟨x, hx, h.accepted x hx, ?_⟩
    intro l hl
    rw [← hl.listing_eq inj]
    exact (halong.track hl.whole).sublist hb (Along.mem_namesLeft hat)

end Reconciler

namespace Sample

/-- A node that refers to the same branch twice. -/
def twofold : Node where
  items := [.ref (root (flat [2])), .ref (root (flat [2]))]
  least := name 2
  greatest := name 2
  count := 2

/-- Two branches with one name each, one on either side of `2`. -/
def parting : Node where
  items := [.ref (root (flat [1])), .ref (root (flat [3]))]
  least := name 1
  greatest := name 3
  count := 2

theorem honest_parting : Honest Digest.mk (root parting) := by
  refine ⟨_, @Tree.node _ _ _ _
    (fun d => if d = root (flat [1]) then ascending ([1].map name) else ascending ([3].map name))
    (denotes_digest Digest.mk parting) ?_ ⟨by decide +kernel, by decide +kernel, ?_, ?_⟩⟩
  · intro e he
    have he : e = root (flat [1]) ∨ e = root (flat [3]) := by
      simpa [parting, Node.refs, Item.ref?] using he
    split
    · rename_i hfirst
      exact hfirst ▸ honestTree_flat [1]
    · rename_i hfirst
      exact he.resolve_left hfirst ▸ honestTree_flat [3]
  · decide +kernel
  · decide +kernel

/-- The twofold tree is accepted, for its branch is known the second time. Then a good root follows. -/
def recurring : List Event :=
  [.announce (root twofold), fetched (flat [2]), fetched twofold, .call] ++ stepping 10 ++
    [.announce (root parting), fetched (flat [1]), fetched (flat [3]), fetched parting, .call] ++
    stepping 15

/-- A reconciler that started from nothing and compares the good root with the twofold tree. -/
def blocked : Reconciler :=
  Reconciler.after Digest.mk (.create (.ofAttempts 3) .empty none) recurring

end Sample

namespace Reconciler

open Sample in
/-- The round of the good root fails at the second occurrence of `2` in the baseline. -/
theorem accepted_baseline_malformed_iff_blocked :
    blocked.baseline = some (root twofold) ∧ Honest Digest.mk (root parting) ∧
      blocked.round = some (root parting) ∧ (∃ b a, blocked.traversal.Descends b a) ∧
      (blocked.step Digest.mk .accepting).2 = some .malformed := by
  have hround : blocked.round = some (root parting) := by decide +kernel
  have hmalformed : (blocked.step Digest.mk .accepting).2 = some .malformed := by decide +kernel
  obtain ⟨hiff, -⟩ := accepted_baseline_malformed_iff (r := blocked) injective_mk
    (Cache.genuine_ofAttempts 3) (Cache.known_ofAttempts 3) none recurring rfl hround
    (ordered_of_honest injective_mk honest_parting) .accepting
  obtain ⟨-, -, -, hdescends⟩ := hiff.mp hmalformed
  exact ⟨by decide +kernel, honest_parting, hround, hdescends, hmalformed⟩

end Reconciler

end Reconcile

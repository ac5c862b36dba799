import Reconcile.Proofs.Digest.Order
import Reconcile.Proofs.Reconciler.Intake
import Reconcile.Proofs.Reconciler.Regular

/-! # Which root comes next

Every waiting root that is worth a round is chosen or goes on waiting, and the one that is chosen is the
greatest of them. Only a body can get lost: it is refused if wrong bytes lie unread under its
digest. -/

namespace Reconcile

namespace Reconciler

open Traversal

variable {H : Hashing} {agent : Agent} {r r' : Reconciler} {outcome : Option Outcome} {d y : Digest}

/-! ## The queue -/

/-- No root waits twice, and the root of the round in progress does not wait. -/
structure Tidy (r : Reconciler) : Prop where
  nodup : r.queue.roots.Nodup
  active : r.queue.active = r.round
  apart : ∀ y ∈ r.round, y ∉ r.queue.roots

/-- What an event does to the roots that wait. -/
inductive Queues (H : Hashing) (r : Reconciler) : Reconciler → Prop
  | stays {r' : Reconciler} (roots : r'.queue.roots = r.queue.roots)
      (active : r'.queue.active = r.queue.active) (round : r'.round = r.round) : Queues H r r'
  | joins {r' : Reconciler} {d : Digest} (new : d ∉ r.queue.roots)
      (apart : r.queue.active ≠ some d) (roots : r'.queue.roots = r.queue.roots ++ [d])
      (active : r'.queue.active = r.queue.active) (round : r'.round = r.round) : Queues H r r'
  | ends {r' : Reconciler} (roots : r'.queue.roots = r.queue.roots)
      (active : r'.queue.active = none) (round : r'.round = none) : Queues H r r'
  | chose (phase : r.phase = .choosing) : Queues H r (r.choose H)

theorem queues_of_fetches (h : Fetches H r r') : Queues H r r' :=
  .stays (by rw [h.queue]) (by rw [h.queue]) h.round

theorem Regular.queues_paced (h : r.Regular H) (hr : Paced H agent r r' outcome) :
    Queues H r r' := by
  cases hr with
  | chose phase => exact .chose phase
  | @loaded r' phase loaded =>
      obtain ⟨P, hconsults⟩ := loaded.consults
      have hf : Fetches H r r' := hconsults.fetches
      exact .stays (congrArg Queue.roots hf.queue) (congrArg Queue.active hf.queue) hf.round
  | waits phase consults => exact queues_of_fetches consults.fetches
  | went phase goes =>
      have hc := goes.continues
      exact .stays (congrArg Queue.roots hc.queue) (congrArg Queue.active hc.queue) hc.round
  | closed phase next aside =>
      obtain ⟨y, hround⟩ := h.exists_round (.inr phase)
      unfold Reconciler.closeRound
      simp only [hround]
      exact .ends rfl rfl rfl
  | halted halts idle =>
      obtain ⟨P, hconsults⟩ := halts.consults
      exact queues_of_fetches hconsults.fetches
  | @gaveUp r' halts work =>
      obtain ⟨P, hconsults⟩ := halts.consults
      have hf : Fetches H r r' := hconsults.fetches
      have hroots : r'.queue.roots = r.queue.roots := by rw [hf.queue]
      exact .ends hroots rfl rfl
  | faulted phase plan meets => exact .ends rfl rfl rfl
  | woke phase work => exact .stays rfl rfl rfl
  | rested phase idle => exact .stays rfl rfl rfl

theorem Regular.queues (h : r.Regular H) (e : Event) : Queues H r (r.on H e) := by
  cases e with
  | announce d =>
      simp only [Reconciler.on, announce]
      split
      · exact .stays rfl rfl rfl
      · rename_i hnew
        have hnew : d ∉ r.queue.roots ∧ r.queue.active ≠ some d := by simpa using hnew
        exact .joins hnew.1 hnew.2 rfl rfl rfl
  | handIn bytes => exact .stays rfl rfl rfl
  | complete d result => exact .stays rfl rfl rfl
  | call => exact .stays rfl rfl rfl
  | step agent => exact h.queues_paced (paced_step agent r)

/-! ## Choosing -/

theorem nodup_addMissing {roots : List Digest} (h : roots.Nodup) (ds : List Digest) :
    (addMissing roots ds).Nodup := by
  induction ds generalizing roots with
  | nil => exact h
  | cons d ds ih =>
      rw [addMissing]
      split
      · exact ih h
      · rename_i hmem
        have hmem : d ∉ roots := by simpa using hmem
        exact ih (List.concat_eq_append ▸ h.concat hmem)

/-- A root that is waiting may be chosen: a waiting body decodes if it is one, and the root is neither the
baseline that there is then nor known. -/
def Candidate (H : Hashing) (r r' : Reconciler) (d : Digest) : Prop :=
  (d ∈ r.queue.roots ∨ ∃ body ∈ r.queue.bodies, H body = d ∧ ∃ n, Node.decode body = .ok n) ∧
    some d ≠ r'.baseline ∧ r.cache.known d = false

/-- Only bodies with the digest are waiting, wrong bytes lie unread under it, and every such body that
decodes is the first. -/
def Obstructed (H : Hashing) (r : Reconciler) (d : Digest) : Prop :=
  d ∉ r.queue.roots ∧ (r.cache.slot d).Obscured H d ∧
    ∀ front body back, r.queue.bodies = front ++ body :: back → H body = d →
      (∃ n, Node.decode body = .ok n) → d ∉ front.map H

/-- The round of `y` is started. The other candidates go on waiting, but those that are obstructed are
lost. -/
structure Selects (H : Hashing) (r r' : Reconciler) (y : Digest) : Prop where
  waiting : y ∈ r.queue.roots ∨ r.cache.Takes H r.queue.bodies y
  unknown : some y ≠ r'.baseline ∧ r.cache.known y = false
  greatest : ∀ d, r.Candidate H r' d → ¬ r.Obstructed H d → d ≤ y
  kept : ∀ d, r.Candidate H r' d → ¬ r.Obstructed H d → d = y ∨ d ∈ r'.queue.roots
  lost : ∀ d, r.Candidate H r' d → r.Obstructed H d → d ≠ y ∧ d ∉ r'.queue.roots
  left : ∀ d ∈ r'.queue.roots, d < y ∧ (d ∈ r.queue.roots ∨ r.cache.Takes H r.queue.bodies d)

theorem lt_getLast {ds : List Digest} (hds : ds.Pairwise (· < ·)) (hlast : ds.getLast? = some y) :
    (∀ d, d ∈ ds ↔ d = y ∨ d ∈ ds.dropLast) ∧ ∀ d ∈ ds.dropLast, d < y := by
  have hsplit : ds = ds.dropLast ++ [y] := (List.dropLast_append_getLast? y hlast).symm
  refine ⟨?_, ?_⟩
  · intro d
    rw [hsplit]
    simp [or_comm]
  · intro d hd
    rw [hsplit] at hds
    exact (List.pairwise_append.mp hds).2.2 d hd y (List.mem_singleton_self y)

/-- A decodable body gets lost just when it is obstructed. -/
theorem takes_iff_not_obstructed (hroots : d ∉ r.queue.roots) {body : Bytes}
    (hbody : body ∈ r.queue.bodies) (hdigest : H body = d) (hdecodes : ∃ n, Node.decode body = .ok n) :
    r.cache.Takes H r.queue.bodies d ↔ ¬ r.Obstructed H d := by
  constructor
  · rintro ⟨front, b, back, hsplit, hb, hshown | ⟨hb', hclear⟩⟩ ⟨-, hobscured, hfirst⟩
    · obtain ⟨n, hn⟩ := hshown
      have hnone : ((r.cache.slot d).look H d).node? = none :=
        Slot.node?_eq_none_of_body hobscured.look
      cases hnone.symm.trans hn
    · rcases hclear with hclear | hmem
      · exact hclear hobscured
      · exact hfirst front b back hsplit hb hb' hmem
  · intro hclear
    by_cases hobscured : (r.cache.slot d).Obscured H d
    · have hsecond : ¬ ∀ front body back, r.queue.bodies = front ++ body :: back → H body = d →
          (∃ n, Node.decode body = .ok n) → d ∉ front.map H := fun h => hclear ⟨hroots, hobscured, h⟩
      push Not at hsecond
      obtain ⟨front, b, back, hsplit, hb, hb', hmem⟩ := hsecond
      exact ⟨front, b, back, hsplit, hb, .inr ⟨hb', .inr hmem⟩⟩
    · obtain ⟨front, back, hsplit⟩ := List.append_of_mem hbody
      exact ⟨front, body, back, hsplit, hdigest, .inr ⟨hdecodes, .inl hobscured⟩⟩

/-- What choosing comes to: nothing is chosen, or the greatest of the roots and taken bodies that are
neither the baseline nor known. -/
theorem choose_greatest (hr : r.cache.Genuine H) (hround : r.round = none) :
    (r.choose H).queue.active = (r.choose H).round ∧
    ((r.choose H).round = none ∧ (r.choose H).queue.roots.Sublist r.queue.roots ∧
        (∀ d, d ∈ r.queue.roots ∨ r.cache.Takes H r.queue.bodies d → d ∈ (r.choose H).queue.roots ∨
          some d = (r.choose H).baseline ∨ r.cache.known d = true) ∨
      ∃ y, (r.choose H).round = some y ∧ (r.choose H).queue.roots.Nodup ∧
        (∀ d ∈ (r.choose H).queue.roots, d < y) ∧
        ∀ d, d = y ∨ d ∈ (r.choose H).queue.roots ↔
          (d ∈ r.queue.roots ∨ r.cache.Takes H r.queue.bodies d) ∧
            some d ≠ (r.choose H).baseline ∧ r.cache.known d = false) := by
  obtain ⟨mid, ds, htake, htaking, hchoice⟩ := choose_cases hr
  have hround' : mid.round = none := (congrArg Ledger.round (ledger_of_taking htaking)).trans hround
  have hds : ∀ d, some d ≠ mid.baseline → (d ∈ ds ↔ r.cache.Takes H r.queue.bodies d) := by
    intro d hd
    have htook : some d ≠
        (takeBodies H r.queue.bodies [] { r with queue.bodies := [] }).1.baseline := by
      rwa [htake]
    have hmem := mem_takeBodies htook
    rw [htake] at hmem
    simpa using hmem
  have hmem : ∀ d, d ∈ candidates r.cache.known r.ledger mid.awaitsBaseline mid.baseline ds ↔
      (r.cache.Takes H r.queue.bodies d ∨ mid.awaitsBaseline = false ∧ d ∈ r.queue.roots) ∧
        some d ≠ mid.baseline ∧ r.cache.known d = false := by
    intro d
    rw [mem_candidates]
    refine and_congr_left ?_
    rintro ⟨hd, -⟩
    rw [hds d hd]
    rfl
  rcases hchoice with ⟨hnone, hchoose⟩ | ⟨best, hbest, hchoose⟩
  · rw [hchoose]
    refine ⟨hround'.symm, .inl ⟨hround', ?_, ?_⟩⟩
    · cases mid.awaitsBaseline with
      | true => exact .refl _
      | false => exact List.nil_sublist _
    · intro d hd
      have hnot : (r.cache.Takes H r.queue.bodies d ∨ mid.awaitsBaseline = false ∧
          d ∈ r.queue.roots) → some d = mid.baseline ∨ r.cache.known d = true := by
        intro hwaiting
        by_contra hunknown
        rw [not_or, Bool.not_eq_true] at hunknown
        have hcandidate := (hmem d).mpr ⟨hwaiting, hunknown⟩
        rw [hnone] at hcandidate
        cases hcandidate
      rcases hd with hroots | htaken
      · cases hawaits : mid.awaitsBaseline with
        | true => exact .inl hroots
        | false => exact .inr (hnot (.inr ⟨hawaits, hroots⟩))
      · exact .inr (hnot (.inl htaken))
  · have hsorted : (candidates r.cache.known r.ledger mid.awaitsBaseline mid.baseline ds).Pairwise
        (· < ·) := pairwise_ascending _
    have hsettled : mid.awaitsBaseline = false := by
      cases hawaits : mid.awaitsBaseline with
      | false => rfl
      | true =>
          have hadoption := adoption_of_taking htaking
          rw [hawaits] at hadoption hbest
          rw [hadoption.candidates_eq_nil] at hbest
          cases hbest
    have hkept : r.ledger.kept mid.awaitsBaseline = [] := by
      rw [hsettled]
      rfl
    rw [hkept] at hchoose
    generalize candidates r.cache.known r.ledger mid.awaitsBaseline mid.baseline ds = cs at *
    obtain ⟨hlast, hless⟩ := lt_getLast hsorted hbest
    have hleft : ∀ d, d ∈ addMissing [] cs.dropLast ↔ d ∈ cs.dropLast :=
      fun d => mem_addMissing.trans (or_iff_right List.not_mem_nil)
    rw [hchoose]
    refine ⟨rfl, .inr ⟨best, rfl, nodup_addMissing List.nodup_nil _, ?_, ?_⟩⟩
    · intro d hd
      exact hless d ((hleft d).mp hd)
    · intro d
      have hd := (hlast d).symm.trans (hmem d)
      rw [← hleft] at hd
      simpa [openRound, hsettled, or_comm] using hd

theorem selects_choose (hr : r.cache.Genuine H) (hround : r.round = none)
    (hy : (r.choose H).round = some y) : Selects H r (r.choose H) y := by
  rcases (choose_greatest hr hround).2 with ⟨hnone, -, -⟩ | ⟨best, hbest, -, hless, hmem⟩
  · cases hnone.symm.trans hy
  · obtain rfl : best = y := Option.some.inj (hbest.symm.trans hy)
    obtain ⟨hwaiting, hunknown⟩ := (hmem best).mp (.inl rfl)
    have htaken : ∀ d, r.Candidate H (r.choose H) d →
        ((d ∈ r.queue.roots ∨ r.cache.Takes H r.queue.bodies d) ↔ ¬ r.Obstructed H d) := by
      rintro d ⟨hd, -⟩
      by_cases hroots : d ∈ r.queue.roots
      · exact iff_of_true (.inl hroots) (fun h => h.1 hroots)
      · obtain ⟨body, hbody, hdigest, hdecodes⟩ := hd.resolve_left hroots
        rw [or_iff_right hroots, takes_iff_not_obstructed hroots hbody hdigest hdecodes]
    have hkept : ∀ d, r.Candidate H (r.choose H) d → ¬ r.Obstructed H d →
        d = best ∨ d ∈ (r.choose H).queue.roots :=
      fun d hd hclear => (hmem d).mpr ⟨(htaken d hd).mpr hclear, hd.2⟩
    refine ⟨hwaiting, hunknown, ?_, hkept, ?_, ?_⟩
    · intro d hd hclear
      rcases hkept d hd hclear with rfl | hd
      · exact le_refl _
      · exact le_of_lt (hless d hd)
    · intro d hd hobstructed
      rw [← not_or]
      intro hstays
      exact (htaken d hd).mp ((hmem d).mp hstays).1 hobstructed
    · intro d hd
      exact ⟨hless d hd, ((hmem d).mp (.inr hd)).1⟩

/-! ## Histories -/

theorem Tidy.on (h : r.Tidy) (hr : r.Regular H) (e : Event) : (r.on H e).Tidy := by
  have hqueues := hr.queues e
  generalize r.on H e = r' at hqueues
  cases hqueues with
  | stays roots active round =>
      refine ⟨roots ▸ h.nodup, ?_, ?_⟩
      · rw [active, round, h.active]
      · rw [round, roots]
        exact h.apart
  | @joins r' d new apart roots active round =>
      refine ⟨?_, ?_, ?_⟩
      · rw [roots, ← List.concat_eq_append]
        exact h.nodup.concat new
      · rw [active, round, h.active]
      · rw [round, roots]
        intro y hy hmem
        rcases List.mem_append.mp hmem with hmem | hmem
        · exact h.apart y hy hmem
        · obtain rfl := List.mem_singleton.mp hmem
          exact apart (h.active.trans hy)
  | ends roots active round =>
      refine ⟨roots ▸ h.nodup, active.trans round.symm, ?_⟩
      rw [round]
      intro y hy
      cases hy
  | chose phase =>
      obtain ⟨hactive, hchosen⟩ := choose_greatest hr.genuine (hr.phase.mpr (.inl phase))
      rcases hchosen with ⟨hround, hsub, -⟩ | ⟨best, hround, hnodup, hless, -⟩
      · refine ⟨hsub.nodup h.nodup, hactive, ?_⟩
        rw [hround]
        intro y hy
        cases hy
      · refine ⟨hnodup, hactive, ?_⟩
        rw [hround]
        intro y hy hmem
        obtain rfl := Option.some.inj hy
        exact lt_irrefl _ (hless _ hmem)

/-- Whatever happened before, over any nodes that were at hand from the start, no root waits twice and
the root of the round in progress does not wait. A round is started for the greatest of the waiting
roots that are neither the baseline nor known, and all others go on waiting; only a body can get lost,
and only by wrong bytes that lie unread under its digest. A root leaves the queue only by being chosen,
or because it is the baseline or known when one is chosen. -/
theorem selection_loses_only_obstructed (attempts : Nat) (deeds : List Deed) (start : Origin)
    (firstName : Option Name) (es : List Event) :
    let r := after H (create ((Cache.ofAttempts attempts).after H deeds) start firstName) es
    (r.queue.roots.Nodup ∧ ∀ y ∈ r.round, y ∉ r.queue.roots) ∧
    (∀ e y, r.round ≠ some y → (r.on H e).round = some y → Selects H r (r.on H e) y) ∧
    ∀ e, ∀ d ∈ r.queue.roots, d ∉ (r.on H e).queue.roots →
      r.phase = .choosing ∧ ((r.on H e).round = some d ∨ some d = (r.on H e).baseline ∨
        r.cache.known d = true) := by
  intro r
  have hregular : r.Regular H :=
    (regular_create ((Cache.genuine_ofAttempts attempts).after deeds) start firstName).after es
  have htidy : r.Tidy := by
    refine (after_induction (P := fun r => r.Regular H ∧ r.Tidy) ⟨?_, ?_⟩ ?_).2
    · exact regular_create ((Cache.genuine_ofAttempts attempts).after deeds) start firstName
    · exact ⟨List.nodup_nil, rfl, fun y hy => nomatch hy⟩
    · exact fun r e _ h => ⟨h.1.on e, h.2.on h.1 e⟩
  refine ⟨⟨htidy.nodup, htidy.apart⟩, ?_, ?_⟩
  · intro e y hother hy
    have hqueues := hregular.queues e
    generalize r.on H e = r' at hqueues hy
    cases hqueues with
    | stays roots active round => exact absurd (round.symm.trans hy) hother
    | joins new apart roots active round => exact absurd (round.symm.trans hy) hother
    | ends roots active round => cases round.symm.trans hy
    | chose phase => exact selects_choose hregular.genuine (hregular.phase.mpr (.inl phase)) hy
  · intro e d hd hleft
    have hqueues := hregular.queues e
    generalize r.on H e = r' at hqueues hleft
    cases hqueues with
    | stays roots active round => exact absurd (roots ▸ hd) hleft
    | joins new apart roots active round =>
        rw [roots] at hleft
        exact absurd (List.mem_append_left _ hd) hleft
    | ends roots active round => exact absurd (roots ▸ hd) hleft
    | chose phase =>
        refine ⟨phase, ?_⟩
        have hchosen := choose_greatest hregular.genuine (hregular.phase.mpr (.inl phase))
        rcases hchosen.2 with ⟨-, -, hstays⟩ | ⟨best, hround, -, -, hmem⟩
        · exact .inr ((hstays d (.inl hd)).resolve_left hleft)
        · by_cases hunknown : some d ≠ (r.choose H).baseline ∧ r.cache.known d = false
          · rcases (hmem d).mpr ⟨.inl hd, hunknown⟩ with rfl | hstays
            · exact .inl hround
            · exact absurd hstays hleft
          · rw [not_and_or, not_not, Bool.not_eq_false] at hunknown
            exact .inr hunknown

end Reconciler

namespace Sample

/-- Two names in the wrong order, before a branch `{4}`. -/
def outOfOrder : Node where
  items := [.leaf (name 9), .leaf (name 8), .ref (root (flat [4]))]
  least := name 1
  greatest := name 9
  count := 3

/-- The fetch of the branch brings wrong bytes, and before they are looked at, the round is given up for
the names. Then the right body of the branch is handed in, and another root is announced. -/
def obstructing : List Event :=
  [.announce (root outOfOrder), .call] ++ stepping 2 ++ [fetched outOfOrder, .call] ++ stepping 1 ++
    [.complete (root (flat [4])) (.ok [255]), .call] ++ stepping 4 ++
      [.handIn (flat [4]).encode, .announce (root (flat [2])), .call]

end Sample

namespace Reconciler

open Sample in
/-- The lesser root is chosen, and the body is gone. -/
theorem selection_loses_only_obstructed_outOfOrder :
    let r := after Digest.mk (create (.ofAttempts 3) .empty none) obstructing
    let r' := r.on Digest.mk (.step .accepting)
    r.Candidate Digest.mk r' (root (flat [4])) ∧ r.Obstructed Digest.mk (root (flat [4])) ∧
      root (flat [2]) < root (flat [4]) ∧ r.Selects Digest.mk r' (root (flat [2])) ∧
      root (flat [4]) ∉ r'.queue.roots := by
  intro r r'
  have hdecodes : Node.decode (flat [4]).encode = .ok (flat [4]) := by decide +kernel
  have hbodies : r.queue.bodies = [(flat [4]).encode] := by decide +kernel
  have hcandidate : r.Candidate Digest.mk r' (root (flat [4])) :=
    ⟨.inr ⟨(flat [4]).encode, hbodies ▸ List.mem_singleton_self _, rfl, _, hdecodes⟩,
      by decide +kernel, by decide +kernel⟩
  have hwrong : ∀ n, Node.decodeAs Digest.mk (root (flat [4])) [255] ≠ .ok n := by
    intro n hn
    have hmismatch : Node.decodeAs Digest.mk (root (flat [4])) [255] =
        .error (.digestMismatch (root (flat [4])) ⟨[255]⟩) := by decide +kernel
    cases hmismatch.symm.trans hn
  have hobstructed : r.Obstructed Digest.mk (root (flat [4])) := by
    refine ⟨by decide +kernel, ⟨[255], by decide +kernel, hwrong⟩, ?_⟩
    intro front body back hsplit _ _
    rw [hbodies] at hsplit
    cases front with
    | nil => exact List.not_mem_nil
    | cons b front => simp at hsplit
  have hselects : r.Selects Digest.mk r' (root (flat [2])) :=
    (selection_loses_only_obstructed 3 [] .empty none obstructing).2.1 (.step .accepting)
      (root (flat [2])) (by decide +kernel) (by decide +kernel)
  exact ⟨hcandidate, hobstructed, by decide +kernel, hselects,
    (hselects.lost _ hcandidate hobstructed).2⟩

end Reconciler

end Reconcile

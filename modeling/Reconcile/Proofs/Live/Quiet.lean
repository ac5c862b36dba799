import Reconcile.Live.Directory
import Reconcile.Proofs.History.Awaiting

/-! # A quiet subscription has no work left

A subscription is quiet when its alarm waits for a nudge and no fetch is under way. Whatever befalls
it, it is quiet with a root left that could be chosen only if its last pass ended over a malformed tree:
such a pass leaves the other roots where they are, and nothing nudges the alarm. -/

namespace Reconcile

open Reconciler

variable {H : Hashing}

/-! ## How a pass ends -/

namespace Reconciler

variable {r r' : Reconciler} {outcome : Outcome} {d : Digest}

/-- A step that ends a pass leaves no work, or leaves a fetch under way, or has met a malformed tree. -/
theorem end_of_step (hr : r.cache.Consistent) (h : r.step H .accepting = (r', some outcome)) :
    r'.hasWork = false ∨ (∃ d, r'.cache.pending d = true) ∨ outcome = .malformed := by
  have hpaced := paced_step (H := H) .accepting r
  rw [h] at hpaced
  generalize hsome : some outcome = ending at hpaced
  cases hpaced with
  | chose phase => cases hsome
  | loaded phase loaded => cases hsome
  | waits phase consults =>
      obtain rfl := Option.some.inj hsome
      obtain ⟨d, -, hpending⟩ := needs_of_step hr h
      exact .inr (.inl ⟨d, hpending⟩)
  | went phase goes => cases hsome
  | closed phase next aside => cases hsome
  | halted halts idle => exact .inl idle
  | gaveUp halts work => cases hsome
  | faulted phase plan meets => exact .inr (.inr (Option.some.inj hsome))
  | woke phase work => cases hsome
  | rested phase idle => exact .inl idle

theorem end_of_pass (hr : r.cache.Consistent) (h : r.pass H .accepting = (r', some outcome)) :
    r'.hasWork = false ∨ (∃ d, r'.cache.pending d = true) ∨ outcome = .malformed := by
  obtain ⟨n, hlast⟩ := last_of_pass h
  exact end_of_step (consistent_after hr _) hlast

/-- A root is waiting that can be chosen. -/
structure Selectable (r : Reconciler) (d : Digest) : Prop where
  settled : r.awaitsBaseline = false
  mem : d ∈ r.queue.roots
  differs : some d ≠ r.baseline
  unknown : r.cache.known d = false

theorem Selectable.hasWork (h : r.Selectable d) : r.hasWork = true := by
  have hroots : r.queue.roots ≠ [] := List.ne_nil_of_mem h.mem
  simp [Reconciler.hasWork, h.settled, hroots]

theorem Selectable.of_fetches (hf : Fetches H r r') (h : r'.Selectable d) : r.Selectable d :=
  ⟨hf.awaitsBaseline ▸ h.settled, hf.queue ▸ h.mem, hf.baseline ▸ h.differs, hf.known ▸ h.unknown⟩

end Reconciler

/-! ## What befalls a subscription -/

/-- Something that befalls a subscription. -/
inductive Occasion
  | announce (now : Nat) (d : Digest)
  | handIn (now : Nat) (bytes : Bytes)
  | receive (now : Nat) (d : Digest) (bytes : Bytes)
  | nudge (now : Nat)
  | look (d : Digest)
  /-- Waiting fetches set out, and the alarm waits for a nudge. -/
  | prepare (depot : Depot) (now : Nat)
  /-- Fetches come back, or the alarm rings. -/
  | happen (depot : Depot) (now : Nat)

namespace Subscription

variable {s t : Subscription} {d : Digest}

/-- The subscription after an occasion. -/
def on (H : Hashing) (s : Subscription) : Occasion → Subscription
  | .announce now d => s.announce now d
  | .handIn now bytes => s.handIn now bytes
  | .receive now d bytes => (s.receive now d bytes).1
  | .nudge now => s.nudge now
  | .look d => (s.look H d).1
  | .prepare depot now => s.prepare depot now
  | .happen depot now => s.happen H depot now

/-- The subscription after a row of occasions. -/
def after (H : Hashing) (s : Subscription) (os : List Occasion) : Subscription := os.foldl (on H) s

@[simp] theorem after_nil (s : Subscription) : s.after H [] = s := rfl

@[simp] theorem after_cons (s : Subscription) (o : Occasion) (os : List Occasion) :
    s.after H (o :: os) = (s.on H o).after H os := rfl

/-- A slice that nobody has announced anything for yet. -/
def fresh (settings : Settings) (start : Origin) (firstName : Option Name) : Subscription where
  reconciler := .create (.ofAttempts settings.attempts) start firstName
  alarm := { quiet := settings.quiet }
  courier := { timeout := settings.timeout }

/-- Whether a pass is made at an occasion. -/
def rings (s : Subscription) : Occasion → Bool
  | .happen _ now =>
    (s.courier.landed now).isEmpty && decide ((s.alarm.ring true).phase = .running)
  | _ => false

/-- The passes made in a row of occasions, each with the reconciler it left. -/
def passes (H : Hashing) : Subscription → List Occasion → List (Reconciler × Option Outcome)
  | _, [] => []
  | s, o :: os =>
    (if s.rings o then [s.reconciler.pass H .accepting] else []) ++ passes H (s.on H o) os

end Subscription

/-! ## What keeps a subscription going -/

namespace Alarm

variable {a : Alarm}

/-- The alarm is going to ring without another nudge. -/
def Roused (a : Alarm) : Prop := a.permit = true ∨ ∃ t, a.phase = .resting t

theorem roused_nudge (a : Alarm) (now : Nat) : (a.nudge now).Roused := by
  unfold nudge
  split
  · exact .inr ⟨_, rfl⟩
  · exact .inl rfl

theorem Roused.arm (h : a.Roused) (now : Nat) : (a.arm now).Roused := by
  rcases h with hpermit | ⟨t, hphase⟩
  · unfold Alarm.arm
    split
    · rw [if_pos hpermit]
      exact .inr ⟨_, rfl⟩
    · exact .inl hpermit
  · exact .inr ⟨t, by simp [Alarm.arm, hphase]⟩

/-- The alarm neither rings nor has ended. -/
def Steady (a : Alarm) : Prop :=
  a.phase = .ready ∨ a.phase = .idle ∨ ∃ t, a.phase = .resting t

theorem Steady.nudge (h : a.Steady) (now : Nat) : (a.nudge now).Steady := by
  unfold Alarm.nudge
  split
  · exact .inr (.inr ⟨_, rfl⟩)
  · exact h

theorem Steady.arm (h : a.Steady) (now : Nat) : (a.arm now).Steady := by
  unfold Alarm.arm
  split
  · split
    · exact .inr (.inr ⟨_, rfl⟩)
    · exact .inr (.inl rfl)
  · exact h

/-- Unless its quiet period is over, nothing becomes of the alarm when it would ring. -/
theorem Steady.ring (h : a.Steady) (hrunning : (a.ring true).phase ≠ .running) : a.ring true = a := by
  rcases h with hphase | hphase | ⟨t, hphase⟩
  · simp [Alarm.ring, rest, dropPermit, start, hphase]
  · simp [Alarm.ring, rest, dropPermit, start, hphase]
  · refine absurd ?_ hrunning
    cases hquiet : decide (a.quiet = 0) <;> simp_all [Alarm.ring, rest, dropPermit, start]

end Alarm

namespace Subscription

variable {s t : Subscription} {d : Digest}

/-- A pass ended over a malformed tree, or never ended, and left the reconciler as it is now. -/
def Dropped (H : Hashing) (s : Subscription) (last : Option (Reconciler × Option Outcome)) : Prop :=
  ∃ r outcome, last = some (r, outcome) ∧ (outcome = some .malformed ∨ outcome = none) ∧
    Fetches H r s.reconciler

/-- Whatever is under way is with the courier, and between occasions the alarm neither rings nor has
ended. -/
structure Carrying (s : Subscription) : Prop where
  consistent : s.reconciler.cache.Consistent
  carried : ∀ d, s.reconciler.cache.pending d = true →
    d ∈ s.courier.waiting ∨ ∃ f ∈ s.courier.flights, f.digest = d
  steady : s.alarm.Steady

/-- If there is work to do, then the alarm is going to ring, or something is under way, or the last pass
dropped the work. -/
structure Driven (H : Hashing) (s : Subscription) (last : Option (Reconciler × Option Outcome)) :
    Prop extends s.Carrying where
  driven : s.alarm.Roused ∨ s.reconciler.hasWork = false ∨
    (∃ d, s.reconciler.cache.pending d = true) ∨ s.Dropped H last

theorem driven_fresh (settings : Settings) (start : Origin) (firstName : Option Name) :
    (fresh settings start firstName).Driven H none where
  consistent := Cache.consistent_ofAttempts settings.attempts
  carried _ hd := nomatch hd
  steady := .inl rfl
  driven := .inr (.inl (by simp [fresh, create, hasWork]))

variable {last : Option (Reconciler × Option Outcome)}

/-! ### Nudges -/

theorem Carrying.nudge (h : s.Carrying) (now : Nat) : (s.nudge now).Carrying :=
  ⟨h.consistent, h.carried, h.steady.nudge now⟩

theorem Carrying.driven_nudge (h : s.Carrying) (now : Nat) : (s.nudge now).Driven H last :=
  { h.nudge now with driven := .inl (s.alarm.roused_nudge now) }

/-! ### What comes in -/

theorem Carrying.queue (h : s.Carrying) (queue : Queue) :
    Carrying { s with reconciler.queue := queue } :=
  ⟨h.consistent, h.carried, h.steady⟩

/-- A deed that has nothing fetched. -/
theorem Carrying.deed (h : s.Carrying) (deed : Deed)
    (hsends : s.reconciler.cache.sends deed = []) :
    Carrying { s with reconciler.cache := s.reconciler.cache.on H deed } := by
  refine ⟨h.consistent.after [deed], ?_, h.steady⟩
  intro d hd
  rcases Cache.pending_of_on hd with hpending | hsent
  · exact h.carried d hpending
  · rw [hsends] at hsent
    cases hsent

theorem Driven.announce (h : s.Driven H last) (now : Nat) (d : Digest) :
    (s.announce now d).Driven H last := by
  unfold Subscription.announce Reconciler.announce
  split
  · rename_i r hr
    split at hr
    · cases hr
    · cases hr
      exact (h.toCarrying.queue _).driven_nudge now
  · rename_i r hr
    split at hr
    · cases hr
      exact h
    · cases hr

theorem Driven.handIn (h : s.Driven H last) (now : Nat) (bytes : Bytes) :
    (s.handIn now bytes).Driven H last :=
  (h.toCarrying.queue _).driven_nudge now

/-- Looking at nodes, or a fetch that ends when its node is there, changes nothing that matters. -/
theorem Driven.deed (h : s.Driven H last) (deed : Deed)
    (hsends : s.reconciler.cache.sends deed = [])
    (hkeeps : Cache.Keeps H s.reconciler.cache (s.reconciler.cache.on H deed))
    (hpending : ∀ d, s.reconciler.cache.pending d = true →
      (s.reconciler.cache.on H deed).pending d = true) :
    Driven H { s with reconciler.cache := s.reconciler.cache.on H deed } last := by
  refine { h.toCarrying.deed deed hsends with driven := ?_ }
  rcases h.driven with hroused | hidle | ⟨d, hd⟩ | ⟨r, outcome, hlast, houtcome, hf⟩
  · exact .inl hroused
  · exact .inr (.inl hidle)
  · exact .inr (.inr (.inl ⟨d, hpending d hd⟩))
  · exact .inr (.inr (.inr ⟨r, outcome, hlast, houtcome, hf.trans (fetches_cache _ hkeeps)⟩))

theorem Driven.look (h : s.Driven H last) (d : Digest) : (s.look H d).1.Driven H last :=
  h.deed (.look d) rfl (Cache.keeps_look _ d)
    (fun _ hd => h.consistent.pending_look d hd)

theorem Driven.receive (h : s.Driven H last) (now : Nat) (d : Digest) (bytes : Bytes) :
    (s.receive now d bytes).1.Driven H last := by
  have hsetPending : ((s.reconciler.cache.slot d).setPending false).isFilled =
      (s.reconciler.cache.slot d).isFilled := rfl
  cases hfilled : (s.reconciler.cache.slot d).isFilled with
  | true =>
      have hredundant : (s.reconciler.cache.complete d (.ok bytes)).2 = .redundant := by
        simp [Cache.complete, hsetPending, hfilled]
      simp only [Subscription.receive, complete, hredundant]
      exact h.deed (.complete d (.ok bytes)) rfl (Cache.keeps_complete _ d _)
        (fun _ hd => h.consistent.pending_complete hfilled _ hd)
  | false =>
      have htaken : (s.reconciler.cache.complete d (.ok bytes)).2 = .taken := by
        simp [Cache.complete, hsetPending, hfilled]
      simp only [Subscription.receive, complete, htaken]
      exact (h.toCarrying.deed (H := H) (.complete d (.ok bytes)) rfl).driven_nudge now

/-! ### Time passes -/

theorem Driven.prepare (h : s.Driven H last) (depot : Depot) (now : Nat) :
    (s.prepare depot now).Driven H last := by
  refine ⟨⟨h.consistent, ?_, h.steady.arm now⟩, h.driven.imp_left (·.arm now)⟩
  intro d hd
  refine .inr ?_
  simp only [Subscription.prepare, launch, Courier.launch]
  rcases h.carried d hd with hwaiting | ⟨f, hf, rfl⟩
  · exact ⟨_, List.mem_append_right _ (List.mem_map_of_mem hwaiting), rfl⟩
  · exact ⟨f, List.mem_append_left _ hf, rfl⟩

/-- Fetches that are back end one after the other. -/
theorem carrying_land (result : Flight → Except FetchFailure Bytes) (now : Nat) (fs : List Flight)
    (hconsistent : t.reconciler.cache.Consistent)
    (hcarried : ∀ d, t.reconciler.cache.pending d = true →
      (d ∈ t.courier.waiting ∨ ∃ f ∈ t.courier.flights, f.digest = d) ∨ ∃ f ∈ fs, f.digest = d)
    (hsteady : t.alarm.Steady) (hroused : fs = [] → t.alarm.Roused) :
    let t' := fs.foldl (fun t f => (t.complete f.digest (result f)).1.nudge now) t
    t'.Carrying ∧ t'.alarm.Roused := by
  induction fs generalizing t with
  | nil =>
      refine ⟨⟨hconsistent, fun d hd => (hcarried d hd).resolve_right ?_, hsteady⟩, hroused rfl⟩
      rintro ⟨f, hf, -⟩
      cases hf
  | cons f fs ih =>
      let mid : Subscription := (t.complete f.digest (result f)).1
      have hmid : mid.reconciler.cache.Consistent := hconsistent.complete f.digest (result f)
      refine ih (t := mid.nudge now) hmid ?_ (hsteady.nudge now) (fun _ => t.alarm.roused_nudge now)
      intro d hd
      have hne : f.digest ≠ d := by
        rintro rfl
        cases (Cache.pending_complete_self t.reconciler.cache f.digest (result f)).symm.trans hd
      have hpending := (Cache.pending_complete_of_ne t.reconciler.cache (result f) hne).symm.trans hd
      refine (hcarried d hpending).imp_right ?_
      rintro ⟨g, hg, rfl⟩
      rcases List.mem_cons.mp hg with rfl | hg
      · exact absurd rfl hne
      · exact ⟨g, hg, rfl⟩

theorem Carrying.driven_land (h : s.Carrying) (depot : Depot) (now : Nat)
    (hlanded : s.courier.landed now ≠ []) : (s.land depot now).Driven H last := by
  have hsplit : ∀ d, s.reconciler.cache.pending d = true →
      (d ∈ s.courier.waiting ∨ ∃ f ∈ (s.courier.aloft now).flights, f.digest = d) ∨
        ∃ f ∈ s.courier.landed now, f.digest = d := by
    intro d hd
    rcases h.carried d hd with hwaiting | ⟨f, hf, rfl⟩
    · exact .inl (.inl hwaiting)
    · by_cases hdue : f.due ≤ now
      · exact .inr ⟨f, List.mem_filter.mpr ⟨hf, by simpa using hdue⟩, rfl⟩
      · exact .inl (.inr ⟨f, List.mem_filter.mpr ⟨hf, by simpa using hdue⟩, rfl⟩)
  obtain ⟨hcarrying, hroused⟩ := carrying_land (s.courier.result depot) now (s.courier.landed now)
    (t := { s with courier := s.courier.aloft now }) h.consistent hsplit h.steady
    (fun hnone => absurd hnone hlanded)
  exact { hcarrying with driven := .inl hroused }

/-- A pass hands its requests to the courier. -/
theorem Carrying.driven_run (h : s.Carrying) {a : Alarm} (ha : a.phase = .ready) :
    Driven H { s.run H with alarm := a } (some (s.reconciler.pass H .accepting)) := by
  generalize hpass : s.reconciler.pass H .accepting = ended
  obtain ⟨r, outcome⟩ := ended
  obtain ⟨n, hn⟩ := pass_eq_after (H := H) .accepting s.reconciler
  have hdeals : Deals H s.reconciler r := by
    obtain rfl := (congrArg Prod.fst hpass).symm.trans hn
    exact deals_after _ (by simp)
  simp only [run, hpass]
  refine ⟨⟨hdeals.consistent h.consistent, ?_, .inl ha⟩, .inr ?_⟩
  · intro d hd
    rcases hdeals.pending hd with hpending | haccepted
    · exact (h.carried d hpending).imp_left (List.mem_append_left _)
    · exact .inl (List.mem_append_right _ haccepted)
  · cases outcome with
    | none => exact .inr (.inr ⟨r, none, rfl, .inr rfl, .refl r⟩)
    | some outcome =>
        rcases end_of_pass h.consistent hpass with hidle | hpending | rfl
        · exact .inl hidle
        · exact .inr (.inl hpending)
        · exact .inr (.inr ⟨r, _, rfl, .inl rfl, .refl r⟩)

theorem Driven.happen (h : s.Driven H last) (depot : Depot) (now : Nat) :
    (s.happen H depot now).Driven H
      (if s.rings (.happen depot now) then some (s.reconciler.pass H .accepting) else last) := by
  unfold Subscription.happen rings
  cases hlanded : (s.courier.landed now).isEmpty with
  | false =>
      have hne : s.courier.landed now ≠ [] := by
        intro hnone
        simp [hnone] at hlanded
      simpa using h.toCarrying.driven_land depot now hne
  | true =>
      by_cases hrunning : (s.alarm.ring true).phase = .running
      · have hready : (s.alarm.ring true).finish.phase = .ready := by
          simp [Alarm.finish, hrunning]
        simp only [hlanded, Bool.not_true, Bool.false_eq_true, if_false, hrunning, decide_true,
          Bool.and_self, if_true]
        exact h.toCarrying.driven_run hready
      · have hsame : s.alarm.ring true = s.alarm := h.steady.ring hrunning
        rw [hsame] at hrunning ⊢
        simpa [hrunning] using h

/-! ### Every run -/

/-- Every occasion keeps a subscription going. -/
theorem Driven.on (h : s.Driven H last) (o : Occasion) :
    (s.on H o).Driven H (if s.rings o then some (s.reconciler.pass H .accepting) else last) := by
  cases o with
  | announce now d => exact h.announce now d
  | handIn now bytes => exact h.handIn now bytes
  | receive now d bytes => exact h.receive now d bytes
  | nudge now => exact h.toCarrying.driven_nudge now
  | look d => exact h.look d
  | prepare depot now => exact h.prepare depot now
  | happen depot now => exact h.happen depot now

theorem Driven.after (h : s.Driven H last) (os : List Occasion) :
    (s.after H os).Driven H ((passes H s os).getLast?.or last) := by
  induction os generalizing s last with
  | nil => exact h
  | cons o os ih =>
      have hrest := ih (h.on o)
      rw [after_cons, passes, List.getLast?_append, Option.or_assoc]
      split at hrest <;> rename_i hrings <;> simpa [hrings] using hrest

/-- The alarm waits for a nudge, and no fetch is under way. -/
structure Quiet (s : Subscription) : Prop where
  idle : s.alarm.phase = .idle
  permit : s.alarm.permit = false
  waiting : s.courier.waiting = []
  flights : s.courier.flights = []

theorem Driven.dropped_of_quiet (h : s.Driven H last) (hquiet : s.Quiet)
    (hwork : s.reconciler.hasWork = true) : s.Dropped H last := by
  rcases h.driven with (hpermit | ⟨t, hphase⟩) | hidle | ⟨d, hd⟩ | hdropped
  · cases hquiet.permit.symm.trans hpermit
  · cases hquiet.idle.symm.trans hphase
  · cases hidle.symm.trans hwork
  · rcases h.carried d hd with hwaiting | ⟨f, hf, -⟩
    · simp [hquiet.waiting] at hwaiting
    · simp [hquiet.flights] at hf
  · exact hdropped

/-- A root that could be chosen while a subscription is quiet was left behind by the last pass, which
ended over a malformed tree, or never ended. -/
theorem selectable_root_dropped (settings : Settings) (start : Origin) (firstName : Option Name)
    (os : List Occasion) :
    let s₀ := fresh settings start firstName
    (s₀.after H os).Quiet → ∀ d, (s₀.after H os).reconciler.Selectable d →
      ∃ r outcome, (passes H s₀ os).getLast? = some (r, outcome) ∧
        (outcome = some .malformed ∨ outcome = none) ∧ r.Selectable d := by
  intro s₀ hquiet d hd
  have hdriven := (driven_fresh (H := H) settings start firstName).after os
  obtain ⟨r, outcome, hlast, houtcome, hf⟩ := hdriven.dropped_of_quiet hquiet hd.hasWork
  rw [Option.or_none] at hlast
  exact ⟨r, outcome, hlast, houtcome, hd.of_fetches hf⟩

/-! ### A root that is left asleep -/

/-- The subscription after a pass of a number of steps that go on and one that does not. -/
def ran (H : Hashing) (s : Subscription) (count : Nat) : Subscription :=
  let r := Reconciler.after H s.reconciler (.call :: List.replicate (count + 1) (.step .accepting))
  { s with
    reconciler := r
    alarm := (s.alarm.ring true).finish
    courier := s.courier.send
      (r.journal.accepted.drop s.reconciler.journal.accepted.length) }

theorem on_happen_eq_ran {depot : Depot} {now : Nat} (rings : s.rings (.happen depot now) = true)
    (outcome : Outcome) (count : Nat)
    (onward : ∀ k < count, ((Reconciler.after H s.reconciler
      (.call :: List.replicate k (.step .accepting))).step H .accepting).2 = none)
    (last : ((Reconciler.after H s.reconciler
      (.call :: List.replicate count (.step .accepting))).step H .accepting).2 = some outcome) :
    s.on H (.happen depot now) = s.ran H count := by
  have hpass := pass_of_last .accepting s.reconciler outcome count onward last
  simp only [Subscription.rings, Bool.and_eq_true, decide_eq_true_eq] at rings
  obtain ⟨hlanded, hrunning⟩ := rings
  simp only [on, happen, hlanded, Bool.not_true, Bool.false_eq_true, if_false, hrunning, if_true, run,
    hpass, ran]

end Subscription

namespace Sample

/-- The names `1` and `2` in the wrong order. -/
def disordered : Node where
  items := [.leaf (name 2), .leaf (name 1)]
  least := name 1
  greatest := name 2
  count := 2

def depot : Depot where
  published := (Catalog.empty.insert (root disordered) disordered.encode).insert
    (root (flat [1, 2])) (flat [1, 2]).encode
  latency := 5

/-- Two roots are announced; the disordered one is the greater. -/
def announcing : List Occasion :=
  [.announce 0 (root disordered), .announce 0 (root (flat [1, 2])), .prepare depot 0]

/-- The disordered node is fetched. -/
def fetching : List Occasion := [.prepare depot 10, .happen depot 15, .prepare depot 15]

/-- The first pass asks for the disordered node, and the second one finds the names in it. -/
def dropping : List Occasion :=
  announcing ++ .happen depot 10 :: fetching ++ [.happen depot 25, .prepare depot 25]

end Sample

namespace Subscription

open Sample in
/-- The root `{1, 2}` stays behind, though its node could be had. -/
theorem selectable_root_dropped_disordered :
    let s₀ := fresh { quiet := 10, timeout := 1000 } .empty none
    (s₀.after Digest.mk dropping).Quiet ∧
      (s₀.after Digest.mk dropping).reconciler.Selectable (root (flat [1, 2])) ∧
      ∃ r outcome, (passes Digest.mk s₀ dropping).getLast? = some (r, outcome) ∧
        (outcome = some .malformed ∨ outcome = none) ∧ r.Selectable (root (flat [1, 2])) := by
  intro s₀
  let s₁ := s₀.after Digest.mk announcing
  let s₂ := (s₁.ran Digest.mk 1).after Digest.mk fetching
  let s₃ := (s₂.ran Digest.mk 3).on Digest.mk (.prepare depot 25)
  have hfirst : s₁.on Digest.mk (.happen depot 10) = s₁.ran Digest.mk 1 :=
    on_happen_eq_ran (by decide +kernel) .waiting 1 (by decide +kernel) (by decide +kernel)
  have hsecond : s₂.on Digest.mk (.happen depot 25) = s₂.ran Digest.mk 3 :=
    on_happen_eq_ran (by decide +kernel) .malformed 3 (by decide +kernel) (by decide +kernel)
  have hafter : s₀.after Digest.mk dropping = s₃ := by
    simp only [dropping, after, List.foldl_append, List.foldl_cons, List.foldl_nil]
    exact (congrArg (fun s => ((s.after Digest.mk fetching).on Digest.mk (.happen depot 25)).on
      Digest.mk (.prepare depot 25)) hfirst).trans
        (congrArg (fun s => s.on Digest.mk (.prepare depot 25)) hsecond)
  have hquiet : (s₀.after Digest.mk dropping).Quiet := by
    rw [hafter]
    exact ⟨by decide +kernel, by decide +kernel, by decide +kernel, by decide +kernel⟩
  have hselectable : (s₀.after Digest.mk dropping).reconciler.Selectable (root (flat [1, 2])) := by
    rw [hafter]
    exact ⟨by decide +kernel, by decide +kernel, by decide +kernel, by decide +kernel⟩
  exact ⟨hquiet, hselectable, selectable_root_dropped { quiet := 10, timeout := 1000 } .empty none
    dropping hquiet _ hselectable⟩

end Subscription

end Reconcile

import Reconcile.Proofs.Live.Quiet
import Reconcile.Proofs.Row

/-! # No nudge is lost

An alarm drops its permit only when it has woken up and is going to run. So each nudge is followed
by the start of a run, as long as there is somebody to run for, and there are no more runs than
nudges. What an occasion does to the alarm of a subscription leads through such acts, so a subscription
makes no more passes than it was nudged. -/

namespace Reconcile

/-- Something that an alarm does, or that is done to it. -/
inductive Act
  | nudge (now : Nat)
  | arm (now : Nat)
  | rest
  | dropPermit
  | start
  /-- There is nobody to run for, and the alarm ends. -/
  | stop
  | finish
deriving Repr, DecidableEq

def Act.isNudge : Act → Bool
  | nudge _ => true
  | _ => false

namespace Alarm

/-- The alarm has woken up, and its next run has not started. -/
def Phase.isWaking : Phase → Bool
  | resting _ | rested | starting => true
  | ready | idle | running | ended => false

variable {a b : Alarm} {act : Act} {acts : List Act} {quiet : Nat}

/-- Whether an act can take place now. An alarm can be nudged at any time. -/
def awaits (a : Alarm) : Act → Bool
  | .nudge _ => true
  | .arm _ => a.phase = .ready
  | .rest => a.due?.isSome
  | .dropPermit => a.phase = .rested
  | .start | .stop => a.phase = .starting
  | .finish => a.phase = .running

def does (a : Alarm) : Act → Alarm
  | .nudge now => a.nudge now
  | .arm now => a.arm now
  | .rest => a.rest
  | .dropPermit => a.dropPermit
  | .start => a.start true
  | .stop => a.start false
  | .finish => a.finish

def on (a : Alarm) (act : Act) : Option Alarm := if a.awaits act then some (a.does act) else none

/-- The alarm after a row of acts, if each could take place. -/
def after (a : Alarm) (acts : List Act) : Option Alarm := acts.foldlM on a

/-- What an act needs, and what it makes of the alarm. -/
inductive Acts (a : Alarm) : Act → Alarm → Prop
  | woken {now : Nat} (idle : a.phase = .idle) : Acts a (.nudge now) (a.wake now)
  | noted {now : Nat} (busy : a.phase ≠ .idle) : Acts a (.nudge now) { a with permit := true }
  | roused {now : Nat} (ready : a.phase = .ready) (permit : a.permit = true) :
      Acts a (.arm now) ({ a with permit := false }.wake now)
  | idled {now : Nat} (ready : a.phase = .ready) (permit : a.permit = false) :
      Acts a (.arm now) { a with phase := .idle }
  | rested {t : Nat} (resting : a.phase = .resting t) (quiet : a.quiet ≠ 0) :
      Acts a .rest { a with phase := .rested }
  /-- Without a quiet period the permit is not dropped. -/
  | hurried {t : Nat} (resting : a.phase = .resting t) (quiet : a.quiet = 0) :
      Acts a .rest { a with phase := .starting }
  | dropped (rested : a.phase = .rested) :
      Acts a .dropPermit { a with phase := .starting, permit := false }
  | started (starting : a.phase = .starting) : Acts a .start { a with phase := .running }
  | stopped (starting : a.phase = .starting) : Acts a .stop { a with phase := .ended }
  | finished (running : a.phase = .running) : Acts a .finish { a with phase := .ready }

theorem acts_of_awaits (h : a.awaits act) : Acts a act (a.does act) := by
  cases act with
  | nudge now =>
      by_cases hidle : a.phase = .idle
      · simpa [does, nudge, hidle] using Acts.woken hidle
      · have hnudge : a.nudge now = { a with permit := true } := by
          unfold nudge
          split
          · rename_i h'
            exact absurd h' hidle
          · rfl
        rw [does, hnudge]
        exact .noted hidle
  | arm now =>
      have hready : a.phase = .ready := by simpa [awaits] using h
      cases hpermit : a.permit with
      | true => simpa [does, arm, hready, hpermit] using Acts.roused hready hpermit
      | false => simpa [does, arm, hready, hpermit] using Acts.idled hready hpermit
  | rest =>
      cases hphase : a.phase with
      | resting t =>
          by_cases hquiet : a.quiet = 0
          · simpa [does, rest, hphase, hquiet] using Acts.hurried hphase hquiet
          · simpa [does, rest, hphase, hquiet] using Acts.rested hphase hquiet
      | _ => simp [awaits, due?, hphase] at h
  | dropPermit =>
      have hrested : a.phase = .rested := by simpa [awaits] using h
      simpa [does, dropPermit, hrested] using Acts.dropped hrested
  | start =>
      have hstarting : a.phase = .starting := by simpa [awaits] using h
      simpa [does, start, hstarting] using Acts.started hstarting
  | stop =>
      have hstarting : a.phase = .starting := by simpa [awaits] using h
      simpa [does, start, hstarting] using Acts.stopped hstarting
  | finish =>
      have hrunning : a.phase = .running := by simpa [awaits] using h
      simpa [does, finish, hrunning] using Acts.finished hrunning

theorem acts_of_on (h : a.on act = some b) : Acts a act b := by
  unfold on at h
  split at h
  · rename_i hawaits
    cases h
    exact acts_of_awaits hawaits
  · cases h

/-- A run that has started is in progress until it ends. -/
theorem count_start_eq (h : ({ quiet } : Alarm).after acts = some a) :
    acts.count .start = acts.count .finish + if a.phase = .running then 1 else 0 := by
  refine row_induction (motive := fun acts a =>
    acts.count .start = acts.count .finish + if a.phase = .running then 1 else 0) rfl ?_ h
  intro acts a act b _ ih hon
  rw [List.count_append, List.count_append, ih]
  cases acts_of_on hon <;> simp_all [wake]

/-- After a nudge the permit is there or the alarm has woken up, until a run starts or it ends. -/
theorem pending_of_since_nudge (h : ({ quiet } : Alarm).after acts = some a) {now : Nat}
    (hnudge : Since (.nudge now) .start acts) :
    a.permit = true ∨ a.phase.isWaking = true ∨ a.phase = .ended := by
  refine row_induction (motive := fun acts a => Since (.nudge now) .start acts →
    a.permit = true ∨ a.phase.isWaking = true ∨ a.phase = .ended) ?_ ?_ h hnudge
  · exact fun hnil => absurd hnil not_since_nil
  · intro acts a act b _ ih hon hsince
    rw [since_concat_iff] at hsince
    cases acts_of_on hon <;> simp_all [wake, Phase.isWaking]

theorem ended_iff (h : ({ quiet } : Alarm).after acts = some a) :
    a.phase = .ended ↔ .stop ∈ acts := by
  refine row_induction (motive := fun acts a => a.phase = .ended ↔ .stop ∈ acts) (by simp) ?_ h
  intro acts a act b _ ih hon
  cases acts_of_on hon <;> simp_all [wake]

/-- Each run takes up a nudge, and so do the permit and having woken up: a permit is dropped only in favour
of the run to come. -/
theorem count_start_le (h : ({ quiet } : Alarm).after acts = some a) :
    acts.count .start + a.permit.toNat + a.phase.isWaking.toNat ≤ acts.countP Act.isNudge := by
  refine row_induction (motive := fun acts a =>
    acts.count .start + a.permit.toNat + a.phase.isWaking.toNat ≤ acts.countP Act.isNudge)
    (Nat.le_refl 0) ?_ h
  intro acts a act b _ ih hon
  rw [List.count_append, List.countP_append]
  cases acts_of_on hon <;> simp_all [wake, Phase.isWaking, Act.isNudge] <;> omega

/-- However nudges come between what an alarm does, and for every quiet period: no two runs are in
progress; after a nudge that no run has followed the permit is there or the alarm has woken up,
unless there was nobody to run for; and there are no more runs than nudges. -/
theorem nudges_served (h : ({ quiet } : Alarm).after acts = some a) :
    acts.count .start = (acts.count .finish + if a.phase = .running then 1 else 0) ∧
    (.stop ∉ acts → (∃ now, Since (.nudge now) .start acts) →
      a.permit = true ∨ a.phase.isWaking = true) ∧
    acts.count .start ≤ acts.countP Act.isNudge := by
  refine ⟨count_start_eq h, ?_, ?_⟩
  · rintro hstop ⟨now, hnudge⟩
    rcases pending_of_since_nudge h hnudge with hpermit | hwaking | hended
    · exact .inl hpermit
    · exact .inr hwaking
    · exact absurd ((ended_iff h).mp hended) hstop
  · have hle := count_start_le h
    omega

/-- Two nudges come in the quiet period and one in the run: the permit of the first two is dropped,
and the third is still to be served. -/
theorem nudges_served_later :
    let acts : List Act := [.arm 0, .nudge 5, .nudge 6, .nudge 7, .rest, .dropPermit, .start,
      .nudge 40, .finish]
    let a : Alarm := { quiet := 10, permit := true }
    ({ quiet := 10 } : Alarm).after acts = some a ∧ acts.count .start = acts.count .finish ∧
      (a.permit = true ∨ a.phase.isWaking = true) ∧
      acts.count .start ≤ acts.countP Act.isNudge := by
  intro acts a
  have hafter : ({ quiet := 10 } : Alarm).after acts = some a := by decide
  obtain ⟨hcount, hserved, hle⟩ := nudges_served hafter
  have hnudge : Since (.nudge 40) .start acts :=
    ⟨[.arm 0, .nudge 5, .nudge 6, .nudge 7, .rest, .dropPermit, .start], [.finish], rfl, by decide⟩
  exact ⟨hafter, hcount, hserved (by decide) ⟨40, hnudge⟩, hle⟩

/-! ## What an alarm does by itself -/

/-- A row of acts leads from one alarm to another, with a number of runs and a number of nudges. -/
def Leads (a b : Alarm) (runs nudges : Nat) : Prop :=
  ∃ acts, a.after acts = some b ∧ acts.count .start = runs ∧ acts.countP Act.isNudge = nudges

variable {c : Alarm} {m m' n n' : Nat}

theorem Leads.refl (a : Alarm) : Leads a a 0 0 := ⟨[], rfl, rfl, rfl⟩

theorem Leads.trans (h : Leads a b m n) (h' : Leads b c m' n') : Leads a c (m + m') (n + n') := by
  obtain ⟨acts, hacts, rfl, rfl⟩ := h
  obtain ⟨acts', hacts', rfl, rfl⟩ := h'
  exact ⟨acts ++ acts', row_append hacts hacts', List.count_append, List.countP_append⟩

theorem leads_does (act : Act) (h : a.awaits act) :
    Leads a (a.does act) ([act].count .start) ([act].countP Act.isNudge) := by
  refine ⟨[act], ?_, rfl, rfl⟩
  simp [after, on, h]

theorem leads_nudge (a : Alarm) (now : Nat) : Leads a (a.nudge now) 0 1 :=
  leads_does (.nudge now) rfl

/-- Waiting for a nudge is an act, if the alarm is not waiting already. -/
theorem leads_arm (a : Alarm) (now : Nat) : Leads a (a.arm now) 0 0 := by
  by_cases hready : a.phase = .ready
  · exact leads_does (.arm now) (by simp [awaits, hready])
  · have hsame : a.arm now = a := by
      unfold arm
      split
      · rename_i hphase
        exact absurd hphase hready
      · rfl
    rw [hsame]
    exact .refl a

/-- An alarm that rings does all that leads from the end of its quiet period to its run. -/
theorem leads_ring {t : Nat} (h : a.phase = .resting t) (alive : Bool) :
    Leads a (a.ring alive) alive.toNat 0 := by
  have hrest : Leads a a.rest.dropPermit 0 0 := by
    have hfirst : Leads a a.rest 0 0 := leads_does .rest (by simp [awaits, due?, h])
    by_cases hquiet : a.quiet = 0
    · have hkeeps : a.rest.dropPermit = a.rest := by simp [rest, dropPermit, h, hquiet]
      rwa [hkeeps]
    · exact hfirst.trans (leads_does .dropPermit (by simp [awaits, rest, h, hquiet]))
  have hstarting : a.rest.dropPermit.phase = .starting := by
    by_cases hquiet : a.quiet = 0 <;> simp [rest, dropPermit, h, hquiet]
  have hstart : Leads a.rest.dropPermit (a.ring alive) alive.toNat 0 := by
    cases alive with
    | true => exact leads_does .start (by simp [awaits, hstarting])
    | false => exact leads_does .stop (by simp [awaits, hstarting])
  simpa using hrest.trans hstart

theorem leads_finish (h : a.phase = .running) : Leads a a.finish 0 0 :=
  leads_does .finish (by simp [awaits, h])

end Alarm

/-! ## The alarm of a subscription -/

namespace Subscription

variable {H : Hashing} {s t : Subscription} {last : Option (Reconciler × Option Outcome)}

/-- How often an occasion nudges the alarm. -/
def nudges (s : Subscription) : Occasion → Nat
  | .announce _ d => (s.reconciler.announce d).2.toNat
  | .handIn _ _ | .nudge _ => 1
  | .receive _ d bytes => if (s.complete d (.ok bytes)).2 = .taken then 1 else 0
  | .look _ | .prepare _ _ => 0
  | .happen _ now => (s.courier.landed now).length

/-- How often a row of occasions nudges the alarm. -/
def nudgesIn (H : Hashing) : Subscription → List Occasion → Nat
  | _, [] => 0
  | s, o :: os => s.nudges o + nudgesIn H (s.on H o) os

theorem leads_land (result : Flight → Except FetchFailure Bytes) (now : Nat) (fs : List Flight)
    (t : Subscription) :
    t.alarm.Leads
      (fs.foldl (fun t f => (t.complete f.digest (result f)).1.nudge now) t).alarm 0 fs.length := by
  induction fs generalizing t with
  | nil => exact .refl t.alarm
  | cons f fs ih =>
      have hrest := ih ((t.complete f.digest (result f)).1.nudge now)
      have hboth := (t.alarm.leads_nudge now).trans hrest
      rwa [Nat.add_comm 1] at hboth

theorem leads_happen (h : s.alarm.Steady) (depot : Depot) (now : Nat) :
    s.alarm.Leads (s.happen H depot now).alarm (s.rings (.happen depot now)).toNat
      (s.nudges (.happen depot now)) := by
  cases hlanded : s.courier.landed now with
  | cons f fs =>
      have hland := leads_land (s.courier.result depot) now (f :: fs)
        { s with courier := s.courier.aloft now }
      simpa [happen, land, rings, nudges, hlanded] using hland
  | nil =>
      by_cases hrunning : (s.alarm.ring true).phase = .running
      · have hring : s.alarm.Leads (s.alarm.ring true) 1 0 := by
          rcases h with hphase | hphase | ⟨t, hphase⟩
          · simp [Alarm.ring, Alarm.rest, Alarm.dropPermit, Alarm.start, hphase] at hrunning
          · simp [Alarm.ring, Alarm.rest, Alarm.dropPermit, Alarm.start, hphase] at hrunning
          · exact Alarm.leads_ring hphase true
        have hrun : s.alarm.Leads (s.alarm.ring true).finish 1 0 :=
          hring.trans (Alarm.leads_finish hrunning)
        have hkeeps : ∀ t : Subscription, (t.run H).alarm = t.alarm := fun _ => rfl
        simpa [happen, rings, nudges, hlanded, hrunning, hkeeps] using hrun
      · have hsame := h.ring hrunning
        rw [hsame] at hrunning
        have hrefl := Alarm.Leads.refl s.alarm
        simpa [happen, rings, nudges, hlanded, hsame, hrunning] using hrefl

theorem leads_on (h : s.alarm.Steady) (o : Occasion) :
    s.alarm.Leads (s.on H o).alarm (s.rings o).toNat (s.nudges o) := by
  cases o with
  | announce now d =>
      have hnudge := s.alarm.leads_nudge now
      simp only [on, announce, nudges]
      split
      · rename_i r hr
        rw [hr]
        exact hnudge
      · rename_i r hr
        rw [hr]
        exact .refl s.alarm
  | handIn now bytes => exact s.alarm.leads_nudge now
  | receive now d bytes =>
      have hnudge := s.alarm.leads_nudge now
      simp only [on, receive, nudges]
      split
      · rename_i t ht
        have hsame : t.alarm = s.alarm := (congrArg (fun result => result.1.alarm) ht).symm
        rw [ht, if_pos rfl, Subscription.nudge, hsame]
        exact hnudge
      · rename_i t completion hother ht
        have hsame : t.alarm = s.alarm := (congrArg (fun result => result.1.alarm) ht).symm
        rw [ht, if_neg (by simpa using hother), hsame]
        exact .refl s.alarm
  | nudge now => exact s.alarm.leads_nudge now
  | look d => exact .refl s.alarm
  | prepare depot now => exact s.alarm.leads_arm now
  | happen depot now => exact leads_happen h depot now

/-- Passes are the runs of the alarm. -/
theorem leads_after (h : s.Driven H last) (os : List Occasion) :
    s.alarm.Leads (s.after H os).alarm (passes H s os).length (nudgesIn H s os) := by
  induction os generalizing s last with
  | nil => exact .refl s.alarm
  | cons o os ih =>
      have hrest := (leads_on (H := H) h.steady o).trans (ih (h.on o))
      have hcount : (s.rings o).toNat + (passes H (s.on H o) os).length =
          (passes H s (o :: os)).length := by
        cases hrings : s.rings o <;> simp [passes, hrings, Nat.add_comm]
      rwa [hcount] at hrest

/-- A subscription makes no more passes than it is nudged. -/
theorem passes_le_nudges (settings : Settings) (start : Origin) (firstName : Option Name)
    (os : List Occasion) :
    (passes H (fresh settings start firstName) os).length ≤
      nudgesIn H (fresh settings start firstName) os := by
  obtain ⟨acts, hacts, hruns, hnudges⟩ :=
    leads_after (driven_fresh (H := H) settings start firstName) os
  have hle := Alarm.count_start_le hacts
  omega

end Subscription

end Reconcile

import Reconcile.Proofs.History.Coverage

/-! # The course of a single root

A root is announced once, by its digest or its body, while no other root waits. Whatever else happens
in between, it is taken up once at most, its round is never given up, and the round compares it with
the baseline there was. -/

namespace Reconcile.Reconciler

variable {H : Hashing} {known known' : Digest → Bool} {l l' : Ledger}

/-! ## Changes between rounds -/

theorem Adoption.settled {awaits : Bool} {baseline : Option Digest} {ds : List Digest}
    (h : Adoption H l awaits baseline ds) (hl : l.awaitsBaseline = false) :
    awaits = false ∧ baseline = l.baseline ∧ ds.Sublist (l.queue.bodies.map H) := by
  cases h with
  | without brought nodes none_yet => exact ⟨hl, rfl, brought⟩
  | adopted front body back split awaited node brought nodes => cases hl.symm.trans awaited

theorem candidates_of_sublist {baseline : Option Digest} {ds : List Digest} {y : Digest}
    (h : (ds ++ l.queue.roots).Sublist [y]) :
    candidates known l false baseline ds = [] ∨ candidates known l false baseline ds = [y] := by
  have hfilter := (List.filter_sublist (p := fun d => some d ≠ baseline && !known d)).trans h
  unfold candidates
  simp only [Bool.false_eq_true, if_false]
  rcases List.sublist_singleton.mp hfilter with hnil | hone
  · rw [hnil]
    exact .inl rfl
  · rw [hone]
    exact .inr rfl

/-- The ledger after the bodies were taken in and a root was chosen, if there was one. -/
def Chooses (known : Digest → Bool) (l : Ledger) (awaits : Bool) (baseline : Option Digest)
    (ds : List Digest) (l' : Ledger) : Prop :=
  candidates known l awaits baseline ds = [] ∧
      l' = { l with
        awaitsBaseline := awaits
        baseline
        queue := { roots := l.kept awaits }
        phase := .done } ∨
    ∃ best, (candidates known l awaits baseline ds).getLast? = some best ∧
      l' = { l with
        awaitsBaseline := awaits
        baseline
        queue := {
          roots := addMissing (l.kept awaits) (candidates known l awaits baseline ds).dropLast
          active := some best }
        phase := .loading
        round := some best
        recorded := [] }

theorem Chooses.of_nil {awaits : Bool} {baseline : Option Digest} {ds : List Digest}
    (h : Chooses known l awaits baseline ds l') (hnone : candidates known l awaits baseline ds = []) :
    l' = { l with
      awaitsBaseline := awaits
      baseline
      queue := { roots := l.kept awaits }
      phase := .done } := by
  rcases h with ⟨-, hl'⟩ | ⟨best, hbest, -⟩
  · exact hl'
  · rw [hnone] at hbest
    cases hbest

theorem candidates_eq_nil {baseline : Option Digest} (hroots : l.queue.roots = []) :
    candidates known l false baseline [] = [] := by
  simp [candidates, hroots]
  rfl

/-- What can happen between two rounds. -/
theorem Change.of_round_none (h : Change H known l l') (hround : l.round = none) :
    (∃ phase, l' = { l with phase }) ∨
      ∃ awaits baseline ds, Adoption H l awaits baseline ds ∧
        Chooses known l awaits baseline ds l' := by
  cases h with
  | quiet phase => exact .inl ⟨phase, rfl⟩
  | note y a round mem new => cases hround.symm.trans round
  | close y extra round kept => cases hround.symm.trans round
  | abandon y baseline extra round work kept => cases hround.symm.trans round
  | rest round adoption none_left => exact .inr ⟨_, _, _, adoption, .inl ⟨none_left, rfl⟩⟩
  | start best round adoption chosen => exact .inr ⟨_, _, _, adoption, .inr ⟨best, chosen, rfl⟩⟩

/-! ## Stages -/

/-- A root and what it meets: whether it is announced by its digest, the baseline it is compared with,
and the names and rounds that came before. -/
structure Course where
  root : Digest
  byDigest : Bool
  baseline : Option Digest
  log : List Name
  completed : Nat

/-- The bodies that wait or are still to be handed in. -/
def bodiesToCome (l : Ledger) (left : List Event) : List Bytes :=
  l.queue.bodies ++ left.flatMap Event.bodies

/-- The roots that wait or are still to be announced by their digests. -/
def rootsToCome (l : Ledger) (left : List Event) : List Digest :=
  l.queue.roots ++ left.flatMap Event.roots

namespace Course

/-- Names found in the round of a course. -/
structure Finds (H : Hashing) (k : Course) (new : List Name) : Prop where
  nodup : new.Nodup
  mem : ∀ a ∈ new, a ∈ namesBelow H k.root
  fresh : ∀ a ∈ new, a ∉ heldNames H k.baseline

/-- Nothing was found yet, and no round is in progress. -/
structure Still (k : Course) (l : Ledger) : Prop where
  round : l.round = none
  recorded : l.recorded = []
  log : l.log = k.log
  completed : l.completed = k.completed

/-- Nothing waits and nothing more will be announced. -/
structure Spent (left : List Event) (l : Ledger) : Prop where
  awaits : l.awaitsBaseline = false
  bodies : bodiesToCome l left = []
  roots : rootsToCome l left = []

/-- How far a course has come, when the announcements `left` are still to be made. -/
inductive At (H : Hashing) (k : Course) (left : List Event) (known : Digest → Bool) (l : Ledger) :
    Prop
  /-- The baseline is awaited. -/
  | awaiting (body : Bytes) (rest : List Bytes) (still : k.Still l)
      (brings : k.baseline = some (H body))
      (byDigest : k.byDigest = false) (awaits : l.awaitsBaseline = true)
      (bodies : bodiesToCome l left = body :: rest)
      (toCome : rest.map H ++ rootsToCome l left = [k.root])
  /-- The body that was to bring the baseline was dropped. -/
  | missed (still : k.Still l) (awaits : l.awaitsBaseline = true)
      (toCome : ((bodiesToCome l left).map H ++ rootsToCome l left).Sublist [k.root])
  /-- The root waits or is still to be announced. -/
  | before (still : k.Still l) (awaits : l.awaitsBaseline = false) (baseline : l.baseline = k.baseline)
      (toCome : (bodiesToCome l left).map H ++ rootsToCome l left = [k.root])
      (byDigest : k.byDigest = true → bodiesToCome l left = [])
  /-- Its round is in progress. -/
  | during (spent : Spent left l) (round : l.round = some k.root) (baseline : l.baseline = k.baseline)
      (log : l.log = k.log ++ l.recorded) (completed : l.completed = k.completed)
      (finds : k.Finds H l.recorded)
  /-- Its round is through. -/
  | closed (spent : Spent left l) (round : l.round = none) (baseline : l.baseline = some k.root)
      (recorded : l.recorded = []) (new : List Name) (log : l.log = k.log ++ new)
      (finds : k.Finds H new) (completed : l.completed = k.completed + 1)
  /-- There was no round, because the root is the baseline or is known, or because its body was
  dropped. -/
  | passed (spent : Spent left l) (still : k.Still l) (baseline : l.baseline = k.baseline)
      (byDigest : k.byDigest = true → k.baseline = some k.root ∨ known k.root = true)

/-- The body that was to bring the baseline was dropped, and the root became the baseline. -/
structure Mistaken (k : Course) (left : List Event) (l : Ledger) : Prop where
  spent : Spent left l
  still : k.Still l

variable {k : Course} {left : List Event}

theorem finds_nil : k.Finds H [] where
  nodup := .nil
  mem _ ha := nomatch ha
  fresh _ ha := nomatch ha

theorem Still.turn (h : k.Still l) (hround : l'.round = l.round)
    (hrecorded : l'.recorded = l.recorded) (hlog : l'.log = l.log)
    (hcompleted : l'.completed = l.completed) : k.Still l' :=
  ⟨hround.trans h.round, hrecorded.trans h.recorded, hlog.trans h.log,
    hcompleted.trans h.completed⟩

/-- When nothing waits, nothing changes between rounds. -/
theorem Spent.change (h : Spent left l) (hround : l.round = none) (hc : Change H known l l') :
    ∃ phase active, l' = { l with phase, queue := { active } } := by
  obtain ⟨hbodies, -⟩ := List.append_eq_nil_iff.mp h.bodies
  obtain ⟨hroots, -⟩ := List.append_eq_nil_iff.mp h.roots
  rcases hc.of_round_none hround with ⟨phase, rfl⟩ | ⟨awaits, baseline, ds, hadoption, hchoice⟩
  · refine ⟨phase, l.queue.active, ?_⟩
    rw [← hbodies, ← hroots]
  · obtain ⟨rfl, rfl, hds⟩ := hadoption.settled h.awaits
    rw [hbodies] at hds
    obtain rfl := List.sublist_nil.mp hds
    refine ⟨.done, none, ?_⟩
    rw [hchoice.of_nil (candidates_eq_nil hroots)]
    simp only [Ledger.kept, Bool.false_eq_true, if_false]
    rw [← h.awaits]

theorem Spent.hasWork_eq_false (h : Spent left l) : l.hasWork = false := by
  obtain ⟨hbodies, -⟩ := List.append_eq_nil_iff.mp h.bodies
  obtain ⟨hroots, -⟩ := List.append_eq_nil_iff.mp h.roots
  simp [Ledger.hasWork, hbodies, hroots]

theorem Spent.turn (h : Spent left l) (phase : Phase) (active : Option Digest) :
    Spent left { l with phase, queue := { active } } where
  awaits := h.awaits
  bodies := (List.append_eq_nil_iff.mp h.bodies).2
  roots := (List.append_eq_nil_iff.mp h.roots).2

/-- The round of a course goes on or is through, but is never given up. -/
theorem At.change_during (spent : Spent left l) (round : l.round = some k.root)
    (baseline : l.baseline = k.baseline) (log : l.log = k.log ++ l.recorded)
    (completed : l.completed = k.completed) (finds : k.Finds H l.recorded)
    (hc : Change H known l l') : k.At H left known' l' := by
  cases hc with
  | quiet phase =>
      exact .during ⟨spent.awaits, spent.bodies, spent.roots⟩ round baseline log completed finds
  | note y a round' mem new =>
      obtain rfl : k.root = y := Option.some.inj (round.symm.trans round')
      refine .during ⟨spent.awaits, spent.bodies, spent.roots⟩ round baseline ?_ completed ?_
      · simp [log]
      · have ha : a ∉ l.recorded := fun ha => new (.inr (.inr ha))
        have hheld : a ∉ heldNames H k.baseline := fun ha => new (.inl (baseline ▸ ha))
        refine ⟨?_, ?_, ?_⟩
        · exact List.nodup_append.mpr ⟨finds.nodup, List.nodup_singleton a, fun b hb c hc hbc =>
            ha (List.mem_singleton.mp hc ▸ hbc ▸ hb)⟩
        · intro b hb
          rcases List.mem_append.mp hb with hb | hb
          · exact finds.mem b hb
          · exact List.mem_singleton.mp hb ▸ mem
        · intro b hb
          rcases List.mem_append.mp hb with hb | hb
          · exact finds.fresh b hb
          · exact List.mem_singleton.mp hb ▸ hheld
  | close y extra round' kept =>
      obtain rfl : k.root = y := Option.some.inj (round.symm.trans round')
      exact .closed ⟨spent.awaits, spent.bodies, spent.roots⟩ rfl rfl rfl l.recorded log finds
        (congrArg Nat.succ completed)
  | abandon y baseline' extra round' work kept =>
      cases spent.hasWork_eq_false.symm.trans work
  | rest round' adoption none_left => cases round.symm.trans round'
  | start best round' adoption chosen => cases round.symm.trans round'

/-- A single root waits, or is still to be announced. -/
theorem waiting_cases {bodies laterBodies : List Bytes} {roots laterRoots : List Digest} {y : Digest}
    (h : (bodies ++ laterBodies).map H ++ (roots ++ laterRoots) = [y]) :
    bodies = [] ∧ roots = [] ∨
      laterBodies = [] ∧ laterRoots = [] ∧ bodies.map H ++ roots = [y] := by
  cases bodies with
  | cons body bodies =>
      simp only [List.cons_append, List.map_cons, List.cons.injEq, List.append_eq_nil_iff,
        List.map_eq_nil_iff] at h
      obtain ⟨rfl, ⟨rfl, rfl⟩, rfl, rfl⟩ := h
      exact .inr ⟨rfl, rfl, rfl⟩
  | nil =>
      cases roots with
      | nil => exact .inl ⟨rfl, rfl⟩
      | cons d roots =>
          cases laterBodies with
          | cons body laterBodies => simp at h
          | nil =>
              simp only [List.append_nil, List.map_nil, List.nil_append, List.cons_append,
                List.cons.injEq, List.append_eq_nil_iff] at h
              obtain ⟨rfl, rfl, rfl⟩ := h
              exact .inr ⟨rfl, rfl, rfl⟩

theorem alone_of_append {front back later : List Bytes} {body : Bytes} {roots : List Digest}
    {y : Digest} (h : (front ++ body :: back ++ later).map H ++ roots = [y]) :
    back = [] ∧ later = [] ∧ roots = [] := by
  cases front with
  | nil =>
      simp only [List.nil_append, List.cons_append, List.map_cons, List.cons.injEq,
        List.append_eq_nil_iff, List.map_eq_nil_iff] at h
      exact ⟨h.2.1.1, h.2.1.2, h.2.2⟩
  | cons first front => simp at h

/-- The waiting root is chosen or passed over, once there is a baseline. `bodies` are those that are
taken in when there is. -/
theorem At.change_choice (still : k.Still l) {ds : List Digest} {bodies : List Bytes}
    (hds : ds.Sublist (bodies.map H))
    (toCome : (bodies ++ left.flatMap Event.bodies).map H ++ rootsToCome l left = [k.root])
    (byDigest : k.byDigest = true → bodies ++ left.flatMap Event.bodies = [])
    (hknown : ∀ d, known d = true → known' d = true)
    (hchoice : Chooses known l false k.baseline ds l') : k.At H left known' l' := by
  rcases waiting_cases toCome with ⟨rfl, hroots⟩ | ⟨hlater, hlater', hwaiting⟩
  · obtain rfl := List.sublist_nil.mp hds
    obtain rfl := hchoice.of_nil (candidates_eq_nil hroots)
    refine .before (still.turn rfl rfl rfl rfl) rfl rfl ?_ byDigest
    rw [rootsToCome, hroots] at toCome
    exact toCome
  · have hone : (ds ++ l.queue.roots).Sublist [k.root] := by
      rw [← hwaiting]
      exact hds.append_right _
    rcases hchoice with ⟨hnone, rfl⟩ | ⟨best, hbest, rfl⟩
    · refine .passed ⟨rfl, hlater, hlater'⟩
        (still.turn rfl rfl rfl rfl) rfl ?_
      intro hdigest
      obtain ⟨rfl, -⟩ := List.append_eq_nil_iff.mp (byDigest hdigest)
      have hroot : k.root ∈ l.queue.roots := by
        rw [List.map_nil, List.nil_append] at hwaiting
        exact hwaiting ▸ List.mem_singleton_self k.root
      by_contra hnot
      obtain ⟨hbaseline, hunknown⟩ := not_or.mp hnot
      have hcandidate : k.root ∈ candidates known l false k.baseline ds := by
        refine mem_candidates.mpr ⟨.inr ⟨rfl, hroot⟩, Ne.symm hbaseline, ?_⟩
        cases hk : known k.root with
        | false => rfl
        | true => exact absurd (hknown _ hk) hunknown
      rw [hnone] at hcandidate
      cases hcandidate
    · have hcandidates : candidates known l false k.baseline ds = [] ∨
          candidates known l false k.baseline ds = [k.root] := candidates_of_sublist hone
      rcases hcandidates with hnil | hroot
      · rw [hnil] at hbest
        cases hbest
      · rw [hroot] at hbest ⊢
        obtain rfl : k.root = best := Option.some.inj hbest
        refine .during ⟨rfl, hlater, hlater'⟩ rfl rfl ?_ still.completed finds_nil
        simpa using still.log

theorem mistaken_of_chooses (still : k.Still l) {baseline : Option Digest} {ds : List Digest}
    (hds : ds = []) (hbodies : left.flatMap Event.bodies = []) (hroots : rootsToCome l left = [])
    (hchoice : Chooses known l false baseline ds l') : k.Mistaken left l' := by
  subst hds
  obtain ⟨hwaiting, hlater⟩ := List.append_eq_nil_iff.mp hroots
  obtain rfl := hchoice.of_nil (candidates_eq_nil hwaiting)
  exact ⟨⟨rfl, hbodies, hlater⟩, still.turn rfl rfl rfl rfl⟩

/-- The awaited body is adopted as the baseline or dropped. -/
theorem At.change_awaiting {body : Bytes} {rest : List Bytes} (still : k.Still l)
    (brings : k.baseline = some (H body)) (byDigest : k.byDigest = false)
    (awaits : l.awaitsBaseline = true) (bodies : bodiesToCome l left = body :: rest)
    (toCome : rest.map H ++ rootsToCome l left = [k.root])
    (hknown : ∀ d, known d = true → known' d = true) (hc : Change H known l l') :
    k.At H left known' l' ∨ k.Mistaken left l' := by
  rcases hc.of_round_none still.round with
    ⟨phase, rfl⟩ | ⟨awaits', baseline, ds, hadoption, hchoice⟩
  · exact .inl (.awaiting body rest (still.turn rfl rfl rfl rfl) brings byDigest awaits bodies toCome)
  · cases hadoption with
    | without brought nodes none_yet =>
        obtain rfl := none_yet awaits
        rw [awaits] at hchoice
        obtain rfl := hchoice.of_nil rfl
        cases hwaiting : l.queue.bodies with
        | nil =>
            rw [bodiesToCome, hwaiting] at bodies
            exact .inl (.awaiting body rest (still.turn rfl rfl rfl rfl) brings byDigest rfl bodies
              toCome)
        | cons first others =>
            rw [bodiesToCome, hwaiting, List.cons_append] at bodies
            obtain ⟨-, rfl⟩ := List.cons.inj bodies
            refine .inl (.missed (still.turn rfl rfl rfl rfl) rfl ?_)
            rw [← toCome]
            exact ((List.sublist_append_right others _).map H).append_right _
    | adopted front body' back split awaited node brought nodes =>
        rw [bodiesToCome, split] at bodies
        cases front with
        | nil =>
            obtain ⟨rfl, rfl⟩ := List.cons.inj bodies
            rw [← brings] at hchoice
            refine .inl (.change_choice still brought toCome ?_ hknown hchoice)
            intro hdigest
            cases byDigest.symm.trans hdigest
        | cons first front =>
            have hrest : front ++ body' :: back ++ left.flatMap Event.bodies = rest :=
              (List.cons.inj bodies).2
            rw [← hrest] at toCome
            obtain ⟨hback, hlater, hroots⟩ := alone_of_append toCome
            rw [hback] at brought
            exact .inr (mistaken_of_chooses still (List.sublist_nil.mp brought) hlater hroots hchoice)

/-- Once the awaited body was dropped, no round begins. -/
theorem At.change_missed (still : k.Still l) (awaits : l.awaitsBaseline = true)
    (toCome : ((bodiesToCome l left).map H ++ rootsToCome l left).Sublist [k.root])
    (hc : Change H known l l') : k.At H left known' l' ∨ k.Mistaken left l' := by
  rcases hc.of_round_none still.round with
    ⟨phase, rfl⟩ | ⟨awaits', baseline, ds, hadoption, hchoice⟩
  · exact .inl (.missed (still.turn rfl rfl rfl rfl) awaits toCome)
  · cases hadoption with
    | without brought nodes none_yet =>
        obtain rfl := none_yet awaits
        rw [awaits] at hchoice
        obtain rfl := hchoice.of_nil rfl
        refine .inl (.missed (still.turn rfl rfl rfl rfl) rfl (.trans ?_ toCome))
        exact ((List.sublist_append_right l.queue.bodies _).map H).append_right _
    | adopted front body' back split awaited node brought nodes =>
        rcases List.sublist_singleton.mp toCome with hnil | hone
        · simp [bodiesToCome, split] at hnil
        · rw [bodiesToCome, split] at hone
          obtain ⟨hback, hlater, hroots⟩ := alone_of_append hone
          rw [hback] at brought
          exact .inr (mistaken_of_chooses still (List.sublist_nil.mp brought) hlater hroots hchoice)

/-- Once there is a baseline, a course goes on with every change of the ledger. -/
theorem At.change_settled (h : k.At H left known l) (hl : l.awaitsBaseline = false)
    (hknown : ∀ d, known d = true → known' d = true) (hc : Change H known l l') :
    k.At H left known' l' := by
  cases h with
  | awaiting body rest still brings byDigest awaits bodies toCome => cases hl.symm.trans awaits
  | missed still awaits toCome => cases hl.symm.trans awaits
  | before still awaits baseline toCome byDigest =>
      rcases hc.of_round_none still.round with
        ⟨phase, rfl⟩ | ⟨awaits', baseline', ds, hadoption, hchoice⟩
      · exact .before (still.turn rfl rfl rfl rfl) awaits baseline toCome byDigest
      · obtain ⟨rfl, rfl, hds⟩ := hadoption.settled awaits
        rw [baseline] at hchoice
        exact .change_choice still hds toCome byDigest hknown hchoice
  | during spent round baseline log completed finds =>
      exact .change_during spent round baseline log completed finds hc
  | closed spent round baseline recorded new log finds completed =>
      obtain ⟨phase, active, rfl⟩ := spent.change round hc
      exact .closed (spent.turn phase active) round baseline recorded new log finds completed
  | passed spent still baseline byDigest =>
      obtain ⟨phase, active, rfl⟩ := spent.change still.round hc
      refine .passed (spent.turn phase active) (still.turn rfl rfl rfl rfl) baseline ?_
      exact fun hdigest => (byDigest hdigest).imp_right (hknown k.root)

/-- A course goes on with every change of the ledger, unless the root is taken for the baseline. -/
theorem At.change (h : k.At H left known l) (hknown : ∀ d, known d = true → known' d = true)
    (hc : Change H known l l') : k.At H left known' l' ∨ k.Mistaken left l' := by
  have hsettled : l.awaitsBaseline = false → k.At H left known' l' :=
    fun hl => h.change_settled hl hknown hc
  cases h with
  | awaiting body rest still brings byDigest awaits bodies toCome =>
      exact At.change_awaiting still brings byDigest awaits bodies toCome hknown hc
  | missed still awaits toCome => exact At.change_missed still awaits toCome hc
  | before still awaits baseline toCome byDigest => exact .inl (hsettled awaits)
  | during spent round baseline log completed finds => exact .inl (hsettled spent.awaits)
  | closed spent round baseline recorded new log finds completed =>
      exact .inl (hsettled spent.awaits)
  | passed spent still baseline byDigest => exact .inl (hsettled spent.awaits)

theorem Mistaken.change (h : k.Mistaken left l) (hc : Change H known l l') :
    k.Mistaken left l' := by
  obtain ⟨phase, active, rfl⟩ := h.spent.change h.still.round hc
  exact ⟨h.spent.turn phase active, h.still.turn rfl rfl rfl rfl⟩

/-! ## Announcements -/

/-- An announcement that was still to be made waits now. -/
theorem At.requeue (h : k.At H left known l) {left' : List Event} {queue : Queue}
    (hbodies : bodiesToCome { l with queue } left' = bodiesToCome l left)
    (hroots : rootsToCome { l with queue } left' = rootsToCome l left) :
    k.At H left' known { l with queue } := by
  have hspent : Spent left l → Spent left' { l with queue } :=
    fun h => ⟨h.awaits, hbodies.trans h.bodies, hroots.trans h.roots⟩
  cases h with
  | awaiting body rest still brings byDigest awaits bodies toCome =>
      exact .awaiting body rest (still.turn rfl rfl rfl rfl) brings byDigest awaits
        (hbodies.trans bodies) (hroots ▸ toCome)
  | missed still awaits toCome =>
      exact .missed (still.turn rfl rfl rfl rfl) awaits (hbodies ▸ hroots ▸ toCome)
  | before still awaits baseline toCome byDigest =>
      exact .before (still.turn rfl rfl rfl rfl) awaits baseline (hbodies ▸ hroots ▸ toCome)
        (fun hdigest => hbodies.trans (byDigest hdigest))
  | during spent round baseline log completed finds =>
      exact .during (hspent spent) round baseline log completed finds
  | closed spent round baseline recorded new log finds completed =>
      exact .closed (hspent spent) round baseline recorded new log finds completed
  | passed spent still baseline byDigest =>
      exact .passed (hspent spent) (still.turn rfl rfl rfl rfl) baseline byDigest

theorem Spent.not_announces {e : Event} (h : Spent (e :: left) l) : e.announces = false := by
  have hbodies := (List.append_eq_nil_iff.mp h.bodies).2
  have hroots := (List.append_eq_nil_iff.mp h.roots).2
  cases e with
  | announce d => simp [Event.roots] at hroots
  | handIn bytes => simp [Event.bodies] at hbodies
  | complete d result => rfl
  | call => rfl
  | step agent => rfl

/-- While a root is still to be announced, no other waits and there is no round. -/
theorem At.of_announce {d : Digest} (h : k.At H (.announce d :: left) known l) :
    l.queue.roots = [] ∧ l.round = none := by
  have hempty : ∀ pre : List Digest,
      (pre ++ rootsToCome l (.announce d :: left)).length ≤ 1 → l.queue.roots = [] := by
    intro pre hlength
    simp only [rootsToCome, List.flatMap_cons, Event.roots, List.length_append, List.length_cons,
      List.length_nil] at hlength
    exact List.eq_nil_of_length_eq_zero (by omega)
  have hspent : ¬ Spent (.announce d :: left) l := by
    intro hspent
    cases hspent.not_announces
  cases h with
  | awaiting body rest still brings byDigest awaits bodies toCome =>
      exact ⟨hempty _ (Nat.le_of_eq (congrArg List.length toCome)), still.round⟩
  | missed still awaits toCome => exact ⟨hempty _ toCome.length_le, still.round⟩
  | before still awaits baseline toCome byDigest =>
      exact ⟨hempty _ (Nat.le_of_eq (congrArg List.length toCome)), still.round⟩
  | during spent round baseline log completed finds => exact absurd spent hspent
  | closed spent round baseline recorded new log finds completed => exact absurd spent hspent
  | passed spent still baseline byDigest => exact absurd spent hspent

theorem At.announce {r : Reconciler} {S : Name → Prop} (hr : r.Orderly H S) {e : Event}
    (he : e.announces = true) (h : k.At H (e :: left) r.cache.known r.ledger) :
    k.At H left (r.on H e).cache.known (r.on H e).ledger := by
  cases e with
  | announce d =>
      obtain ⟨hroots, hround⟩ := h.of_announce
      have hwaiting : r.queue.roots = [] := hroots
      have hactive : r.queue.active = none := hr.active.trans hround
      have hon : (r.announce d).1 = { r with queue.roots := r.queue.roots ++ [d] } := by
        simp [Reconciler.announce, hwaiting, hactive]
      rw [Reconciler.on, hon]
      exact h.requeue rfl (by simp [rootsToCome, Event.roots, ledger])
  | handIn bytes =>
      exact h.requeue (by simp [bodiesToCome, Event.bodies, ledger, on, Reconciler.handIn]) rfl
  | complete d result => cases he
  | call => cases he
  | step agent => cases he

/-! ## Whole histories -/

theorem At.completed_of_awaits (h : k.At H left known l) (hl : l.awaitsBaseline = true)
    (hc : Change H known l l') : l'.completed = k.completed := by
  have hspent : ¬ Spent left l := fun hspent => nomatch hspent.awaits.symm.trans hl
  have hstill : k.Still l → l'.completed = k.completed := by
    intro still
    rcases hc.of_round_none still.round with
      ⟨phase, rfl⟩ | ⟨awaits', baseline', ds, -, ⟨-, rfl⟩ | ⟨best, -, rfl⟩⟩
    · exact still.completed
    · exact still.completed
    · exact still.completed
  cases h with
  | awaiting body rest still brings byDigest awaits bodies toCome => exact hstill still
  | missed still awaits toCome => exact hstill still
  | before still awaits baseline toCome byDigest => exact hstill still
  | during spent round baseline log completed finds => exact absurd spent hspent
  | closed spent round baseline recorded new log finds completed => exact absurd spent hspent
  | passed spent still baseline byDigest => exact absurd spent hspent

/-- Before its round is through, the baseline of a course is the only one there is. -/
theorem At.baseline_eq {r : Reconciler} {S : Name → Prop} (hr : r.Orderly H S)
    (h : k.At H left known r.ledger) (hcompleted : r.tally.completed = k.completed) {d : Digest}
    (hd : d ∈ r.baseline) : k.baseline = some d := by
  have hawaits : r.awaitsBaseline ≠ true := by
    intro hawaits
    rw [(hr.awaiting hawaits).1] at hd
    cases hd
  cases h with
  | awaiting body rest still brings byDigest awaits bodies toCome => exact absurd awaits hawaits
  | missed still awaits toCome => exact absurd awaits hawaits
  | before still awaits baseline toCome byDigest => exact baseline.symm.trans hd
  | during spent round baseline log completed finds => exact baseline.symm.trans hd
  | closed spent round baseline recorded new log finds completed =>
      have hmore : r.tally.completed = k.completed + 1 := completed
      omega
  | passed spent still baseline byDigest => exact baseline.symm.trans hd

/-- A reconciler in a course: in order if the names that satisfy `S` are known from the start, unless
it took the root itself for the baseline. -/
def Stands (H : Hashing) (S : Name → Prop) (k : Course) (left : List Event) (r : Reconciler) : Prop :=
  r.Orderly H S ∧ k.At H left r.cache.known r.ledger ∨
    r.Orderly H (fun _ => True) ∧ k.Mistaken left r.ledger

variable {S : Name → Prop} {r : Reconciler}

theorem Stands.quiet (inj : Function.Injective H) (h : k.Stands H S left r)
    (hS : r.awaitsBaseline = true → ∀ a ∈ heldNames H k.baseline, S a) {e : Event}
    (he : e.announces = false) : k.Stands H S left (r.on H e) := by
  rcases h with ⟨hr, hat⟩ | ⟨hr, hmistaken⟩
  · have hloose := evolves_on inj (hr.mono (fun _ _ => trivial)) he (fun _ _ _ _ _ => trivial)
    rcases hat.change hloose.known hloose.change with hat' | hmistaken
    · refine .inl ⟨(evolves_on inj hr he ?_).orderly, hat'⟩
      intro hawaits d hd a ha
      have hcompleted := hat.completed_of_awaits hawaits hloose.change
      refine hS hawaits a ?_
      rw [hat'.baseline_eq hloose.orderly hcompleted hd]
      exact ha
    · exact .inr ⟨hloose.orderly, hmistaken⟩
  · have hloose := evolves_on inj hr he (fun _ _ _ _ _ => trivial)
    exact .inr ⟨hloose.orderly, hmistaken.change hloose.change⟩

theorem Stands.announce {e : Event} (h : k.Stands H S (e :: left) r)
    (he : e.announces = true) (hhonest : e.Honest H) : k.Stands H S left (r.on H e) := by
  rcases h with ⟨hr, hat⟩ | ⟨hr, hmistaken⟩
  · refine .inl ⟨?_, hat.announce hr he⟩
    cases e with
    | announce d => exact hr.announce hhonest
    | handIn bytes => exact hr.handIn hhonest
    | complete d result => cases he
    | call => cases he
    | step agent => cases he
  · cases hmistaken.spent.not_announces.symm.trans he

/-- Once there is a baseline, a course stays its own while nothing is announced. -/
theorem At.after_quiet (inj : Function.Injective H) (hr : r.Orderly H S)
    (hawaits : r.awaitsBaseline = false) (h : k.At H left r.cache.known r.ledger) {es : List Event}
    (hes : announcements es = []) :
    (after H r es).Orderly H S ∧ (after H r es).awaitsBaseline = false ∧
      k.At H left (after H r es).cache.known (after H r es).ledger := by
  induction es generalizing r with
  | nil => exact ⟨hr, hawaits, h⟩
  | cons e es ih =>
      obtain ⟨he, hes⟩ := List.forall_mem_cons.mp (List.filter_eq_nil_iff.mp hes)
      have he : e.announces = false := by simpa using he
      have hon := evolves_on inj hr he (fun hawaits' => nomatch hawaits.symm.trans hawaits')
      exact ih hon.orderly (awaits_false_on inj hr e hawaits)
        (h.change_settled hawaits hon.known hon.change) (List.filter_eq_nil_iff.mpr hes)

/-- Every history that makes only the announcements of a course stays in it. -/
theorem Stands.after (inj : Function.Injective H) (h : k.Stands H S left r)
    (hS : r.awaitsBaseline = true → ∀ a ∈ heldNames H k.baseline, S a)
    (hleft : ∀ e ∈ left, e.Honest H) {es : List Event} (hes : announcements es <+: left) :
    ∃ left', left = announcements es ++ left' ∧ k.Stands H S left' (after H r es) := by
  induction es generalizing r left with
  | nil => exact ⟨left, rfl, h⟩
  | cons e es ih =>
      have hloose : r.Orderly H (fun _ => True) := by
        rcases h with h | h
        · exact h.1.mono (fun _ _ => trivial)
        · exact h.1
      have hS' : (r.on H e).awaitsBaseline = true → ∀ a ∈ heldNames H k.baseline, S a := by
        intro hawaits'
        refine hS ?_
        cases hawaits : r.awaitsBaseline with
        | true => rfl
        | false => cases (awaits_false_on inj hloose e hawaits).symm.trans hawaits'
      rw [after_cons]
      cases he : e.announces with
      | false =>
          have hnames : announcements (e :: es) = announcements es := by simp [announcements, he]
          rw [hnames] at hes ⊢
          exact ih (h.quiet inj hS he) hS' hleft hes
      | true =>
          have hnames : announcements (e :: es) = e :: announcements es := by
            simp [announcements, he]
          rw [hnames] at hes ⊢
          cases left with
          | nil => cases List.prefix_nil.mp hes
          | cons e' left =>
              obtain ⟨rfl, hrest⟩ := List.cons_prefix_cons.mp hes
              have hon := h.announce he (hleft e List.mem_cons_self)
              obtain ⟨left', hleft', hstands⟩ :=
                ih hon hS' (fun e he => hleft e (List.mem_cons_of_mem _ he)) hrest
              exact ⟨left', by rw [hleft', List.cons_append], hstands⟩

end Course

end Reconcile.Reconciler

import Reconcile.Proofs.Reconciler.Stepping

/-! # Histories of a reconciler

A history is everything that befalls a reconciler, in any order: roots are announced, fetches end with
any result, passes begin, and single steps are taken with any agent. A pass is a history; so are
passes with completions in between, or in their midst. -/

namespace Reconcile

/-- Something that befalls a reconciler. -/
inductive Event
  /-- A root is announced by its digest. -/
  | announce (d : Digest)
  /-- The body of a root is handed in. -/
  | handIn (bytes : Bytes)
  /-- A fetch ends. -/
  | complete (d : Digest) (result : Except FetchFailure Bytes)
  /-- A pass begins. -/
  | call
  /-- A step is taken. -/
  | step (agent : Agent)

namespace Reconciler

variable {H : Hashing}

/-- The reconciler after an event. -/
def on (H : Hashing) (r : Reconciler) : Event → Reconciler
  | .announce d => (r.announce d).1
  | .handIn bytes => r.handIn bytes
  | .complete d result => { r with cache := (r.cache.complete d result).1 }
  | .call => { r with tally.runs := r.tally.runs + 1 }
  | .step agent => (r.step H agent).1

/-- The reconciler after a history. -/
def after (H : Hashing) (r : Reconciler) (es : List Event) : Reconciler := es.foldl (on H) r

@[simp] theorem after_nil (r : Reconciler) : after H r [] = r := rfl

@[simp] theorem after_cons (r : Reconciler) (e : Event) (es : List Event) :
    after H r (e :: es) = after H (r.on H e) es := rfl

theorem after_append (r : Reconciler) (es es' : List Event) :
    after H r (es ++ es') = after H (after H r es) es' := List.foldl_append

theorem after_concat (r : Reconciler) (es : List Event) (e : Event) :
    after H r (es ++ [e]) = (after H r es).on H e := after_append r es [e]

/-- What every event keeps holds after a history. -/
theorem after_induction {P : Reconciler → Prop} {r : Reconciler} {es : List Event} (h : P r)
    (hon : ∀ r, ∀ e ∈ es, P r → P (r.on H e)) : P (after H r es) := by
  induction es generalizing r with
  | nil => exact h
  | cons e es ih =>
      exact ih (hon r e List.mem_cons_self h)
        (fun r e he => hon r e (List.mem_cons_of_mem _ he))

/-- A pass ends with a step after a history of others. -/
theorem last_of_steps {agent : Agent} {r r' : Reconciler} {outcome : Outcome}
    (h : steps H agent r = some (r', outcome)) :
    ∃ n, (after H r (List.replicate n (.step agent))).step H agent = (r', some outcome) := by
  refine loop_induction
    (P := fun r result =>
      ∃ n, (after H r (List.replicate n (.step agent))).step H agent = (result.1, some result.2))
    ?_ ?_ h
  · intro r r' outcome hstep
    exact ⟨0, hstep⟩
  · rintro r r' result hstep ⟨n, hn⟩
    refine ⟨n + 1, ?_⟩
    rw [List.replicate_succ, after_cons]
    simpa only [on, hstep] using hn

theorem last_of_pass {agent : Agent} {r r' : Reconciler} {outcome : Outcome}
    (h : r.pass H agent = (r', some outcome)) :
    ∃ n, (after H r (.call :: List.replicate n (.step agent))).step H agent =
      (r', some outcome) := by
  unfold pass at h
  dsimp only at h
  split at h
  · rename_i r₁ outcome₁ hsteps
    cases h
    exact last_of_steps hsteps
  · cases h

/-- Steps that go on, and one that does not, make a pass. -/
theorem steps_of_last {agent : Agent} {r r' : Reconciler} {outcome : Outcome} {n : Nat}
    (onward : ∀ k < n, ((after H r (List.replicate k (.step agent))).step H agent).2 = none)
    (last : (after H r (List.replicate n (.step agent))).step H agent = (r', some outcome)) :
    steps H agent r = some (r', outcome) := by
  induction n generalizing r with
  | zero => exact loop_of_some last
  | succ n ih =>
      have hfirst : r.step H agent = ((r.step H agent).1, none) :=
        Prod.ext rfl (onward 0 (Nat.succ_pos n))
      refine (loop_of_none hfirst).trans (ih (r := (r.step H agent).1) ?_ ?_)
      · intro k hk
        have hnext := onward (k + 1) (Nat.succ_lt_succ hk)
        rwa [List.replicate_succ, after_cons] at hnext
      · rwa [List.replicate_succ, after_cons] at last

/-- The same, with the call that begins the pass. -/
theorem pass_of_last (agent : Agent) (r : Reconciler) (outcome : Outcome) (n : Nat)
    (onward : ∀ k < n,
      ((after H r (.call :: List.replicate k (.step agent))).step H agent).2 = none)
    (last : ((after H r (.call :: List.replicate n (.step agent))).step H agent).2 = some outcome) :
    r.pass H agent = (after H r (.call :: List.replicate (n + 1) (.step agent)), some outcome) := by
  have hlast : (after H (r.on H .call) (List.replicate n (.step agent))).step H agent =
      (after H r (.call :: List.replicate (n + 1) (.step agent)), some outcome) := by
    refine Prod.ext ?_ last
    rw [List.replicate_succ', ← List.cons_append, after_concat]
    rfl
  have hsteps := steps_of_last (r := r.on H .call) onward hlast
  unfold pass
  dsimp only
  rw [show { r with tally.runs := r.tally.runs + 1 } = r.on H .call from rfl, hsteps]

/-- What a pass comes to is a history of steps. -/
theorem eq_after_of_steps {agent : Agent} {r r' : Reconciler} {outcome : Outcome}
    (h : steps H agent r = some (r', outcome)) :
    ∃ n, r' = after H r (List.replicate n (.step agent)) := by
  obtain ⟨n, hn⟩ := last_of_steps h
  refine ⟨n + 1, ?_⟩
  rw [List.replicate_succ', after_concat]
  simp only [on, hn]

theorem pass_eq_after (agent : Agent) (r : Reconciler) :
    ∃ n, (r.pass H agent).1 = after H r (.call :: List.replicate n (.step agent)) := by
  unfold pass
  dsimp only
  split
  · rename_i r' outcome hsteps
    exact eq_after_of_steps hsteps
  · exact ⟨0, rfl⟩

end Reconciler

namespace Event

/-- A root is announced only if an honest tree stands under it. -/
def Honest (H : Hashing) : Event → Prop
  | announce d => Reconcile.Honest H d
  | handIn bytes => Reconciler.HonestBody H bytes
  | complete _ _ | call | step _ => True

def roots : Event → List Digest
  | announce d => [d]
  | handIn _ | complete _ _ | call | step _ => []

def bodies : Event → List Bytes
  | handIn bytes => [bytes]
  | announce _ | complete _ _ | call | step _ => []

/-- Whether a root is announced, by its digest or its body. -/
def announces : Event → Bool
  | announce _ | handIn _ => true
  | complete _ _ | call | step _ => false

end Event

/-- The announcements of a history. -/
def announcements (es : List Event) : List Event := es.filter Event.announces

namespace Reconciler

variable {H : Hashing} {S : Name → Prop} {r : Reconciler}

theorem evolves_on (inj : Function.Injective H) (h : r.Orderly H S) {e : Event}
    (he : e.announces = false)
    (hadopt : r.awaitsBaseline = true →
      ∀ d ∈ (r.on H e).baseline, ∀ a ∈ namesBelow H d, S a) :
    Evolves H S r (r.on H e) := by
  cases e with
  | announce d => cases he
  | handIn bytes => cases he
  | complete d result => exact evolves_of_fetches h (fetches_complete r d result)
  | call => exact evolves_of_fetches h ⟨.refl _, rfl, rfl⟩
  | step agent => exact evolves_step inj agent h hadopt

theorem Orderly.on (inj : Function.Injective H) (h : r.Orderly H S) {e : Event}
    (he : e.Honest H)
    (hadopt : r.awaitsBaseline = true →
      ∀ d ∈ (r.on H e).baseline, ∀ a ∈ namesBelow H d, S a) : (r.on H e).Orderly H S := by
  cases e with
  | announce d => exact h.announce he
  | handIn bytes => exact h.handIn he
  | complete d result => exact (evolves_on (e := .complete d result) inj h rfl hadopt).orderly
  | call => exact (evolves_on (e := .call) inj h rfl hadopt).orderly
  | step agent => exact (evolves_on (e := .step agent) inj h rfl hadopt).orderly

/-! ## The baseline that a history starts from -/

/-- The first baseline of a history: the one it begins with, or the one that is adopted in it. -/
def startBaseline (H : Hashing) : Reconciler → List Event → Option Digest
  | r, [] => r.baseline
  | r, e :: es => if r.awaitsBaseline then startBaseline H (r.on H e) es else r.baseline

theorem Adoption.awaits_false {l : Ledger} {awaits : Bool} {baseline : Option Digest}
    {ds : List Digest} (h : Adoption H l awaits baseline ds) (hl : l.awaitsBaseline = false) :
    awaits = false ∧ baseline = l.baseline := by
  cases h with
  | without brought nodes none_yet => exact ⟨hl, rfl⟩
  | adopted front body back split awaited node brought nodes => cases hl.symm.trans awaited

theorem Change.awaits_false {known : Digest → Bool} {l l' : Ledger} (h : Change H known l l')
    (hl : l.awaitsBaseline = false) : l'.awaitsBaseline = false := by
  cases h with
  | quiet phase => exact hl
  | note y a round mem new => exact hl
  | close y extra round kept => exact hl
  | abandon y baseline extra round work kept => exact hl
  | rest round adoption none_left => exact (adoption.awaits_false hl).1
  | start best round adoption chosen => exact (adoption.awaits_false hl).1

/-- A baseline is awaited only until there is one. -/
theorem awaits_false_on (inj : Function.Injective H) (h : r.Orderly H S) (e : Event)
    (hr : r.awaitsBaseline = false) : (r.on H e).awaitsBaseline = false := by
  have hadopt : r.awaitsBaseline = true →
      ∀ d ∈ (r.on H e).baseline, ∀ a ∈ namesBelow H d, S a := by
    intro hawaits
    cases hr.symm.trans hawaits
  cases e with
  | announce d =>
      simp only [Reconciler.on, announce]
      split <;> exact hr
  | handIn bytes => exact hr
  | complete d result =>
      exact (evolves_on (e := .complete d result) inj h rfl hadopt).change.awaits_false hr
  | call => exact (evolves_on (e := .call) inj h rfl hadopt).change.awaits_false hr
  | step agent => exact (evolves_on (e := .step agent) inj h rfl hadopt).change.awaits_false hr

theorem startBaseline_of_awaits_false (hr : r.awaitsBaseline = false) (es : List Event) :
    startBaseline H r es = r.baseline := by
  cases es <;> simp [startBaseline, hr]

/-- A history keeps a reconciler in order, if the names of a baseline that is adopted in it are known
from the start. Nothing is adopted while a baseline is still awaited. -/
theorem Orderly.after (inj : Function.Injective H) (h : r.Orderly H S) {es : List Event}
    (hes : ∀ e ∈ es, e.Honest H)
    (hstart : r.awaitsBaseline = true →
      ∀ d ∈ startBaseline H r es, ∀ a ∈ namesBelow H d, S a) :
    (after H r es).Orderly H S := by
  induction es generalizing r with
  | nil => exact h
  | cons e es ih =>
      have he : e.Honest H := hes e List.mem_cons_self
      have hes' : ∀ e ∈ es, e.Honest H := fun e he => hes e (List.mem_cons_of_mem _ he)
      rw [after_cons]
      cases hawaits : r.awaitsBaseline with
      | false =>
          have hon := h.on inj he (fun hawaits' => nomatch hawaits.symm.trans hawaits')
          refine ih hon hes' ?_
          intro hawaits'
          cases (awaits_false_on inj h e hawaits).symm.trans hawaits'
      | true =>
          have hstart := hstart hawaits
          rw [startBaseline, if_pos hawaits] at hstart
          have hloose := (h.mono (fun _ _ => trivial)).on (S := fun _ => True) inj he
            (fun _ _ _ _ _ => trivial)
          have hadopt : ∀ d ∈ (r.on H e).baseline, ∀ a ∈ namesBelow H d, S a := by
            intro d hd
            cases hawaits' : (r.on H e).awaitsBaseline with
            | false =>
                rw [startBaseline_of_awaits_false hawaits'] at hstart
                exact hstart d hd
            | true =>
                rw [(hloose.awaiting hawaits').1] at hd
                cases hd
          exact ih (h.on inj he (fun _ => hadopt)) hes' (fun _ => hstart)

end Reconciler

/-! ## Trees for worked histories -/

namespace Sample

/-- A full name for each byte. -/
def name (k : UInt8) : Name := ⟨[[k], [k]]⟩

def flat (ks : List UInt8) : Node := Node.ofNames (ks.map name)

/-- Content stands as its own digest, which nothing else can have. -/
def root (n : Node) : Digest := n.digest Digest.mk

/-- A node is fetched. -/
def fetched (n : Node) : Event := .complete (root n) (.ok n.encode)

def stepping (count : Nat) : List Event := List.replicate count (.step .accepting)

/-- A reconciler that starts from a baseline. -/
def comparing (x : Node) : Reconciler := .create (.ofAttempts 3) (.root (root x)) none

theorem injective_mk : Function.Injective Digest.mk := fun _ _ h => congrArg Digest.bytes h

theorem honestTree_flat (ks : List UInt8) :
    HonestTree Digest.mk (root (flat ks)) (ascending (ks.map name)) :=
  honestTree_ofNames Digest.mk (ks.map name)

/-- The name `1` beside a branch `{2}`. -/
def branching : Node where
  items := [.leaf (name 1), .ref (root (flat [2]))]
  least := name 1
  greatest := name 2
  count := 2

theorem honestTree_branching : HonestTree Digest.mk (root branching) [name 1, name 2] := by
  have hrow : branching.row (fun _ => [name 2]) = [name 1, name 2] := rfl
  rw [← hrow]
  refine .node (denotes_digest Digest.mk branching) ?_ ⟨?_, by decide, ?_, ?_⟩
  · intro e he
    obtain rfl := List.mem_singleton.mp he
    exact honestTree_flat [2]
  · intro e _
    exact List.cons_ne_nil _ _
  · intro a ha
    exact (Option.some.inj ha).symm
  · intro a ha
    exact (Option.some.inj ha).symm

/-- A branch that branches itself, beside the name `3`. -/
def wider : Node where
  items := [.ref (root branching), .leaf (name 3)]
  least := name 1
  greatest := name 3
  count := 3

theorem honestTree_wider : HonestTree Digest.mk (root wider) [name 1, name 2, name 3] := by
  have hrow : wider.row (fun _ => [name 1, name 2]) = [name 1, name 2, name 3] := rfl
  rw [← hrow]
  refine .node (denotes_digest Digest.mk wider) ?_ ⟨?_, by decide, ?_, ?_⟩
  · intro e he
    obtain rfl := List.mem_singleton.mp he
    exact honestTree_branching
  · intro e _
    exact List.cons_ne_nil _ _
  · intro a ha
    exact (Option.some.inj ha).symm
  · intro a ha
    exact (Option.some.inj ha).symm

/-- The branching root is announced and compared with the baseline `{1, 3}`. Every node is fetched when
it is asked for. -/
def widening : List Event :=
  [.announce (root wider), .call] ++ stepping 2 ++ [fetched wider] ++ stepping 1 ++
    [fetched branching] ++ stepping 3 ++ [fetched (flat [1, 3])] ++ stepping 6 ++
    [fetched (flat [2])] ++ stepping 8

end Sample

end Reconcile

import Reconcile.Proofs.Reconciler.Ledger

/-! # What a step does to the ledger

A step changes the ledger in one of a few ways. Only one of them finds a name, and the name is a new
one; only the end of a round takes names out of what the reconciler remembers. -/

namespace Reconcile.Reconciler

variable {H : Hashing} {known : Digest → Bool}

/-- What taking the waiting bodies in does to the ledger: whether a baseline is still awaited, which
there is, and which candidates came with the bodies. -/
inductive Adoption (H : Hashing) (l : Ledger) : Bool → Option Digest → List Digest → Prop
  | without {ds : List Digest} (brought : ds.Sublist (l.queue.bodies.map H))
      (nodes : ∀ d ∈ ds, ∃ n, Denotes H d n) (none_yet : l.awaitsBaseline = true → ds = []) :
      Adoption H l l.awaitsBaseline l.baseline ds
  | adopted {ds : List Digest} (front : List Bytes) (body : Bytes) (back : List Bytes)
      (split : l.queue.bodies = front ++ body :: back) (awaited : l.awaitsBaseline = true)
      (node : ∃ n, Denotes H (H body) n) (brought : ds.Sublist (back.map H))
      (nodes : ∀ d ∈ ds, ∃ n, Denotes H d n) : Adoption H l false (some (H body)) ds

/-- The roots that may be chosen, given those that came with bodies. -/
def candidates (known : Digest → Bool) (l : Ledger) (awaits : Bool) (baseline : Option Digest)
    (ds : List Digest) : List Digest :=
  ascending ((ds ++ if awaits then [] else l.queue.roots).filter
    (fun d => some d ≠ baseline && !known d))

/-- The roots that go on waiting when a baseline is still awaited. -/
def Ledger.kept (l : Ledger) (awaits : Bool) : List Digest := if awaits then l.queue.roots else []

/-- How a ledger changes in a step. `known` are the digests known in full before. -/
inductive Change (H : Hashing) (known : Digest → Bool) (l : Ledger) : Ledger → Prop
  | quiet (phase : Phase) : Change H known l { l with phase }
  /-- A name is found. -/
  | note (y : Digest) (a : Name) (round : l.round = some y) (mem : a ∈ namesBelow H y)
      (new : ¬ l.Remembers H a) :
      Change H known l { l with recorded := l.recorded ++ [a], log := l.log ++ [a] }
  /-- The round is through. -/
  | close (y : Digest) (extra : Option Node) (round : l.round = some y)
      (kept : ∀ a, (∃ n ∈ l.extra, a ∈ n.leaves) ∨ a ∈ l.recorded →
        a ∈ namesBelow H y ∨ ∃ n ∈ extra, a ∈ n.leaves) :
      Change H known l
        { l with
          extra
          baseline := some y
          round := none
          recorded := []
          completed := l.completed + 1
          queue.active := none
          phase := .done }
  /-- The round is given up for another root. -/
  | abandon (y : Digest) (baseline : Option Digest) (extra : Option Node) (round : l.round = some y)
      (work : l.hasWork = true)
      (kept : ∀ a, l.Remembers H a → a ∈ heldNames H baseline ∨ ∃ n ∈ extra, a ∈ n.leaves) :
      Change H known l
        { l with
          extra
          baseline
          round := none
          recorded := []
          queue.active := none
          phase := .choosing }
  /-- There is no root to choose. -/
  | rest {awaits : Bool} {baseline : Option Digest} {ds : List Digest} (round : l.round = none)
      (adoption : Adoption H l awaits baseline ds)
      (none_left : candidates known l awaits baseline ds = []) :
      Change H known l
        { l with
          awaitsBaseline := awaits
          baseline
          queue := { roots := l.kept awaits }
          phase := .done }
  /-- A root is chosen. -/
  | start {awaits : Bool} {baseline : Option Digest} {ds : List Digest} (best : Digest)
      (round : l.round = none) (adoption : Adoption H l awaits baseline ds)
      (chosen : (candidates known l awaits baseline ds).getLast? = some best) :
      Change H known l
        { l with
          awaitsBaseline := awaits
          baseline
          queue := {
            roots := addMissing (l.kept awaits) (candidates known l awaits baseline ds).dropLast
            active := some best }
          phase := .loading
          round := some best
          recorded := [] }

theorem change_refl (l : Ledger) : Change H known l l := .quiet l.phase

/-! ## The waiting bodies -/

theorem adoption_of_taking {r r' : Reconciler} {ds : List Digest}
    (h : Taking H { r with queue.bodies := [] } r.queue.bodies r' ds) :
    Adoption H r.ledger r'.awaitsBaseline r'.baseline ds := by
  cases h with
  | kept fetches brought nodes none_yet =>
      rw [fetches.awaitsBaseline, fetches.baseline]
      exact .without brought nodes none_yet
  | adopted front body back split awaited node fetches brought nodes =>
      rw [fetches.awaitsBaseline, fetches.baseline]
      exact .adopted front body back split awaited node brought nodes

theorem known_of_taking {r r' : Reconciler} {bodies : List Bytes} {ds : List Digest}
    (h : Taking H r bodies r' ds) : r'.cache.known = r.cache.known := by
  cases h with
  | kept fetches brought nodes none_yet => exact fetches.known
  | adopted front body back split awaited node fetches brought nodes => exact fetches.known

/-- Taking bodies in changes the ledger only in what `Adoption` tells. -/
theorem ledger_of_taking {r r' : Reconciler} {bodies : List Bytes} {ds : List Digest}
    (h : Taking H r bodies r' ds) :
    r'.ledger =
      { r.ledger with awaitsBaseline := r'.awaitsBaseline, baseline := r'.baseline } := by
  cases h with
  | kept fetches brought nodes none_yet =>
      rw [fetches.ledger, fetches.awaitsBaseline, fetches.baseline]
      rfl
  | adopted front body back split awaited node fetches brought nodes =>
      rw [fetches.ledger, fetches.awaitsBaseline, fetches.baseline]
      rfl

/-- How the next root is chosen, once the bodies are taken in. -/
theorem choose_cases {r : Reconciler} (hr : r.cache.Genuine H) :
    ∃ mid ds, takeBodies H r.queue.bodies [] { r with queue.bodies := [] } = (mid, ds) ∧
      Taking H { r with queue.bodies := [] } r.queue.bodies mid ds ∧
      let roots := candidates r.cache.known r.ledger mid.awaitsBaseline mid.baseline ds
      (roots = [] ∧
        r.choose H = { mid with
          queue := { roots := r.ledger.kept mid.awaitsBaseline }
          phase := .done }) ∨
      ∃ best, roots.getLast? = some best ∧
        r.choose H = openRound { mid with
          queue := {
            roots := addMissing (r.ledger.kept mid.awaitsBaseline) roots.dropLast
            active := some best } } best := by
  obtain ⟨ds, hds, htaking⟩ := taking_takeBodies r.queue.bodies []
    (r := { r with queue.bodies := [] }) hr
  refine ⟨_, ds, Prod.ext rfl hds, htaking, ?_⟩
  have hknown := known_of_taking htaking
  have hqueue := congrArg Ledger.queue (ledger_of_taking htaking)
  unfold choose
  generalize takeBodies H r.queue.bodies [] { r with queue.bodies := [] } = taken at *
  obtain ⟨mid, ds'⟩ := taken
  obtain rfl : ds' = ds := hds
  obtain ⟨cache, queue, phase, round, awaits, baseline, extra, firstName, traversal, recorded, tally,
    journal⟩ := mid
  dsimp only [ledger] at hknown hqueue
  obtain rfl := hqueue
  have hroots : candidates r.cache.known r.ledger awaits baseline ds' =
      ascending ((if awaits then ds' else ds' ++ r.queue.roots).filter
        (fun d => some d ≠ baseline && !cache.known d)) := by
    rw [hknown]
    cases awaits <;> simp [candidates, ledger]
  cases awaits with
  | false =>
      simp only [Bool.false_eq_true, if_false] at hroots ⊢
      rw [← hroots]
      cases hlast : (candidates r.cache.known r.ledger false baseline ds').getLast? with
      | none => exact .inl ⟨List.getLast?_eq_none_iff.mp hlast, rfl⟩
      | some best => exact .inr ⟨best, rfl, rfl⟩
  | true =>
      simp only [if_true] at hroots ⊢
      rw [← hroots]
      cases hlast : (candidates r.cache.known r.ledger true baseline ds').getLast? with
      | none => exact .inl ⟨List.getLast?_eq_none_iff.mp hlast, rfl⟩
      | some best => exact .inr ⟨best, rfl, rfl⟩

end Reconcile.Reconciler

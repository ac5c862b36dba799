import Reconcile.Proofs.Cache.Sifting
import Reconcile.Reconciler.Pass

/-! # What a reconciler remembers

The ledger of a reconciler is what decides which names it will find new, without the nodes at hand and
the positions in them. Looking at nodes and asking for them leaves the ledger alone. -/

namespace Reconcile.Reconciler

variable {H : Hashing}

/-- Everything that a reconciler decides by, but for its nodes and its positions. -/
structure Ledger where
  queue : Queue
  phase : Phase
  round : Option Digest
  awaitsBaseline : Bool
  baseline : Option Digest
  extra : Option Node
  /-- Names found in the round in progress. -/
  recorded : List Name
  /-- All names that were ever found. -/
  log : List Name
  completed : Nat

def ledger (r : Reconciler) : Ledger where
  queue := r.queue
  phase := r.phase
  round := r.round
  awaitsBaseline := r.awaitsBaseline
  baseline := r.baseline
  extra := r.extra
  recorded := r.recorded
  log := r.journal.recorded
  completed := r.tally.completed

namespace Ledger

/-- A name that will not be found again: the baseline holds it, the stand-in beside it lists it, or it
was found in this round. -/
def Remembers (H : Hashing) (l : Ledger) (a : Name) : Prop :=
  a ∈ heldNames H l.baseline ∨ (∃ n ∈ l.extra, a ∈ n.leaves) ∨ a ∈ l.recorded

def hasWork (l : Ledger) : Bool :=
  !l.queue.bodies.isEmpty || (!l.awaitsBaseline && !l.queue.roots.isEmpty)

end Ledger

theorem mem_remembered {r : Reconciler} {a : Name} :
    a ∈ r.remembered ↔ (∃ n ∈ r.extra, a ∈ n.leaves) ∨ a ∈ r.recorded := by
  cases hextra : r.extra <;> simp [remembered, hextra, or_comm]

theorem remembers_iff {r : Reconciler} {a : Name} :
    r.ledger.Remembers H a ↔ a ∈ heldNames H r.baseline ∨ a ∈ r.remembered := by
  rw [mem_remembered]
  rfl

/-! ## Fetching -/

/-- A reconciler that only looked at nodes or asked for them. -/
structure Fetches (H : Hashing) (r r' : Reconciler) : Prop where
  keeps : Cache.Keeps H r.cache r'.cache
  traversal : r'.traversal = r.traversal
  ledger : r'.ledger = r.ledger

namespace Fetches

variable {r r' r'' : Reconciler}

theorem refl (r : Reconciler) : Fetches H r r := ⟨.refl r.cache, rfl, rfl⟩

theorem trans (h : Fetches H r r') (h' : Fetches H r' r'') : Fetches H r r'' :=
  ⟨h.keeps.trans h'.keeps, h'.traversal.trans h.traversal, h'.ledger.trans h.ledger⟩

theorem queue (h : Fetches H r r') : r'.queue = r.queue := congrArg Ledger.queue h.ledger

theorem phase (h : Fetches H r r') : r'.phase = r.phase := congrArg Ledger.phase h.ledger

theorem round (h : Fetches H r r') : r'.round = r.round := congrArg Ledger.round h.ledger

theorem awaitsBaseline (h : Fetches H r r') : r'.awaitsBaseline = r.awaitsBaseline :=
  congrArg Ledger.awaitsBaseline h.ledger

theorem baseline (h : Fetches H r r') : r'.baseline = r.baseline :=
  congrArg Ledger.baseline h.ledger

theorem extra (h : Fetches H r r') : r'.extra = r.extra := congrArg Ledger.extra h.ledger

theorem recorded (h : Fetches H r r') : r'.recorded = r.recorded :=
  congrArg Ledger.recorded h.ledger

theorem log (h : Fetches H r r') : r'.journal.recorded = r.journal.recorded :=
  congrArg Ledger.log h.ledger

theorem completed (h : Fetches H r r') : r'.tally.completed = r.tally.completed :=
  congrArg Ledger.completed h.ledger

theorem known (h : Fetches H r r') : r'.cache.known = r.cache.known := funext h.keeps.known

end Fetches

theorem fetches_cache (r : Reconciler) {c : Cache} (h : Cache.Keeps H r.cache c) :
    Fetches H r { r with cache := c } :=
  ⟨h, rfl, rfl⟩

theorem fetches_look (r : Reconciler) (d : Digest) : Fetches H r (r.look H d).1 :=
  fetches_cache r (Cache.keeps_look r.cache d)

theorem denotes_of_look {r : Reconciler} (hr : r.cache.Genuine H) {d : Digest} {n : Node}
    (h : (r.look H d).2 = .present n) : Denotes H d n :=
  Cache.denotes_of_look hr h

theorem fetches_await (agent : Agent) (r : Reconciler) (d : Digest) :
    Fetches H r (r.await agent d) := by
  have hkeeps := Cache.keeps_request (H := H) r.cache d (agent r.journal.asked d)
  unfold await request
  split <;> rename_i h <;> rw [h] at hkeeps <;> exact ⟨hkeeps, rfl, rfl⟩

/-! ## Taking bodies in -/

/-- What taking a row of bodies in comes to: the candidates it brings, and the baseline if one was
awaited. Every body that counts is that of a node. -/
inductive Taking (H : Hashing) (r : Reconciler) (bodies : List Bytes) :
    Reconciler → List Digest → Prop
  | kept {r' : Reconciler} {ds : List Digest} (fetches : Fetches H r r')
      (brought : ds.Sublist (bodies.map H)) (nodes : ∀ d ∈ ds, ∃ n, Denotes H d n)
      (none_yet : r.awaitsBaseline = true → ds = []) : Taking H r bodies r' ds
  | adopted {r' : Reconciler} {ds : List Digest} (front : List Bytes) (body : Bytes)
      (back : List Bytes) (split : bodies = front ++ body :: back)
      (awaited : r.awaitsBaseline = true)
      (node : ∃ n, Denotes H (H body) n)
      (fetches :
        Fetches H { r with awaitsBaseline := false, baseline := some (H body) } r')
      (brought : ds.Sublist (back.map H)) (nodes : ∀ d ∈ ds, ∃ n, Denotes H d n) :
      Taking H r bodies r' ds

theorem Fetches.adopt {r r' : Reconciler} (h : Fetches H r r') (d : Digest) :
    Fetches H { r with awaitsBaseline := false, baseline := some d }
      { r' with awaitsBaseline := false, baseline := some d } := by
  refine ⟨h.keeps, h.traversal, ?_⟩
  simp only [Reconciler.ledger, h.queue, h.phase, h.round, h.extra, h.recorded, h.log, h.completed]

theorem taking_takeBodies (bodies : List Bytes) (candidates : List Digest) {r : Reconciler}
    (hr : r.cache.Genuine H) :
    ∃ ds, (takeBodies H bodies candidates r).2 = candidates ++ ds ∧
      Taking H r bodies (takeBodies H bodies candidates r).1 ds := by
  induction bodies generalizing candidates r with
  | nil =>
      exact ⟨[], (List.append_nil _).symm, .kept (.refl r) (.refl _) (by simp) (fun _ => rfl)⟩
  | cons body rest ih =>
      have hput : Cache.Keeps H r.cache (r.cache.putBytes H body).1 := Cache.keeps_putBytes _ _
      simp only [takeBodies]
      split
      · rename_i cache e h
        rw [h] at hput
        obtain ⟨ds, hds, htaking⟩ := ih candidates (r := { r with cache }) (hput.genuine hr)
        refine ⟨ds, hds, ?_⟩
        cases htaking with
        | kept fetches brought nodes none_yet =>
            exact .kept ((fetches_cache r hput).trans fetches) (brought.cons (H body)) nodes none_yet
        | adopted front b back split awaited node fetches brought nodes =>
            refine .adopted (body :: front) b back (by rw [split]; rfl) awaited node ?_ brought nodes
            exact ((fetches_cache r hput).adopt (H b)).trans fetches
      · rename_i cache d h
        rw [h] at hput
        obtain ⟨rfl, hnode⟩ := Cache.denotes_of_putBytes hr (by rw [h])
        split
        · rename_i hawaits
          obtain ⟨ds, hds, htaking⟩ := ih candidates
            (r := { r with cache, awaitsBaseline := false, baseline := some (H body) })
            (hput.genuine hr)
          refine ⟨ds, hds, ?_⟩
          cases htaking with
          | kept fetches brought nodes none_yet =>
              refine .adopted [] body rest rfl hawaits hnode ?_ brought nodes
              exact ((fetches_cache r hput).adopt (H body)).trans fetches
          | adopted front b back split awaited => cases awaited
        · rename_i hawaits
          obtain ⟨ds, hds, htaking⟩ := ih (candidates ++ [H body]) (r := { r with cache })
            (hput.genuine hr)
          refine ⟨H body :: ds, by rw [hds, List.append_assoc]; rfl, ?_⟩
          cases htaking with
          | kept fetches brought nodes none_yet =>
              refine .kept ((fetches_cache r hput).trans fetches) (brought.cons_cons (H body)) ?_
                (fun h => absurd h hawaits)
              intro d hd
              rcases List.mem_cons.mp hd with rfl | hd
              · exact hnode
              · exact nodes d hd
          | adopted front b back split awaited => exact absurd awaited hawaits

end Reconcile.Reconciler

import Reconcile.Cache.Search
import Reconcile.Traversal

/-! A reconciler compares one root after another with a baseline and tells which names are new. It
takes up the greatest of the roots that are waiting, fetches what it needs of that tree, walks it
beside the baseline, and makes it the baseline when the traversal is through. Here is what a
reconciler remembers, and what it does with a root before and after the traversal. -/

namespace Reconcile

/-- Who is asked to fetch nodes: given all that it was asked before and what it is asked for now,
its refusal if it refuses. -/
abbrev Agent := List Digest → Digest → Option FetchFailure

def Agent.accepting : Agent := fun _ _ => none

def Agent.refusing (e : FetchFailure) : Agent := fun _ _ => some e

inductive Origin
  /-- There is none: every name of the first root is new. -/
  | empty
  | root (d : Digest)
  /-- The first root whose body is handed in; its names are not new. -/
  | current
deriving Repr, DecidableEq

inductive Phase
  | choosing
  /-- Fetching the root and what it refers to. -/
  | loading
  | comparing
  | done
deriving Repr, DecidableEq

namespace Phase

def name : Phase → String
  | choosing => "Init"
  | loading => "Preload"
  | comparing => "Compare"
  | done => "Done"

end Phase

inductive Outcome
  | idle
  | waiting
  /-- The nodes that are needed cannot be had. -/
  | stuck
  /-- The tree was malformed; its round is over. -/
  | malformed
  /-- Another run was under way and will go round once more. -/
  | busy
deriving Repr, DecidableEq

namespace Outcome

def name : Outcome → String
  | idle => "Idle"
  | waiting => "Waiting"
  | stuck => "Stalled"
  | malformed => "Faulted"
  | busy => "Busy"

end Outcome

structure Tally where
  runs : Nat := 0
  completed : Nat := 0
  aborted : Nat := 0
  recorded : Nat := 0
  faults : Nat := 0
  sent : Nat := 0
deriving Repr, DecidableEq

structure Queue where
  roots : List Digest := []
  bodies : List Bytes := []
  active : Option Digest := none
deriving Repr, DecidableEq

/-- Everything that a reconciler did that others can see, oldest first. -/
structure Journal where
  asked : List Digest := []
  /-- Those of them that it agreed to fetch. -/
  accepted : List Digest := []
  /-- Full names that were found to be new. -/
  recorded : List Name := []
  delivered : List Name := []
deriving Repr, DecidableEq

structure Reconciler where
  cache : Cache
  queue : Queue := {}
  phase : Phase := .choosing
  round : Option Digest := none
  /-- Whether the first root handed in with its body becomes the baseline. -/
  awaitsBaseline : Bool := false
  /-- The root whose names are known. -/
  baseline : Option Digest := none
  /-- Names that are known although the baseline is not known to hold them. -/
  extra : Option Node := none
  /-- Nothing is handed out before this name. -/
  firstName : Option Name := none
  traversal : Traversal := {}
  recorded : List Name := []
  tally : Tally := {}
  journal : Journal := {}
deriving Repr, DecidableEq

namespace Reconciler

def create (cache : Cache) (start : Origin) (firstName : Option Name) : Reconciler :=
  { cache
    firstName
    baseline := match start with
      | .root d => some d
      | .empty | .current => none
    awaitsBaseline := match start with
      | .current => true
      | .empty | .root _ => false }

/-- Add a root, unless it is waiting already or its round is in progress. -/
def announce (r : Reconciler) (d : Digest) : Reconciler × Bool :=
  if r.queue.roots.contains d || r.queue.active = some d then (r, false)
  else ({ r with queue.roots := r.queue.roots ++ [d] }, true)

def handIn (r : Reconciler) (bytes : Bytes) : Reconciler :=
  { r with queue.bodies := r.queue.bodies ++ [bytes] }

def look (H : Hashing) (r : Reconciler) (d : Digest) : Reconciler × Cache.Finding :=
  let (cache, found) := r.cache.look H d
  ({ r with cache }, found)

/-- Ask for a node. There is no answer if the agent refused. -/
def request (agent : Agent) (r : Reconciler) (d : Digest) : Reconciler × Option Cache.Request :=
  match r.cache.request d (agent r.journal.asked d) with
  | (cache, .ok .sent) =>
    ({ r with
        cache
        tally.sent := r.tally.sent + 1
        journal.asked := r.journal.asked ++ [d]
        journal.accepted := r.journal.accepted ++ [d] }, some .sent)
  | (cache, .ok answer) => ({ r with cache }, some answer)
  | (cache, .error _) => ({ r with cache, journal.asked := r.journal.asked ++ [d] }, none)

def await (agent : Agent) (r : Reconciler) (d : Digest) : Reconciler := (r.request agent d).1

/-- Hand out the name of new content, unless the first name is still to come. -/
def deliver (r : Reconciler) (stripped : Name) : Reconciler :=
  if r.firstName.all (· = stripped) then
    { r with firstName := none, journal.delivered := r.journal.delivered ++ [stripped] }
  else r

def record (r : Reconciler) (name : Name) : Reconciler :=
  if r.extra.any (·.lists name) then r
  else
    deliver
      { r with
        recorded := r.recorded ++ [name]
        tally.recorded := r.tally.recorded + 1
        journal.recorded := r.journal.recorded ++ [name] }
      name.parent

def hasWork (r : Reconciler) : Bool :=
  !r.queue.bodies.isEmpty || (!r.awaitsBaseline && !r.queue.roots.isEmpty)

/-- Take the waiting bodies in. The first that decodes becomes the baseline if one is awaited; the
digests of all others are candidates. A body that does not decode is dropped. -/
def takeBodies (H : Hashing) :
    List Bytes → List Digest → Reconciler → Reconciler × List Digest
  | [], candidates, r => (r, candidates)
  | body :: rest, candidates, r =>
    match r.cache.putBytes H body with
    | (cache, .error _) => takeBodies H rest candidates { r with cache }
    | (cache, .ok d) =>
      if r.awaitsBaseline then
        takeBodies H rest candidates { r with cache, awaitsBaseline := false, baseline := some d }
      else takeBodies H rest (candidates ++ [d]) { r with cache }

def addMissing (roots : List Digest) : List Digest → List Digest
  | [] => roots
  | d :: rest => addMissing (if roots.contains d then roots else roots ++ [d]) rest

def openRound (r : Reconciler) (root : Digest) : Reconciler :=
  { r with
    phase := .loading
    round := some root
    traversal := Traversal.begin r.baseline root
    recorded := [] }

/-- Choose the greatest root that is neither the baseline nor known in full, if there is one. The
others go on waiting. -/
def choose (H : Hashing) (r : Reconciler) : Reconciler :=
  let (r, candidates) := takeBodies H r.queue.bodies [] { r with queue.bodies := [] }
  let (r, candidates) :=
    if r.awaitsBaseline then (r, candidates)
    else ({ r with queue.roots := [] }, candidates ++ r.queue.roots)
  let candidates :=
    ascending (candidates.filter (fun d => some d ≠ r.baseline && !r.cache.known d))
  match candidates.getLast? with
  | none => { r with phase := .done, queue.active := none }
  | some best =>
    let roots := addMissing r.queue.roots candidates.dropLast
    openRound { r with queue.roots := roots, queue.active := some best } best

inductive Progress
  | through
  | waiting
  | stuck
deriving Repr, DecidableEq

/-- Ask for each of a row of nodes that are not known in full, and tell whether any is to be waited
for. -/
def requestEach (agent : Agent) : List Digest → Bool → Reconciler → Reconciler × Bool
  | [], waiting, r => (r, waiting)
  | d :: rest, waiting, r =>
    if r.cache.known d then requestEach agent rest waiting r
    else
      let (r, answer) := r.request agent d
      requestEach agent rest (waiting || answer.any (·.isAwaited)) r

def load (H : Hashing) (agent : Agent) (r : Reconciler) : Reconciler × Progress :=
  match r.round with
  | none => (r, .through)
  | some root =>
    match r.look H root with
    | (r, .present node) =>
      let (r, waiting) := requestEach agent node.refs false r
      (r, if waiting then .waiting else .through)
    | (r, .spoilt true) => (r, .stuck)
    | (r, _) => (r.await agent root, .waiting)

/-- The names that must not be found again: those of this round, and those known beside the
baseline. -/
def remembered (r : Reconciler) : List Name :=
  r.recorded ++ (r.extra.map Node.leaves).getD []

/-- The round is through: its root becomes the baseline. -/
def closeRound (H : Hashing) (r : Reconciler) : Reconciler :=
  match r.round with
  | none => { r with phase := .done }
  | some root =>
    let (cache, residue) := r.cache.sift H (some root) r.remembered
    { r with
      cache := cache.markKnown root
      extra := residue.remainder.map Prod.snd
      baseline := some root
      round := none
      recorded := []
      traversal := {}
      tally.completed := r.tally.completed + 1
      queue.active := none
      phase := .done }

/-- Give the round up, but keep what it found. Without a baseline, the stand-in for that becomes
one. -/
def abandonRound (H : Hashing) (r : Reconciler) : Reconciler :=
  let (cache, residue) := r.cache.sift H r.baseline r.remembered
  { r with
    cache
    extra := if r.baseline.isSome then residue.remainder.map Prod.snd else none
    baseline := r.baseline.or (residue.remainder.map Prod.fst)
    round := none
    recorded := []
    traversal := {}
    tally.aborted := r.tally.aborted + 1
    queue.active := none
    phase := .choosing }

def describe (r : Reconciler) (slice : String) : String :=
  "Comparator \x7b slice: SliceId(" ++ slice ++ "), state: " ++ r.phase.name ++ " \x7d"

end Reconciler

end Reconcile

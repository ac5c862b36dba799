import Reconcile.Loop
import Reconcile.Reconciler

/-! One pass of a reconciler, as a chain of small steps. A step of the traversal does one thing: it
fetches a node at one of the two innermost positions, leaves a node that is through, puts a branch
aside, or acts on the two items. A pass ends when there is nothing to do or nothing that can be done
now. -/

namespace Reconcile.Reconciler

inductive Stride
  | onward
  | through
  | waiting
  | stuck
  | fault (f : Traversal.Fault)
deriving Repr, DecidableEq

/-- Go through the branches that were put aside. The first whose node has come is walked now; the
others are asked for again while there is hope. -/
def resumeFrom (H : Hashing) (agent : Agent) :
    List Digest → Bool → Reconciler → Reconciler × Stride
  | [], waiting, r => (r, if waiting then .waiting else .stuck)
  | d :: rest, waiting, r =>
    match r.look H d with
    | (r, .present _) => ({ r with traversal := r.traversal.restart r.baseline d }, .onward)
    | (r, .spoilt true) => resumeFrom H agent rest waiting r
    | (r, _) =>
      let (r, answer) := r.request agent d
      resumeFrom H agent rest (waiting || answer ≠ some .givenUp) r

def resume (H : Hashing) (agent : Agent) (r : Reconciler) : Reconciler × Stride :=
  if r.traversal.aside.isEmpty then (r, .through) else resumeFrom H agent r.traversal.aside false r

/-- The node at the innermost position of the next tree is yet to come. -/
def enterNext (H : Hashing) (agent : Agent) (r : Reconciler) (f : Frame) (above : List Frame) :
    Reconciler × Stride :=
  if r.cache.known f.digest then ({ r with traversal.next := above }, .onward)
  else match r.look H f.digest with
    | (r, .present node) => ({ r with traversal.next := f.resolve node :: above }, .onward)
    | (r, .missing) => (r.await agent f.digest, .waiting)
    | (r, .spoilt givenUp) =>
      if above.isEmpty then
        if givenUp then (r, .stuck) else (r.await agent f.digest, .waiting)
      else
        let r := if givenUp then r else r.await agent f.digest
        ({ r with traversal := r.traversal.putAside f.digest }, .onward)

/-- The innermost node of the next tree is through. Unless a branch below it was put aside, all its
names are known now. -/
def leaveNext (r : Reconciler) (f : Frame) (above : List Frame) : Reconciler :=
  { r with
    traversal.next := above
    cache := if f.incomplete then r.cache else r.cache.markKnown f.digest }

def enterCurrent (H : Hashing) (agent : Agent) (r : Reconciler) (f : Frame) (above : List Frame) :
    Reconciler × Stride :=
  match r.look H f.digest with
  | (r, .present node) => ({ r with traversal.current := f.resolve node :: above }, .onward)
  | (r, .spoilt true) => (r, .stuck)
  | (r, _) => (r.await agent f.digest, .waiting)

/-- What a move does beside moving the positions. -/
def effect (r : Reconciler) (w : Traversal) : Traversal.Move → Reconciler
  | .record =>
    match w.next.head?.bind Traversal.leafAt with
    | some name => r.record name
    | none => r
  | .share d => { r with cache := r.cache.markKnown d }
  | _ => r

def act (H : Hashing) (r : Reconciler) : Reconciler × Stride :=
  match Traversal.plan H r.cache r.traversal with
  | (cache, .error f) => ({ r with cache }, .fault f)
  | (cache, .ok move) =>
    (effect { r with cache, traversal := r.traversal.perform move } r.traversal move, .onward)

def stride (H : Hashing) (agent : Agent) (r : Reconciler) : Reconciler × Stride :=
  match r.traversal.next with
  | [] => r.resume H agent
  | f :: above =>
    if !f.hasNode then r.enterNext H agent f above
    else if f.isThrough then (r.leaveNext f above, .onward)
    else match r.traversal.current with
      | [] => r.act H
      | g :: aboveCurrent =>
        if !g.hasNode then r.enterCurrent H agent g aboveCurrent
        else if g.isThrough then ({ r with traversal.current := aboveCurrent }, .onward)
        else r.act H

/-- The round cannot go on. It is given up if there is another root to turn to. -/
def giveWay (H : Hashing) (r : Reconciler) : Reconciler × Option Outcome :=
  if r.hasWork then (r.abandonRound H, none) else (r, some .stuck)

/-- One step of a pass, with its outcome if it is the last. -/
def step (H : Hashing) (agent : Agent) (r : Reconciler) : Reconciler × Option Outcome :=
  match r.phase with
  | .choosing => (r.choose H, none)
  | .loading =>
    match r.load H agent with
    | (r, .through) => ({ r with phase := .comparing }, none)
    | (r, .waiting) => (r, some .waiting)
    | (r, .stuck) => r.giveWay H
  | .comparing =>
    match r.stride H agent with
    | (r, .onward) => (r, none)
    | (r, .through) => (r.closeRound H, none)
    | (r, .waiting) => (r, some .waiting)
    | (r, .stuck) => r.giveWay H
    | (r, .fault _) =>
      (abandonRound H { r with tally.faults := r.tally.faults + 1 }, some .malformed)
  | .done => if r.hasWork then ({ r with phase := .choosing }, none) else (r, some .idle)

def steps (H : Hashing) (agent : Agent) (r : Reconciler) : Option (Reconciler × Outcome) :=
  loop (step H agent) r

/-- One pass: steps until there is nothing that can be done now. -/
def pass (H : Hashing) (agent : Agent) (r : Reconciler) : Reconciler × Option Outcome :=
  let r := { r with tally.runs := r.tally.runs + 1 }
  match steps H agent r with
  | some (r, outcome) => (r, some outcome)
  | none => (r, none)

def bodySize (s : Slot) : Nat :=
  match s.body with
  | .bytes bytes => bytes.length
  | .node node => node.size
  | .empty | .spoilt => 0

def weight (r : Reconciler) : Nat :=
  let held := r.cache.slots.foldr (fun _ s n => n + bodySize s + 1) 0
  let bodies := r.queue.bodies.flatten.length + r.queue.bodies.length
  held + bodies + r.queue.roots.length + r.recorded.length + (r.extra.map Node.size).getD 0
    + r.traversal.aside.length + r.traversal.next.length + r.traversal.current.length

end Reconcile.Reconciler

import Reconcile.Reconciler.Pass
import Reconcile.Turn
import Reconcile.Name.Uri
import Reconcile.Table

/-! A reconciler among its surroundings: a set of published nodes, the requests that nobody has
answered yet, and a listener that may act when it receives a name. Requests are answered in batches,
when told to. -/

namespace Reconcile

namespace Exchange

inductive Step
  | announce (d : Digest)
  | body (bytes : Bytes)
  | run
  | answer
  /-- Run and answer until there is nothing to wait for. -/
  | converge
  /-- Answer for one node, asked for or not. -/
  | answerOne (d : Digest)
  | publish (d : Digest) (bytes : Bytes)
  | withdraw (d : Digest)
  | complete (d : Digest) (result : Except FetchFailure Bytes)
  | look (d : Digest)
  | markKnown (d : Digest)
  | known (d : Digest)
  | pending (d : Digest)
  | request (d : Digest)
  | insert (bytes : Bytes)
  | unanswered
  | refuse (on : Bool)

inductive Reply
  | nothing
  | flag (b : Bool)
  | count (n : Nat)
  | outcome (o : Option Outcome)
  | look (l : Cache.Finding)
  | completion (c : Cache.Completion)
  | request (r : Except FetchFailure Cache.Request)
  | digest (d : Except NodeError Digest)
  | digests (ds : List Digest)

end Exchange

structure Exchange where
  reconciler : Reconciler
  published : Catalog Digest Bytes
  /-- Accepted requests that were not answered yet, oldest first. -/
  unanswered : List Digest := []
  refusing : Bool := false
  turn : Turn := {}
  /-- What the listener does when it first receives the name of a URI. -/
  hooks : Table String (List Exchange.Step) := .empty

namespace Exchange

def refusal : FetchFailure := .transport "down"

def agent (x : Exchange) : Agent :=
  if x.refusing then .refusing refusal else .accepting

def fetch (x : Exchange) (d : Digest) : Except FetchFailure Bytes :=
  match x.published.get? d with
  | some bytes => .ok bytes
  | none => .error (.notFound d)

def withCache {α : Type} (x : Exchange) (f : Cache → Cache × α) : Exchange × α :=
  let (cache, a) := f x.reconciler.cache
  ({ x with reconciler.cache := cache }, a)

def complete (x : Exchange) (d : Digest) (result : Except FetchFailure Bytes) :
    Exchange × Cache.Completion :=
  x.withCache (·.complete d result)

def answerEach : List Digest → Exchange → Exchange
  | [], x => x
  | d :: rest, x => answerEach rest (x.complete d (x.fetch d)).1

/-- Answer every open request in a given order, and tell how many there were. -/
def answerIn (order : Exchange → List Digest) (x : Exchange) : Exchange × Nat :=
  (answerEach (order x) { x with unanswered := [] }, x.unanswered.length)

def answer (x : Exchange) : Exchange × Nat := x.answerIn unanswered

/-- Let the reconciler do something, and keep the requests that were accepted meanwhile. -/
def withReconciler {α : Type} (x : Exchange) (f : Reconciler → Reconciler × α) :
    Exchange × α :=
  let (r, a) := f x.reconciler
  let accepted := r.journal.accepted.drop x.reconciler.journal.accepted.length
  ({ x with reconciler := r, unanswered := x.unanswered ++ accepted }, a)

/-- Ask for a node outside any round. Such requests do not count among those of the reconciler. -/
def request (x : Exchange) (d : Digest) : Exchange × Except FetchFailure Cache.Request :=
  x.withReconciler (fun r =>
    match r.cache.request d (x.agent r.journal.asked d) with
    | (cache, .ok .sent) =>
      ({ r with
          cache
          journal.asked := r.journal.asked ++ [d]
          journal.accepted := r.journal.accepted ++ [d] }, .ok .sent)
    | (cache, .ok answer) => ({ r with cache }, .ok answer)
    | (cache, .error e) => ({ r with cache, journal.asked := r.journal.asked ++ [d] }, .error e))

def simpleStep (H : Hashing) (x : Exchange) : Step → Exchange × Reply
  | .announce d =>
    let (r, taken) := x.reconciler.announce d
    ({ x with reconciler := r }, .flag taken)
  | .body bytes => ({ x with reconciler := x.reconciler.handIn bytes }, .nothing)
  | .answer =>
    let (x, n) := x.answer
    (x, .count n)
  | .answerOne d =>
    let (x, c) := x.complete d (x.fetch d)
    (x, .completion c)
  | .publish d bytes => ({ x with published := x.published.insert d bytes }, .nothing)
  | .withdraw d => ({ x with published := x.published.erase d }, .nothing)
  | .complete d result =>
    let (x, c) := x.complete d result
    (x, .completion c)
  | .look d =>
    let (x, l) := x.withCache (·.look H d)
    (x, .look l)
  | .markKnown d =>
    let (x, _) := x.withCache (fun c => (c.markKnown d, ()))
    (x, .nothing)
  | .known d => (x, .flag (x.reconciler.cache.known d))
  | .pending d => (x, .flag (x.reconciler.cache.pending d))
  | .request d =>
    let (x, r) := x.request d
    (x, .request r)
  | .insert bytes =>
    let (x, d) := x.withCache (·.putBytes H bytes)
    (x, .digest d)
  | .unanswered => (x, .digests x.unanswered)
  | .refuse on => ({ x with refusing := on }, .nothing)
  | .run | .converge => (x, .nothing)

/-- A step taken while the turn is held: a run only makes the one who holds it go round again. -/
def innerStep (H : Hashing) (x : Exchange) : Step → Exchange × Reply
  | .run | .converge => ({ x with turn := x.turn.claim.1 }, .outcome (some .busy))
  | s => x.simpleStep H s

def innerSteps (H : Hashing) : List Step → Exchange → Exchange × List Reply
  | [], x => (x, [])
  | s :: rest, x =>
    let (x, reply) := x.innerStep H s
    let (x, replies) := innerSteps H rest x
    (x, reply :: replies)

def handOut (H : Hashing) : List Name → Exchange → Exchange × List Reply
  | [], x => (x, [])
  | name :: rest, x =>
    match x.hooks.get? name.uri with
    | none => handOut H rest x
    | some steps =>
      let (x, replies) := innerSteps H steps { x with hooks := x.hooks.erase name.uri }
      let (x, more) := handOut H rest x
      (x, replies ++ more)

def pass (H : Hashing) (x : Exchange) : Exchange × Option Outcome × List Name :=
  let before := x.reconciler.journal.delivered.length
  let (x, outcome) := x.withReconciler (·.pass H x.agent)
  (x, outcome, x.reconciler.journal.delivered.drop before)

/-- Rounds of a turn that is held: a pass, then handing out its names, and again if asked to. Only
what the listener does can ask, and it acts once on each name, so `hooks + 1` rounds are enough. -/
def rounds (H : Hashing) : Nat → Exchange → Exchange × Option Outcome × List Reply
  | 0, x => (x, none, [])
  | fuel + 1, x =>
    let (x, outcome, names) := x.pass H
    let (x, replies) := handOut H names x
    let (turn, again) := x.turn.release
    let x := { x with turn }
    if again then
      let (x, outcome, more) := rounds H fuel x
      (x, outcome, replies ++ more)
    else (x, outcome, replies)

def run (H : Hashing) (x : Exchange) : Exchange × Option Outcome × List Reply :=
  match x.turn.claim with
  | (turn, false) => ({ x with turn }, some .busy, [])
  | (turn, true) => rounds H (x.hooks.size + 1) { x with turn }

/-- Run, and answer what was asked for if the run waits. If that was nothing, it was the last run.
`order` arranges each batch of requests for their answers, and replies pile up. -/
def lap (H : Hashing) (order : Exchange → List Digest) :
    Exchange × List Reply → (Exchange × List Reply) × Option (Option Outcome)
  | (x, replies) =>
    let (x, outcome, more) := x.run H
    if outcome = some .waiting then
      match x.answerIn order with
      | (x, 0) => ((x, replies ++ more), some outcome)
      | (x, _ + 1) => ((x, replies ++ more), none)
    else ((x, replies ++ more), some outcome)

/-- Run and answer until a run does not wait or there was nothing to answer. There is no result if
the runs never end. -/
def convergeIn (H : Hashing) (order : Exchange → List Digest) (x : Exchange) :
    Option (Exchange × Option Outcome × List Reply) :=
  (loop (lap H order) (x, [])).map (fun ((x, replies), outcome) => (x, outcome, replies))

def converge (H : Hashing) (x : Exchange) : Exchange × Option Outcome × List Reply :=
  (convergeIn H unanswered x).getD (x, none, [])

def step (H : Hashing) (x : Exchange) : Step → Exchange × Reply × List Reply
  | .run =>
    let (x, outcome, replies) := x.run H
    (x, .outcome outcome, replies)
  | .converge =>
    let (x, outcome, replies) := x.converge H
    (x, .outcome outcome, replies)
  | s =>
    let (x, reply) := x.simpleStep H s
    (x, reply, [])

end Exchange

end Reconcile

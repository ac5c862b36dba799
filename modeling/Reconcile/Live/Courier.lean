import Reconcile.Cache

/-! Fetching nodes from a store that takes its time. A fetch sets out when time next passes, and
comes back after the store's latency with what is published at that moment, or fails when it is
late. -/

namespace Reconcile

structure Depot where
  published : Catalog Digest Bytes
  /-- How many milliseconds an answer takes. -/
  latency : Nat
deriving Repr, DecidableEq

structure Flight where
  digest : Digest
  due : Nat
  /-- Whether it is given up then. -/
  late : Bool
deriving Repr, DecidableEq

structure Courier where
  /-- How many milliseconds a fetch may take. -/
  timeout : Nat
  /-- Fetches that have not set out. -/
  waiting : List Digest := []
  flights : List Flight := []
deriving Repr, DecidableEq

namespace Courier

def send (c : Courier) (ds : List Digest) : Courier := { c with waiting := c.waiting ++ ds }

/-- Let all waiting fetches set out. Of two equal spans the store's answer comes first. -/
def launch (c : Courier) (depot : Depot) (now : Nat) : Courier :=
  let flight (d : Digest) : Flight :=
    { digest := d, due := now + min depot.latency c.timeout, late := c.timeout < depot.latency }
  { c with waiting := [], flights := c.flights ++ c.waiting.map flight }

def due? (c : Courier) : Option Nat := (c.flights.map Flight.due).min?

def landed (c : Courier) (now : Nat) : List Flight := c.flights.filter (·.due ≤ now)

def aloft (c : Courier) (now : Nat) : Courier :=
  { c with flights := c.flights.filter (now < ·.due) }

def result (c : Courier) (depot : Depot) (f : Flight) : Except FetchFailure Bytes :=
  if f.late then .error (.timeout (c.timeout * 1000000))
  else match depot.published.get? f.digest with
    | some bytes => .ok bytes
    | none => .error (.notFound f.digest)

end Courier

/-- Fetching for a cache and nothing else, on a clock of its own. -/
structure Errand where
  depot : Depot
  courier : Courier
  cache : Option Cache
  clock : Nat := 0
  reached : List Digest := []
deriving Repr, DecidableEq

namespace Errand

/-- Ask for a node without a look at the cache. -/
def issue (e : Errand) (d : Digest) : Errand × Except FetchFailure Unit :=
  if e.cache.isNone then (e, .error .shutDown)
  else ({ e with courier := e.courier.send [d] }, .ok ())

def request (e : Errand) (d : Digest) : Errand × Except FetchFailure Cache.Request :=
  match e.cache with
  | none => (e, .error .shutDown)
  | some cache =>
    match cache.request d none with
    | (cache, .ok .sent) =>
      ({ e with cache := some cache, courier := e.courier.send [d] }, .ok .sent)
    | (cache, answer) => ({ e with cache := some cache }, answer)

def look (H : Hashing) (e : Errand) (d : Digest) : Errand × Option Cache.Finding :=
  match e.cache with
  | none => (e, none)
  | some cache =>
    let (cache, found) := cache.look H d
    ({ e with cache := some cache }, some found)

def publish (e : Errand) (d : Digest) (bytes : Bytes) : Errand :=
  { e with depot.published := e.depot.published.insert d bytes }

/-- Forget the cache, and with it the fetches on their way, which would come back to nobody. -/
def drop (e : Errand) : Errand := { e with cache := none, courier.flights := [] }

def wait (e : Errand) (span : Nat) : Errand :=
  let deadline := e.clock + span
  let courier := e.courier.launch e.depot e.clock
  let finish (cache : Cache) (f : Flight) : Cache :=
    (cache.complete f.digest (courier.result e.depot f)).1
  { e with
    courier := courier.aloft deadline
    cache := e.cache.map (fun cache => (courier.landed deadline).foldl finish cache)
    clock := deadline
    reached := e.reached ++ e.courier.waiting }

end Errand

end Reconcile

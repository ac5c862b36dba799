import Reconcile.Live.Alarm
import Reconcile.Live.Courier
import Reconcile.Reconciler.Pass

/-! Following one slice in time: a reconciler, the alarm that decides when it runs, and the courier
that fetches for it. Whatever brings something new nudges the alarm. -/

namespace Reconcile

structure Subscription where
  reconciler : Reconciler
  alarm : Alarm
  courier : Courier
  /-- What reached the store, oldest first. -/
  reached : List Digest := []
deriving Repr, DecidableEq

namespace Subscription

def nudge (s : Subscription) (now : Nat) : Subscription := { s with alarm := s.alarm.nudge now }

/-- A root was announced. One that is known to wait already changes nothing. -/
def announce (s : Subscription) (now : Nat) (d : Digest) : Subscription :=
  match s.reconciler.announce d with
  | (reconciler, true) => { s with reconciler }.nudge now
  | (reconciler, false) => { s with reconciler }

def handIn (s : Subscription) (now : Nat) (bytes : Bytes) : Subscription :=
  { s with reconciler := s.reconciler.handIn bytes }.nudge now

def complete (s : Subscription) (d : Digest) (result : Except FetchFailure Bytes) :
    Subscription × Cache.Completion :=
  let (cache, completion) := s.reconciler.cache.complete d result
  ({ s with reconciler.cache := cache }, completion)

/-- The bytes of a node came in by another way than a fetch. -/
def receive (s : Subscription) (now : Nat) (d : Digest) (bytes : Bytes) :
    Subscription × Cache.Completion :=
  match s.complete d (.ok bytes) with
  | (s, .taken) => (s.nudge now, .taken)
  | (s, completion) => (s, completion)

def look (H : Hashing) (s : Subscription) (d : Digest) : Subscription × Cache.Finding :=
  let (reconciler, found) := s.reconciler.look H d
  ({ s with reconciler }, found)

def land (depot : Depot) (now : Nat) (s : Subscription) : Subscription :=
  (s.courier.landed now).foldl
    (fun t f => (t.complete f.digest (s.courier.result depot f)).1.nudge now)
    { s with courier := s.courier.aloft now }

def run (H : Hashing) (s : Subscription) : Subscription :=
  let (reconciler, _) := s.reconciler.pass H .accepting
  let accepted := reconciler.journal.accepted.drop s.reconciler.journal.accepted.length
  { s with reconciler, courier := s.courier.send accepted }

def launch (depot : Depot) (now : Nat) (s : Subscription) : Subscription :=
  { s with
    courier := s.courier.launch depot now
    reached := s.reached ++ s.courier.waiting }

/-- Whatever may happen without time passing: fetches set out, and the alarm waits for a nudge. -/
def prepare (depot : Depot) (now : Nat) (s : Subscription) : Subscription :=
  { s.launch depot now with alarm := s.alarm.arm now }

def due? (s : Subscription) : Option Nat :=
  match s.courier.due?, s.alarm.due? with
  | some t, some u => some (min t u)
  | some t, none => some t
  | none, u => u

/-- What happens at a time: fetches come back, or if none does, the alarm rings. -/
def happen (H : Hashing) (depot : Depot) (now : Nat) (s : Subscription) : Subscription :=
  if !(s.courier.landed now).isEmpty then s.land depot now
  else
    let s := { s with alarm := s.alarm.ring true }
    if s.alarm.phase = .running then
      let s := s.run H
      { s with alarm := s.alarm.finish }
    else s

def elapse (H : Hashing) (depot : Depot) (deadline : Nat) :
    Nat → Nat → Subscription → Subscription
  | 0, _, s => s
  | fuel + 1, now, s =>
    let s := s.prepare depot now
    match s.due? with
    | none => s
    | some t => if deadline < t then s else elapse H depot deadline fuel t (s.happen H depot t)

/-- A number of events that is never reached: each is a run or brings back a fetch, every node that
can be named in the bytes at hand is fetched at most as often as the cache allows, and a fetch
causes at most one run. -/
def budget (depot : Depot) (s : Subscription) : Nat :=
  let published := depot.published.foldr (fun _ bytes n => n + bytes.length + 1) 0
  let fetches := (s.reconciler.cache.limit + 1) * (s.reconciler.weight + published + 1)
  2 * (fetches + s.courier.waiting.length + s.courier.flights.length) + 8

def wait (H : Hashing) (depot : Depot) (now deadline : Nat) (s : Subscription) : Subscription :=
  elapse H depot deadline (s.budget depot) now s

end Subscription

end Reconcile

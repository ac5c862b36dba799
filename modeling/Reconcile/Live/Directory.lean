import Reconcile.Live.Subscription
import Reconcile.Name.Uri
import Reconcile.Settings
import Reconcile.Slice
import Reconcile.Table

/-! All the slices that are followed at a time, on one clock and one store. Each slice has at most
one subscription; what comes in is passed on to the subscription it is meant for. -/

namespace Reconcile

inductive DirectoryError
  | notFollowed (id : SliceId)
  | alreadyFollowed (id : SliceId)
  | notNodeName (name : Name)
deriving Repr, DecidableEq

namespace DirectoryError

def message : DirectoryError → String
  | notFollowed id => "not syncing slice " ++ id.short
  | alreadyFollowed id => "already syncing slice " ++ id.short
  | notNodeName name => "not a node fetch name: " ++ name.uri

end DirectoryError

structure Follower where
  listener : String
  subscription : Subscription
deriving Repr, DecidableEq

structure Directory where
  settings : Settings
  depot : Depot
  clock : Nat := 0
  followers : Table SliceId Follower := .empty
  /-- The names that each listener received, oldest first. -/
  heard : Table String (List Name) := .empty
  reached : List Digest := []
deriving Repr, DecidableEq

namespace Directory

def subscription? (x : Directory) (id : SliceId) : Option Subscription :=
  (x.followers.get? id).map Follower.subscription

def active (x : Directory) : List SliceId := ascending x.followers.keys

def heardBy (x : Directory) (listener : String) : List Name := (x.heard.get? listener).getD []

def start (H : Hashing) (x : Directory) (slice : Slice) (listener : String) (start : Origin)
    (firstName : Option Name) : Directory × Except DirectoryError SliceId :=
  let id := slice.id H
  if x.followers.contains id then (x, .error (.alreadyFollowed id))
  else
    let subscription : Subscription :=
      { reconciler := Reconciler.create (.ofAttempts x.settings.attempts) start firstName
        alarm := { quiet := x.settings.quiet }
        courier := { timeout := x.settings.timeout } }
    ({ x with followers := x.followers.insert id { listener, subscription } }, .ok id)

/-- Follow a slice no longer, and tell whether it was followed. Its cache is forgotten, and with it the
fetches on their way, which would come back to nobody. -/
def stop (x : Directory) (id : SliceId) : Directory × Bool :=
  ({ x with followers := x.followers.erase id }, x.followers.contains id)

def within {α : Type} (x : Directory) (id : SliceId) (f : Subscription → Subscription × α) :
    Directory × Except DirectoryError α :=
  match x.followers.get? id with
  | none => (x, .error (.notFollowed id))
  | some follower =>
    let (subscription, a) := f follower.subscription
    ({ x with followers := x.followers.insert id { follower with subscription } }, .ok a)

def announce (x : Directory) (id : SliceId) (d : Digest) :
    Directory × Except DirectoryError Unit :=
  x.within id (fun s => (s.announce x.clock d, ()))

def handIn (x : Directory) (id : SliceId) (bytes : Bytes) :
    Directory × Except DirectoryError Unit :=
  x.within id (fun s => (s.handIn x.clock bytes, ()))

def receive (x : Directory) (id : SliceId) (d : Digest) (bytes : Bytes) :
    Directory × Except DirectoryError Cache.Completion :=
  x.within id (fun s => s.receive x.clock d bytes)

/-- Content came in under a name, which tells the slice and the node it is. -/
def receiveContent (x : Directory) (name : Name) (bytes : Bytes) :
    Directory × Except DirectoryError Cache.Completion :=
  match Slice.parseFetchName? name with
  | none => (x, .error (.notNodeName name))
  | some (id, d) => x.receive id d bytes

def nudge (x : Directory) (id : SliceId) : Directory × Except DirectoryError Unit :=
  x.within id (fun s => (s.nudge x.clock, ()))

def look (H : Hashing) (x : Directory) (id : SliceId) (d : Digest) :
    Directory × Except DirectoryError Cache.Finding :=
  x.within id (fun s => s.look H d)

def publish (x : Directory) (d : Digest) (bytes : Bytes) : Directory :=
  { x with depot.published := x.depot.published.insert d bytes }

def hear (heard : Table String (List Name)) (listener : String) (names : List Name) :
    Table String (List Name) :=
  heard.insert listener ((heard.get? listener).getD [] ++ names)

def waitFor (H : Hashing) (depot : Depot) (now deadline : Nat) (f : Follower)
    (heard : Table String (List Name)) (reached : List Digest) :
    Follower × Table String (List Name) × List Digest :=
  let s := f.subscription
  let s' := s.wait H depot now deadline
  let names := s'.reconciler.journal.delivered.drop s.reconciler.journal.delivered.length
  ( { f with subscription := s' }
  , hear heard f.listener names
  , reached ++ s'.reached.drop s.reached.length )

/-- Let time pass for each of a row of followers. They have only the store in common, which does not
change meanwhile, so one may be taken after another. -/
def waitEach (H : Hashing) (depot : Depot) (now deadline : Nat) :
    List (SliceId × Follower) → Table String (List Name) → List Digest →
      List (SliceId × Follower) × Table String (List Name) × List Digest
  | [], heard, reached => ([], heard, reached)
  | (id, f) :: rest, heard, reached =>
    let (f, heard, reached) := waitFor H depot now deadline f heard reached
    let (rest, heard, reached) := waitEach H depot now deadline rest heard reached
    ((id, f) :: rest, heard, reached)

def wait (H : Hashing) (x : Directory) (span : Nat) : Directory :=
  let deadline := x.clock + span
  let (followers, heard, reached) :=
    waitEach H x.depot x.clock deadline x.followers.entries x.heard x.reached
  { x with followers := ⟨followers⟩, heard, reached, clock := deadline }

end Directory

end Reconcile

import Reconcile.Catalog
import Reconcile.Cache.FetchFailure
import Reconcile.Cache.Slot

/-! The nodes known so far, by digest. Nothing is ever thrown out. A node is asked for only if it is
not there, no fetch of it is under way, and it has not failed too often. -/

namespace Reconcile

structure Cache where
  /-- How many failures it takes to give a node up; at least one. -/
  limit : Nat
  slots : Catalog Digest Slot := .empty
deriving Repr, DecidableEq

namespace Cache

/-- The empty cache that gives a node up after so many failures, but not before the first. -/
def ofAttempts (attempts : Nat) : Cache := { limit := max attempts 1 }

def defaultAttempts : Nat := 3

instance : Inhabited Cache := ⟨ofAttempts defaultAttempts⟩

def size (c : Cache) : Nat := c.slots.size

/-- The slot of a digest, which is an empty one before its first mention. -/
def slot (c : Cache) (d : Digest) : Slot := (c.slots.get? d).getD {}

def modify (c : Cache) (d : Digest) (f : Slot → Slot) : Cache :=
  { c with slots := c.slots.insert d (f (c.slot d)) }

@[simp] theorem slot_modify (c : Cache) (d e : Digest) (f : Slot → Slot) :
    (c.modify d f).slot e = if d = e then f (c.slot d) else c.slot e := by
  by_cases h : d = e <;> simp [slot, modify, h]

@[simp] theorem limit_modify (c : Cache) (d : Digest) (f : Slot → Slot) :
    (c.modify d f).limit = c.limit := rfl

inductive Finding
  | present (node : Node)
  | missing
  /-- The last attempt failed; `givenUp` if there will not be another. -/
  | spoilt (givenUp : Bool)
deriving Repr, DecidableEq

def view (limit : Nat) (s : Slot) : Finding :=
  match s.body with
  | .node node => .present node
  | .spoilt => .spoilt (limit ≤ s.failures)
  | .empty | .bytes _ => .missing

/-- Look at a node, decoding its bytes if nobody has before. This mentions no digest. -/
def look (H : Hashing) (c : Cache) (d : Digest) : Cache × Finding :=
  match c.slots.get? d with
  | none => (c, .missing)
  | some s =>
    let s := s.look H d
    ({ c with slots := c.slots.insert d s }, view c.limit s)

inductive Request
  | sent
  | underWay
  | present
  | givenUp
deriving Repr, DecidableEq

def Request.isAwaited : Request → Bool
  | .sent | .underWay => true
  | .present | .givenUp => false

def obstacle? (c : Cache) (d : Digest) : Option Request :=
  let s := c.slot d
  if s.isFilled then some .present
  else if s.pending then some .underWay
  else if s.isSpoilt && c.limit ≤ s.failures then some .givenUp
  else none

/-- Ask for a node. `refusal` is what the one who would fetch it says if it will not: then the node
is not pending. -/
def request (c : Cache) (d : Digest) (refusal : Option FetchFailure) :
    Cache × Except FetchFailure Request :=
  match c.obstacle? d with
  | some r => (c.modify d id, .ok r)
  | none =>
    match refusal with
    | none => (c.modify d (·.setPending true), .ok .sent)
    | some e => (c.modify d (·.setPending false), .error e)

inductive Completion
  | taken
  | redundant
  | failed (failures : Nat) (givenUp : Bool)
deriving Repr, DecidableEq

/-- Take the result of a fetch, asked for or not. Bytes are kept as they are. -/
def complete (c : Cache) (d : Digest) (result : Except FetchFailure Bytes) : Cache × Completion :=
  let s := (c.slot d).setPending false
  if s.isFilled then (c.modify d (fun _ => s), .redundant)
  else match result with
    | .ok bytes => (c.modify d (fun _ => s.holdBytes bytes), .taken)
    | .error e =>
      let s := s.fail e.message
      (c.modify d (fun _ => s), .failed s.failures (c.limit ≤ s.failures))

def putBytes (H : Hashing) (c : Cache) (bytes : Bytes) : Cache × Except NodeError Digest :=
  let d := H bytes
  let s := c.slot d
  let s := if s.isFilled then s else s.holdBytes bytes
  let s := s.look H d
  let c := c.modify d (fun _ => s)
  match s.node? with
  | some _ => (c, .ok d)
  | none =>
    match Node.decode bytes with
    | .error e => (c, .error e)
    | .ok _ => (c, .error (.malformed (.unattached d)))

def putNode (H : Hashing) (c : Cache) (node : Node) : Cache × Digest :=
  let d := node.digest H
  let s := (c.slot d).look H d
  let s := match s.node? with
    | some _ => s
    | none => s.holdNode node
  (c.modify d (fun _ => s), d)

def markKnown (c : Cache) (d : Digest) : Cache := c.modify d Slot.markKnown

def known (c : Cache) (d : Digest) : Bool := (c.slot d).known

def pending (c : Cache) (d : Digest) : Bool := (c.slot d).pending

def describe (c : Cache) : String :=
  "NodeCache \x7b entries: " ++ toString c.size ++
    ", max_fetch_attempts: " ++ toString c.limit ++ " \x7d"

end Cache

end Reconcile

import Reconcile.Node.Encoding

/-! What is known of one node: its bytes or its decoded form, whether all names below it are known,
whether a fetch of it is under way, and how often it failed. Bytes are decoded when they are first
looked at, and only if they have the digest that the slot is kept under. -/

namespace Reconcile

inductive Body
  | empty
  /-- Bytes that nobody has looked at. -/
  | bytes (bytes : Bytes)
  | node (node : Node)
  /-- The last fetch failed, or what it brought was not the node. -/
  | spoilt
deriving Repr, DecidableEq

structure Slot where
  body : Body := .empty
  /-- Every name below the node is known. -/
  known : Bool := false
  pending : Bool := false
  /-- How many fetches or decodings failed. There are no more than deeds done to the cache, so the count
  stays below 2^32 in any life with fewer of them. -/
  failures : Nat := 0
  lastFailure : Option String := none
deriving Repr, DecidableEq

namespace Slot

def isFilled (s : Slot) : Bool :=
  match s.body with
  | .bytes _ | .node _ => true
  | .empty | .spoilt => false

def isSpoilt (s : Slot) : Bool :=
  match s.body with
  | .spoilt => true
  | _ => false

def node? (s : Slot) : Option Node :=
  match s.body with
  | .node node => some node
  | _ => none

def holdNode (s : Slot) (node : Node) : Slot :=
  { s with body := .node node, pending := false }

/-- Put bytes in, unless a decoded node is present. -/
def holdBytes (s : Slot) (bytes : Bytes) : Slot :=
  match s.body with
  | .node _ => s
  | _ => { s with body := .bytes bytes, pending := false }

/-- Note a failure. A decoded node stays; all else is given up. -/
def fail (s : Slot) (reason : String) : Slot :=
  { s with
    failures := s.failures + 1
    lastFailure := some reason
    pending := false
    body := match s.body with
      | .node node => .node node
      | _ => .spoilt }

/-- Decode bytes that nobody has looked at. Bytes that are not the node named by `digest` are a
failure. -/
def look (H : Hashing) (digest : Digest) (s : Slot) : Slot :=
  match s.body with
  | .bytes bytes =>
    match Node.decodeAs H digest bytes with
    | .ok node => { s with body := .node node }
    | .error e => s.fail e.message
  | _ => s

theorem look_look (H : Hashing) (digest : Digest) (s : Slot) :
    (s.look H digest).look H digest = s.look H digest := by
  obtain ⟨body, known, pending, failures, lastFailure⟩ := s
  cases body with
  | bytes bytes => cases h : Node.decodeAs H digest bytes <;> simp [look, h, fail]
  | empty | node node | spoilt => rfl

def markKnown (s : Slot) : Slot := { s with known := true }

def setPending (s : Slot) (pending : Bool) : Slot := { s with pending }

end Slot

end Reconcile

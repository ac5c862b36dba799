import Reconcile.Cache

/-! Walking two trees side by side. Both are read as ascending rows of names; a subtree is entered
only where the rows overlap. The traversal is kept as plain data, two stacks of positions, so that
it can stop for a node that is not there and go on later. -/

namespace Reconcile

structure Frame where
  digest : Digest
  node : Option Node := none
  /-- How many of the node's items have been passed. -/
  position : Nat := 0
  /-- Whether a branch below the node was put aside. -/
  incomplete : Bool := false
deriving Repr, DecidableEq

namespace Frame

def start (digest : Digest) : Frame := { digest }

def resolve (f : Frame) (node : Node) : Frame := { f with node := some node }

def item? (f : Frame) : Option Item := f.node.bind (·.items[f.position]?)

def advance (f : Frame) : Frame := { f with position := f.position + 1 }

/-- Whether every item has been passed; never so for a node that is yet to come. -/
def isThrough (f : Frame) : Bool := f.node.any (·.size ≤ f.position)

def hasNode (f : Frame) : Bool := f.node.isSome

def markIncomplete (f : Frame) : Frame := { f with incomplete := true }

end Frame

structure Traversal where
  current : List Frame := []
  next : List Frame := []
  /-- Branches of the next tree that were put aside because their nodes could not be had. -/
  aside : List Digest := []
  lastCurrent : Option Name := none
  lastNext : Option Name := none
deriving Repr, DecidableEq

namespace Traversal

inductive Side
  | current | next
deriving Repr, DecidableEq

/-- Why a traversal cannot go on. The first two blame a tree; the others say that the traversal was
not in order itself. -/
inductive Fault
  | outsideRange (side : Side) (name : Name)
  | notAscending (side : Side) (name : Name)
  | noPosition
  | noNode (side : Side)
  | pastEnd (side : Side)
deriving Repr, DecidableEq

inductive Move
  | record
  | skipNext
  | skipCurrent
  | skipBoth
  | enterNext (d : Digest)
  | enterCurrent (d : Digest)
  | enterBoth (current next : Digest)
  /-- The whole node of the current tree comes before the name of the next. -/
  | leaveCurrent
  | share (d : Digest)
deriving Repr, DecidableEq

def checkName (side : Side) (node : Node) (last : Option Name) (name : Name) : Except Fault Unit :=
  if !node.spans name then .error (.outsideRange side name)
  else if last.any (name ≤ ·) then .error (.notAscending side name)
  else .ok ()

/-- What to do at a reference of the current tree and a name of the next, given the node of the
reference if it is at hand. -/
def againstRange (d : Digest) (name : Name) : Option Node → Move
  | none => .enterCurrent d
  | some node =>
    if name < node.least then .record
    else if name = node.least then .skipNext
    else if node.greatest < name then .skipCurrent
    else if name = node.greatest then .skipBoth
    else .enterCurrent d

/-- What to do at two names, `position` being where in its node the current one stands. -/
def betweenLeaves (position : Nat) (node : Node) (current next : Name) : Move :=
  if position = 0 ∧ node.greatest < next then .leaveCurrent
  else if current = next then .skipBoth
  else if next < current then .record
  else .skipCurrent

def nodeOf (H : Hashing) (c : Cache) (d : Digest) : Cache × Option Node :=
  match c.look H d with
  | (c, .present node) => (c, some node)
  | (c, _) => (c, none)

def compare (H : Hashing) (c : Cache) (position : Nat) (node : Node) :
    Item → Item → Cache × Move
  | .ref x, .ref y => (c, if x = y then .share y else .enterBoth x y)
  | .leaf x, .ref y =>
    match nodeOf H c y with
    | (c, some child) => (c, if x < child.least then .skipCurrent else .enterNext y)
    | (c, none) => (c, .enterNext y)
  | .ref x, .leaf y =>
    let (c, child) := nodeOf H c x
    (c, againstRange x y child)
  | .leaf x, .leaf y => (c, betweenLeaves position node x y)

def alone : Item → Move
  | .leaf _ => .record
  | .ref d => .enterNext d

def top (side : Side) (f : Frame) : Except Fault (Node × Item) :=
  match f.node, f.item? with
  | none, _ => .error (.noNode side)
  | some _, none => .error (.pastEnd side)
  | some node, some item => .ok (node, item)

def checkItem (side : Side) (node : Node) (last : Option Name) : Item → Except Fault Unit
  | .leaf name => checkName side node last name
  | .ref _ => .ok ()

def isKnown (c : Cache) : Item → Bool
  | .leaf _ => false
  | .ref d => c.known d

/-- The next thing to do. Both innermost positions must be at an item of a node that is at hand, but
the current tree may have nothing left. -/
def plan (H : Hashing) (c : Cache) (w : Traversal) : Cache × Except Fault Move :=
  match w.next with
  | [] => (c, .error .noPosition)
  | next :: _ =>
    match top .next next with
    | .error e => (c, .error e)
    | .ok (nextNode, nextItem) =>
      if isKnown c nextItem then (c, .ok .skipNext)
      else match checkItem .next nextNode w.lastNext nextItem with
        | .error e => (c, .error e)
        | .ok () =>
          match w.current with
          | [] => (c, .ok (alone nextItem))
          | current :: _ =>
            match top .current current with
            | .error e => (c, .error e)
            | .ok (node, item) =>
              match checkItem .current node w.lastCurrent item with
              | .error e => (c, .error e)
              | .ok () =>
                let (c, move) := compare H c current.position node item nextItem
                (c, .ok move)

def leafAt (f : Frame) : Option Name := f.item?.bind Item.leaf?

def advanceNext (w : Traversal) : Traversal :=
  match w.next with
  | [] => w
  | f :: rest => { w with next := f.advance :: rest, lastNext := (leafAt f).or w.lastNext }

def advanceCurrent (w : Traversal) : Traversal :=
  match w.current with
  | [] => w
  | f :: rest => { w with current := f.advance :: rest, lastCurrent := (leafAt f).or w.lastCurrent }

def pushNext (w : Traversal) (d : Digest) : Traversal := { w with next := .start d :: w.next }

def pushCurrent (w : Traversal) (d : Digest) : Traversal :=
  { w with current := .start d :: w.current }

def perform (w : Traversal) : Move → Traversal
  | .record | .skipNext => w.advanceNext
  | .skipCurrent => w.advanceCurrent
  | .skipBoth | .share _ => w.advanceCurrent.advanceNext
  | .enterNext d => w.advanceNext.pushNext d
  | .enterCurrent d => w.advanceCurrent.pushCurrent d
  | .enterBoth x y => (w.advanceCurrent.advanceNext.pushCurrent x).pushNext y
  | .leaveCurrent => { w with current := w.current.tail }

/-- The traversal from the start of a tree, the current tree starting from `baseline` if there is
one. -/
def begin (baseline : Option Digest) (root : Digest) : Traversal :=
  { current := baseline.toList.map .start, next := [.start root] }

/-- The traversal over one branch that was put aside, the current tree starting anew. -/
def restart (w : Traversal) (baseline : Option Digest) (branch : Digest) : Traversal :=
  { Traversal.begin baseline branch with aside := w.aside.erase branch }

/-- Put the innermost branch of the next tree aside. The nodes above it cannot be complete now. -/
def putAside (w : Traversal) (branch : Digest) : Traversal :=
  { w with
    next := w.next.tail.map Frame.markIncomplete
    aside := if w.aside.contains branch then w.aside else w.aside ++ [branch] }

end Traversal

end Reconcile

import Reconcile.Ascending
import Reconcile.Digest
import Reconcile.Name

/-! Nodes of a content tree. A node lists names and digests of further nodes in ascending order of
the names below them, and states the range of names and the number of names of its whole subtree.
Nothing here checks those statements; a traversal over the tree does. -/

namespace Reconcile

inductive Item
  | leaf (name : Name)
  | ref (digest : Digest)
deriving Repr, DecidableEq

namespace Item

def leaf? : Item → Option Name
  | leaf name => some name
  | ref _ => none

def ref? : Item → Option Digest
  | leaf _ => none
  | ref digest => some digest

end Item

/-- A node of a content tree, with the least and the greatest name and the number of names that it
states for its subtree. -/
structure Node where
  items : List Item
  least : Name
  greatest : Name
  count : UInt64
deriving Repr, DecidableEq

namespace Node

/-- The flat node of a collection of names, in any order and with repetitions. Without names its
range is the root name. -/
def ofNames (names : List Name) : Node :=
  let sorted := ascending names
  { items := sorted.map .leaf
    least := sorted.head?.getD .root
    greatest := sorted.getLast?.getD .root
    count := UInt64.ofNat sorted.length }

def size (n : Node) : Nat := n.items.length

def leaves (n : Node) : List Name := n.items.filterMap Item.leaf?

def refs (n : Node) : List Digest := n.items.filterMap Item.ref?

/-- Whether a name lies in the stated range, ends included. -/
def spans (n : Node) (name : Name) : Bool := n.least ≤ name ∧ name ≤ n.greatest

def lists (n : Node) (name : Name) : Bool := n.leaves.contains name

end Node

end Reconcile

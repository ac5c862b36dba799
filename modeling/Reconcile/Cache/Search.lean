import Reconcile.Cache

/-! Searching the nodes at hand for a name. The answer may be that it depends on a node that is not
at hand. -/

namespace Reconcile.Cache

/-- Whether one of the items is the name or leads to it, `below` searching under a reference.
`unknown` says that an earlier item could not be decided. -/
def searchItems (below : Cache → Digest → Cache × Option Bool) (name : Name) :
    Cache → Bool → List Item → Cache × Option Bool
  | c, unknown, [] => (c, if unknown then none else some false)
  | c, unknown, .leaf leaf :: rest =>
    if leaf = name then (c, some true) else searchItems below name c unknown rest
  | c, unknown, .ref d :: rest =>
    match below c d with
    | (c, some true) => (c, some true)
    | (c, some false) => searchItems below name c unknown rest
    | (c, none) => searchItems below name c true rest

/-- Whether the tree under a digest holds a name, looking at most `depth` nodes deep. A subtree
whose range excludes the name is not entered. -/
def searchTree (H : Hashing) (name : Name) : Nat → Cache → Digest → Cache × Option Bool
  | 0, c, _ => (c, none)
  | depth + 1, c, d =>
    match c.look H d with
    | (c, .present node) =>
      if node.spans name then searchItems (searchTree H name depth) name c false node.items
      else (c, some false)
    | (c, _) => (c, none)

/-- Whether the tree under a digest holds a name, or `none` if that depends on a node that is not at
hand. No path without a repetition is longer than there are slots. -/
def search (H : Hashing) (c : Cache) (d : Digest) (name : Name) : Cache × Option Bool :=
  searchTree H name (c.size + 1) c d

def unheld (H : Hashing) (root : Digest) : Cache → List Name → Cache × List Name
  | c, [] => (c, [])
  | c, name :: rest =>
    match c.search H root name with
    | (c, some true) => unheld H root c rest
    | (c, _) =>
      let (c, names) := unheld H root c rest
      (c, name :: names)

structure Residue where
  /-- The node that stands in for the names which the baseline is not known to hold. -/
  remainder : Option (Digest × Node)
  known : Nat
deriving Repr, DecidableEq

/-- Sort names into those that a baseline holds and a stand-in node for all others, which is put
into the cache. -/
def sift (H : Hashing) (c : Cache) (baseline : Option Digest) (names : List Name) :
    Cache × Residue :=
  let names := ascending names
  let (c, kept) := match baseline with
    | none => (c, names)
    | some root => unheld H root c names
  let known := names.length - kept.length
  if kept.isEmpty then (c, ⟨none, known⟩)
  else
    let node := Node.ofNames kept
    let (c, d) := c.putNode H node
    (c, ⟨some (d, node), known⟩)

end Reconcile.Cache

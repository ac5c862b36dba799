import Reconcile.Catalog
import Reconcile.Node.Encoding

/-! Building trees to publish. Names are cut into leaf nodes of given sizes, then grouped level by
level until one node is left. The shape decides only how names are spread over nodes. -/

namespace Reconcile

structure Publication where
  root : Digest
  nodes : Catalog Digest Bytes
deriving Repr, DecidableEq

structure Shape where
  /-- How many items a node may hold that is not a leaf node; less than two count as two. -/
  fanout : Nat
  /-- The sizes of the leaf nodes, taken in turn; zeros are passed over. -/
  sizes : List Nat
  /-- Whether a leaf node of one name is replaced by that name. -/
  inlined : Bool := false
deriving Repr, DecidableEq

namespace Publication

def store (H : Hashing) (nodes : Catalog Digest Bytes) (node : Node) :
    Catalog Digest Bytes × Digest :=
  (nodes.insert (node.digest H) node.encode, node.digest H)

/-- A part of a level: a name by itself, or a node that is stored already. -/
structure Part where
  item : Item
  least : Name
  greatest : Name
  count : UInt64
deriving Repr, DecidableEq

namespace Part

def ofName (name : Name) : Part := ⟨.leaf name, name, name, 1⟩

def ofNode (d : Digest) (node : Node) : Part := ⟨.ref d, node.least, node.greatest, node.count⟩

end Part

def above (parts : List Part) : Node :=
  { items := parts.map Part.item
    least := (parts.head?.map Part.least).getD .root
    greatest := (parts.getLast?.map Part.greatest).getD .root
    count := (parts.map Part.count).foldl (· + ·) 0 }

/-- Cut a list into pieces whose sizes are taken in turn from `sizes`, `left` being those that are
yet to come in this turn. A size of zero counts as one. -/
def cut {α : Type} (sizes : List Nat) : List Nat → List α → List (List α)
  | _, [] => []
  | [], a :: rest =>
    match sizes with
    | [] => [a :: rest]
    | n :: left => (a :: rest.take (n - 1)) :: cut sizes left (rest.drop (n - 1))
  | n :: left, a :: rest => (a :: rest.take (n - 1)) :: cut sizes left (rest.drop (n - 1))
termination_by _ l => l.length
decreasing_by all_goals simp only [List.length_drop, List.length_cons]; omega

def leafPart (H : Hashing) (inlined : Bool) (nodes : Catalog Digest Bytes) (names : List Name) :
    Catalog Digest Bytes × Part :=
  match inlined, names with
  | true, [name] => (nodes, .ofName name)
  | _, _ =>
    let node := Node.ofNames names
    let (nodes, d) := store H nodes node
    (nodes, .ofNode d node)

def groupPart (H : Hashing) (nodes : Catalog Digest Bytes) (parts : List Part) :
    Catalog Digest Bytes × Part :=
  let node := above parts
  let (nodes, d) := store H nodes node
  (nodes, .ofNode d node)

def level {α : Type} (make : Catalog Digest Bytes → α → Catalog Digest Bytes × Part) :
    Catalog Digest Bytes → List α → Catalog Digest Bytes × List Part
  | nodes, [] => (nodes, [])
  | nodes, a :: rest =>
    let (nodes, part) := make nodes a
    let (nodes, parts) := level make nodes rest
    (nodes, part :: parts)

/-- Group parts until one is left, in no more than `fuel` levels. -/
def climb (H : Hashing) (fanout : Nat) :
    Nat → Catalog Digest Bytes → List Part → Catalog Digest Bytes × List Part
  | 0, nodes, parts => (nodes, parts)
  | fuel + 1, nodes, parts =>
    if parts.length ≤ 1 then (nodes, parts)
    else
      let (nodes, parts) := level (groupPart H) nodes (cut [fanout] [] parts)
      climb H fanout fuel nodes parts

/-- The tree whose whole content is one leaf node. -/
def flat (H : Hashing) (nodes : Catalog Digest Bytes) (names : List Name) : Publication :=
  let (nodes, root) := store H nodes (Node.ofNames names)
  { root, nodes }

def node? (p : Publication) (d : Digest) : Option Node :=
  (p.nodes.get? d).bind (fun bytes => (Node.decode bytes).toOption)

def children (p : Publication) : List Digest := ((p.node? p.root).map Node.refs).getD []

end Publication

namespace Shape

def width (s : Shape) : Nat := max s.fanout 2

def turns (s : Shape) : List Nat :=
  match s.sizes.filter (0 < ·) with
  | [] => [s.width]
  | sizes => sizes

/-- The tree of this shape over names in any order. Names that fit into one node make only one. -/
def publish (H : Hashing) (s : Shape) (names : List Name) : Publication :=
  let names := ascending names
  if names.length ≤ s.width then Publication.flat H .empty names
  else
    let (nodes, parts) :=
      Publication.level (Publication.leafPart H s.inlined) .empty (Publication.cut s.turns [] names)
    let (nodes, parts) := Publication.climb H s.width parts.length nodes parts
    match parts with
    | [⟨.ref root, _, _, _⟩] => { root, nodes }
    | [⟨.leaf name, _, _, _⟩] => Publication.flat H nodes [name]
    | _ => Publication.flat H nodes []

end Shape

end Reconcile

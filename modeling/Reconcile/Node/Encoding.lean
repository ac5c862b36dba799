import Reconcile.Node
import Reconcile.Cbor.Writer
import Reconcile.Cbor.Reader

/-! The written form of a node: an array of the format's version, the stated count, the range's two
ends and the items, each item a pair of a tag and a name or digest. A node has one written form, so
its digest stands for its content; reading accepts every CBOR item of that shape. -/

namespace Reconcile

inductive NumberField
  | version | count | tag
deriving Repr, DecidableEq

namespace NumberField

def text : NumberField → String
  | version => "version"
  | count => "leaf_count"
  | tag => "element tag"

end NumberField

/-- How a well-formed CBOR item fails to be a node. -/
inductive Flaw
  | notArray
  | fieldCount (n : Nat)
  | missing (field : NumberField)
  | negative (field : NumberField)
  | notName
  | notComponent
  | notItems
  | notItem
  | notDigest
  | unknownTag (tag : Nat)
  | unattached (digest : Digest)
  | remark (text : String)
deriving Repr, DecidableEq

namespace Flaw

def text : Flaw → String
  | notArray => "expected array"
  | fieldCount n => "expected 5 fields, got " ++ toString n
  | missing field => "missing " ++ field.text
  | negative field => "negative " ++ field.text
  | notName => "invalid name"
  | notComponent => "invalid name component"
  | notItems => "invalid elements"
  | notItem => "invalid element"
  | notDigest => "invalid child hash"
  | unknownTag tag => "unknown element tag: " ++ toString tag
  | unattached digest => "node " ++ digest.short ++ " could not be attached"
  | remark text => text

end Flaw

inductive NodeError
  | notCbor
  | otherVersion (version : Nat)
  | malformed (flaw : Flaw)
  | trailing (bytes : Nat)
  | digestMismatch (expected actual : Digest)
deriving Repr, DecidableEq

namespace NodeError

def message : NodeError → String
  | notCbor => "decoding error: not a CBOR item"
  | otherVersion version => "unsupported node format version: " ++ toString version
  | malformed flaw => "malformed node: " ++ flaw.text
  | trailing bytes => toString bytes ++ " trailing bytes after node"
  | digestMismatch expected actual =>
    "hash mismatch: expected " ++ expected.short ++ ", got " ++ actual.short

end NodeError

namespace Item

def leafTag : Nat := 0

def refTag : Nat := 1

def encode : Item → Bytes
  | leaf name => Cbor.array [Cbor.unsigned leafTag, Cbor.name name]
  | ref digest => Cbor.array [Cbor.unsigned refTag, Cbor.byteString digest.bytes]

end Item

namespace Node

def formatVersion : Nat := 1

def encode (n : Node) : Bytes :=
  Cbor.array
    [ Cbor.unsigned formatVersion
    , Cbor.unsigned n.count.toNat
    , Cbor.name n.least
    , Cbor.name n.greatest
    , Cbor.array (n.items.map Item.encode) ]

def digest (H : Hashing) (n : Node) : Digest := H n.encode

/-- The number at a field, below `2 ^ 64`. -/
def readNumber (field : NumberField) : Cbor.Item → Except NodeError Nat
  | .int n => if 0 ≤ n then .ok n.toNat else .error (.malformed (.negative field))
  | _ => .error (.malformed (.missing field))

def readEach {α : Type} (read : Cbor.Item → Except NodeError α) :
    List Cbor.Item → Except NodeError (List α)
  | [] => .ok []
  | x :: rest =>
    match read x with
    | .error e => .error e
    | .ok a =>
      match readEach read rest with
      | .error e => .error e
      | .ok as => .ok (a :: as)

def readComponent : Cbor.Item → Except NodeError Component
  | .bytes b => .ok b
  | _ => .error (.malformed .notComponent)

def readName : Cbor.Item → Except NodeError Name
  | .array parts => (readEach readComponent parts).map Name.mk
  | _ => .error (.malformed .notName)

def readDigest : Cbor.Item → Except NodeError Digest
  | .bytes [] => .error (.malformed .notDigest)
  | .bytes b => .ok ⟨b⟩
  | _ => .error (.malformed .notDigest)

def readItem : Cbor.Item → Except NodeError Item
  | .array [tag, content] =>
    match readNumber .tag tag with
    | .error e => .error e
    | .ok tag =>
      if tag = Item.leafTag then (readName content).map Item.leaf
      else if tag = Item.refTag then (readDigest content).map Item.ref
      else .error (.malformed (.unknownTag tag))
  | _ => .error (.malformed .notItem)

def readItems : Cbor.Item → Except NodeError (List Item)
  | .array items => readEach readItem items
  | _ => .error (.malformed .notItems)

/-- The node that a CBOR item writes; the first flaw in the order of the fields counts. -/
def ofCbor : Cbor.Item → Except NodeError Node
  | .array [version, count, least, greatest, items] => do
    let version ← readNumber .version version
    if version ≠ formatVersion then throw (.otherVersion version)
    let count ← readNumber .count count
    let least ← readName least
    let greatest ← readName greatest
    let items ← readItems items
    return { items, least, greatest, count := UInt64.ofNat count }
  | .array fields => .error (.malformed (.fieldCount fields.length))
  | _ => .error (.malformed .notArray)

/-- The node that bytes write, all of them. -/
def decode (bytes : Bytes) : Except NodeError Node :=
  match Cbor.read bytes with
  | none => .error .notCbor
  | some (item, []) => ofCbor item
  | some (_, rest) => .error (.trailing rest.length)

/-- The node that bytes write, if they are those that the digest names. -/
def decodeAs (H : Hashing) (expected : Digest) (bytes : Bytes) : Except NodeError Node :=
  if H bytes = expected then decode bytes else .error (.digestMismatch expected (H bytes))

end Node

end Reconcile

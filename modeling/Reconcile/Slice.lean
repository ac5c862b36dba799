import Reconcile.Cbor.Writer
import Reconcile.Digest

/-! Slices of the name space. A slice is what two parties agree to reconcile: the names under a base
name, less those under any excluded name, within a routing region. Its identifier is computed from
its canonical bytes, and the nodes of its tree are asked for by names made from that identifier. -/

namespace Reconcile

structure SliceId where
  bytes : Bytes
deriving Repr, DecidableEq

namespace SliceId

instance : LT SliceId := ⟨fun a b => a.bytes < b.bytes⟩

instance : DecidableLT SliceId := fun a b => inferInstanceAs (Decidable (a.bytes < b.bytes))

def length : Nat := 32

def ofBytes? (bytes : Bytes) : Option SliceId :=
  if bytes.length = length then some ⟨bytes⟩ else none

def hex (id : SliceId) : String := Hex.encode id.bytes

def short (id : SliceId) : String := String.ofList ((Hex.digits id.bytes).take 16)

def ofHex (text : String) : Except HexError SliceId :=
  match Hex.decode text with
  | .error e => .error e
  | .ok bytes =>
    match ofBytes? bytes with
    | none => .error .wrongLength
    | some id => .ok id

end SliceId

structure Slice where
  /-- The routing name under which the slice is served. -/
  region : Name
  /-- Every name of the slice starts with this one. -/
  base : Name
  /-- Names that start with one of these are left out. -/
  excluded : List Name := []
deriving Repr, DecidableEq

namespace Slice

/-- The bytes that stand for a slice: its three parts, each name with the length of every
component. -/
def canonical (s : Slice) : Bytes :=
  Cbor.array [Cbor.name s.region, Cbor.name s.base, Cbor.array (s.excluded.map Cbor.name)]

/-- What is put before the canonical bytes, so that no other digest is taken for an identifier. -/
def domain : Bytes := utf8 "ndnsync-slice-v1:"

def id (H : Hashing) (s : Slice) : SliceId := ⟨(H (domain ++ s.canonical)).bytes⟩

def holds (s : Slice) (name : Name) : Bool :=
  s.base.startsOf name && !s.excluded.any (·.startsOf name)

/-- The component between a routing name and what is asked for under it. -/
def marker : Component := [0xC1, 0x2E, 0x53, 0x2E, 0x6E, 0x66]

def fetchName (H : Hashing) (s : Slice) (digest : Digest) : Name :=
  s.region.append ⟨[marker, (s.id H).bytes, digest.bytes]⟩

/-- The slice and the node that a name asks for: the two components after its first marker. Whatever
follows them does not matter. -/
def parseFetchName? (name : Name) : Option (SliceId × Digest) :=
  match name.position? marker with
  | none => none
  | some i =>
    match (name.component? (i + 1)).bind SliceId.ofBytes?, name.component? (i + 2) with
    | some id, some (b :: rest) => some (id, ⟨b :: rest⟩)
    | _, _ => none

end Slice

end Reconcile

import Reconcile.Name

/-! The part of CBOR that nodes and slices are written in: unsigned numbers, byte strings and
arrays, each with its length in front and every number in the fewest bytes. -/

namespace Reconcile.Cbor

/-- No head is defined for a number of 2^64 or more, and no list that fits into memory is so long. These
bytes, which every reader refuses, keep `head` total and one to one there. Whatever is said about reading
back has a bound on the lengths instead, and does not rest on them. -/
def beyond (major n : Nat) : Bytes :=
  UInt8.ofNat (32 * major + 28) :: (List.replicate n 0 ++ [1])

def head (major n : Nat) : Bytes :=
  if n < 24 then [UInt8.ofNat (32 * major + n)]
  else if n < UInt8.size then UInt8.ofNat (32 * major + 24) :: bigEndian 1 n
  else if n < UInt16.size then UInt8.ofNat (32 * major + 25) :: bigEndian 2 n
  else if n < UInt32.size then UInt8.ofNat (32 * major + 26) :: bigEndian 4 n
  else if n < UInt64.size then UInt8.ofNat (32 * major + 27) :: bigEndian 8 n
  else beyond major n

def unsigned (n : Nat) : Bytes := head 0 n

def byteString (bytes : Bytes) : Bytes := head 2 bytes.length ++ bytes

def array (items : List Bytes) : Bytes := head 4 items.length ++ items.flatten

def name (n : Name) : Bytes := array (n.components.map byteString)

end Reconcile.Cbor

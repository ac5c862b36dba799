import Reconcile.Bytes
import Reconcile.Text.Hex

/-! Digests name nodes by their content. Any byte string may stand as a digest; digests are ordered
as byte strings. What computes them from content is a parameter of everything that needs it. -/

namespace Reconcile

structure Digest where
  bytes : Bytes
deriving Repr, DecidableEq

/-- How content is turned into a digest. -/
abbrev Hashing := Bytes → Digest

namespace Digest

instance : LT Digest := ⟨fun a b => a.bytes < b.bytes⟩

instance : DecidableLT Digest := fun a b => inferInstanceAs (Decidable (a.bytes < b.bytes))

def hex (d : Digest) : String := Hex.encode d.bytes

/-- The first sixteen digits, enough to tell digests apart by eye. -/
def short (d : Digest) : String := String.ofList ((Hex.digits d.bytes).take 16)

def ofHex (text : String) : Except HexError Digest := (Hex.decode text).map Digest.mk

end Digest

end Reconcile

import Reconcile.Ascending
import Reconcile.Slice

/-! Sample content: what a publisher calls a piece of content that it labels, the slice that all samples
belong to, and what one set of samples adds to another. -/

namespace Reconcile.Sample

def base : Name := ⟨[utf8 "app"]⟩

def shortName (label : String) : Name := base.child (utf8 label)

/-- The full name of a sample, with the digest of its label at the end. -/
def fullName (H : Hashing) (label : String) : Name := (shortName label).child (H (utf8 label)).bytes

def slice : Slice := { region := ⟨[utf8 "topo"]⟩, base }

/-- The names of a set that a smaller one lacks, in order. -/
def added (base full : List Name) : List Name :=
  (ascending full).filter (fun name => !base.contains name)

end Reconcile.Sample

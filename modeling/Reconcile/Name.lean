import Reconcile.Bytes

/-! Hierarchical content names: rows of byte components, compared component by component. A name
comes before all its extensions. The names that a tree lists end with a component for their
content's digest, which `parent` takes off. -/

namespace Reconcile

/-- One component of a name; any bytes, none at all included. -/
abbrev Component := Bytes

structure Name where
  components : List Component := []
deriving Repr, DecidableEq

namespace Name

def root : Name := ⟨[]⟩

instance : Inhabited Name := ⟨root⟩

instance : LT Name := ⟨fun a b => a.components < b.components⟩

instance : LE Name := ⟨fun a b => ¬ b < a⟩

instance : DecidableLT Name := fun a b => inferInstanceAs (Decidable (a.components < b.components))

instance : DecidableLE Name := fun a b => inferInstanceAs (Decidable (¬ b < a))

def length (n : Name) : Nat := n.components.length

def isEmpty (n : Name) : Bool := n.components.isEmpty

def component? (n : Name) (i : Nat) : Option Component := n.components[i]?

def last? (n : Name) : Option Component := n.components.getLast?

def child (n : Name) (c : Component) : Name := ⟨n.components ++ [c]⟩

def append (n m : Name) : Name := ⟨n.components ++ m.components⟩

/-- The name without its last component; the root is its own parent. -/
def parent (n : Name) : Name := ⟨n.components.dropLast⟩

def startsOf (n m : Name) : Bool := n.components.isPrefixOf m.components

def position? (n : Name) (c : Component) : Option Nat := n.components.findIdx? (· = c)

end Name

end Reconcile

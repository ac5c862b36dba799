/-! Whose turn it is to run. There is one turn to take; who asks while it is taken gets none, but
makes the one who has it go round once more. -/

namespace Reconcile

structure Turn where
  taken : Bool := false
  again : Bool := false
deriving Repr, DecidableEq

namespace Turn

/-- Ask for the turn. The answer says whether it was got. -/
def claim (t : Turn) : Turn × Bool :=
  if t.taken then ({ t with again := true }, false) else ({ t with taken := true }, true)

def release (t : Turn) : Turn × Bool :=
  if t.again then ({ t with again := false }, true) else ({ t with taken := false }, false)

end Turn

end Reconcile

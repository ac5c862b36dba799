import Reconcile.Node.Encoding
import Reconcile.Text.Span

/-! Why a node could not be fetched. -/

namespace Reconcile

inductive FetchFailure
  | transport (reason : String)
  | notFound (digest : Digest)
  /-- No reply came within the given number of nanoseconds. -/
  | timeout (nanoseconds : Nat)
  | invalid (error : NodeError)
  | shutDown
deriving Repr, DecidableEq

namespace FetchFailure

def message : FetchFailure → String
  | transport reason => "transport error: " ++ reason
  | notFound digest => "node not found: " ++ digest.short
  | timeout nanoseconds => "fetch timed out after " ++ Span.text nanoseconds
  | invalid error => "invalid node content: " ++ error.message
  | shutDown => "fetcher shut down"

end FetchFailure

end Reconcile

import Reconcile.Json.Reader
import Reconcile.Json.Writer

/-! Settings of a synchronisation, in JSON: a record with the one part `sync`, which holds how long
to wait for quiet before comparing, how long a fetch may take, and how often a node is asked for.
Whatever is left out has a default. -/

namespace Reconcile

/-- What a synchronisation can be told. Spans are in milliseconds. -/
structure Settings where
  /-- How long a comparison waits after a wake-up, so that a burst of answers needs only one. -/
  quiet : Nat := 100
  timeout : Nat := 30000
  /-- How many failures of a node it takes to give it up. -/
  attempts : Nat := 3
deriving Repr, DecidableEq

namespace Settings

def number? (bound default : Nat) : Option Json → Option Nat
  | none => some default
  | some v => v.below? bound

def ofJson? (v : Json) : Option Settings :=
  match v.fields? ["debounce_ms", "fetch_timeout_ms", "max_fetch_attempts"] with
  | some [quiet, timeout, attempts] =>
    match number? UInt64.size 100 quiet, number? UInt64.size 30000 timeout,
      number? UInt32.size 3 attempts with
    | some quiet, some timeout, some attempts => some { quiet, timeout, attempts }
    | _, _, _ => none
  | _ => none

/-- The settings that a JSON text writes, in a record with the part `sync`. -/
def parse? (text : String) : Option Settings :=
  match (Json.parse text).bind (Json.fields? ["sync"]) with
  | some [none] => some {}
  | some [some sync] => ofJson? sync
  | _ => none

def json (s : Settings) : String :=
  String.ofList <| Json.objectText [Json.fieldText "sync" <| Json.objectText
    [ Json.fieldText "debounce_ms" (Json.naturalText s.quiet)
    , Json.fieldText "fetch_timeout_ms" (Json.naturalText s.timeout)
    , Json.fieldText "max_fetch_attempts" (Json.naturalText s.attempts) ]]

end Settings

end Reconcile

import Reconcile.Slice
import Reconcile.Json.Reader
import Reconcile.Json.Writer

/-! Slices as JSON. A component is written as an array of its bytes; it may also be read from a
string. Records may be read from arrays of their fields in order, and the excluded names may be left
out. -/

namespace Reconcile

namespace Name

/-- A component from an array of bytes, or from the bytes of a string. -/
def componentOfJson? : Json → Option Component
  | .array items => (Json.readEach (Json.below? 256) items).map (·.map UInt8.ofNat)
  | .string s => some s.bytes
  | _ => none

def ofJson? (v : Json) : Option Name :=
  match v.fields? ["components"] with
  | some [some (.array items)] => (Json.readEach componentOfJson? items).map Name.mk
  | _ => none

def componentText (c : Component) : List Char :=
  Json.arrayText (c.map (fun b => Json.naturalText b.toNat))

def jsonText (n : Name) : List Char :=
  Json.objectText [Json.fieldText "components" (Json.arrayText (n.components.map componentText))]

end Name

namespace Slice

/-- Names from an array; none, if there is no value at all. -/
def excludedOfJson? : Option Json → Option (List Name)
  | none => some []
  | some (.array items) => Json.readEach Name.ofJson? items
  | some _ => none

def ofJson? (v : Json) : Option Slice :=
  match v.fields? ["topo", "prefix", "filters"] with
  | some [some region, some base, excluded] =>
    match Name.ofJson? region, Name.ofJson? base, excludedOfJson? excluded with
    | some region, some base, some excluded => some { region, base, excluded }
    | _, _, _ => none
  | _ => none

def parse? (text : String) : Option Slice := (Json.parse text).bind ofJson?

def jsonText (s : Slice) : List Char :=
  Json.objectText
    [ Json.fieldText "topo" s.region.jsonText
    , Json.fieldText "prefix" s.base.jsonText
    , Json.fieldText "filters" (Json.arrayText (s.excluded.map Name.jsonText)) ]

def json (s : Slice) : String := String.ofList s.jsonText

end Slice

end Reconcile

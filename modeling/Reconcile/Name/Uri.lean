import Reconcile.Name
import Reconcile.Text.Hex

/-! Names as URIs: a slash before each component, and a percent escape for every byte that is not a
letter, a digit or one of a few marks. Reading skips empty segments, so a component without bytes
has no written form of its own. -/

namespace Reconcile

inductive UriError
  | noSlash (uri : String)
  | badEscape (segment : String)
deriving Repr, DecidableEq

namespace UriError

def message : UriError → String
  | .noSlash uri => "name URI must start with '/': " ++ Quoted.text uri
  | .badEscape segment => "invalid percent escape in name URI: " ++ Quoted.text segment

end UriError

namespace Name

def isPlain (b : UInt8) : Bool :=
  let n := b.toNat
  (48 ≤ n ∧ n ≤ 57) ∨ (65 ≤ n ∧ n ≤ 90) ∨ (97 ≤ n ∧ n ≤ 122) ∨
    n = 45 ∨ n = 46 ∨ n = 95 ∨ n = 126 ∨ n = 43 ∨ n = 61

def escapeByte (b : UInt8) : List Char :=
  if isPlain b then [Char.ofNat b.toNat]
  else ['%', Hex.upperDigit (b.toNat / 16), Hex.upperDigit (b.toNat % 16)]

def escape (c : Component) : List Char := c.flatMap escapeByte

/-- The component that a segment writes, unless a percent sign lacks its two digits. -/
def unescape : List Char → Option Component
  | [] => some []
  | '%' :: high :: low :: rest =>
    match Hex.value? high.toNat, Hex.value? low.toNat with
    | some h, some l => (unescape rest).map (UInt8.ofNat (16 * h + l) :: ·)
    | _, _ => none
  | c :: rest => if c = '%' then none else (unescape rest).map (String.utf8EncodeChar c ++ ·)

def uriChars (n : Name) : List Char :=
  if n.components.isEmpty then ['/'] else n.components.flatMap (fun c => '/' :: escape c)

def uri (n : Name) : String := String.ofList n.uriChars

/-- The segments between slashes, empty ones included. -/
def segments : List Char → List (List Char)
  | [] => [[]]
  | c :: rest =>
    if c = '/' then [] :: segments rest
    else match segments rest with
      | [] => [[c]]
      | s :: more => (c :: s) :: more

/-- Read segments in order, stopping at the first bad one. -/
def ofSegments : List (List Char) → Except UriError (List Component)
  | [] => .ok []
  | s :: rest =>
    match unescape s with
    | none => .error (.badEscape (String.ofList s))
    | some c =>
      match ofSegments rest with
      | .ok cs => .ok (c :: cs)
      | .error e => .error e

def ofUri (uri : String) : Except UriError Name :=
  match uri.toList with
  | '/' :: rest => (ofSegments ((segments rest).filter (fun s => !s.isEmpty))).map Name.mk
  | _ => .error (.noSlash uri)

def describe (n : Name) : String := "Name(" ++ n.uri ++ ")"

def describeComponent (c : Component) : String := "Component(" ++ String.ofList (escape c) ++ ")"

end Name

end Reconcile

import Reconcile.Bytes
import Reconcile.Text.Quoted

/-! Bytes as pairs of hexadecimal digits: written in lower case, read in either case. An odd number
of digits is refused before any digit is looked at. -/

namespace Reconcile

inductive HexError
  | odd
  | badDigit (byte : UInt8) (position : Nat)
  | wrongLength
deriving Repr, DecidableEq

namespace HexError

def message : HexError → String
  | .odd => "Odd number of digits"
  | .badDigit byte position =>
    "Invalid character " ++ Quoted.char (Char.ofNat byte.toNat) ++
      " at position " ++ toString position
  | .wrongLength => "Invalid string length"

end HexError

namespace Hex

def digit (n : Nat) : Char :=
  if n < 10 then Char.ofNat (48 + n) else Char.ofNat (87 + n)

def upperDigit (n : Nat) : Char :=
  if n < 10 then Char.ofNat (48 + n) else Char.ofNat (55 + n)

def value? (code : Nat) : Option Nat :=
  if 48 ≤ code ∧ code ≤ 57 then some (code - 48)
  else if 97 ≤ code ∧ code ≤ 102 then some (code - 87)
  else if 65 ≤ code ∧ code ≤ 70 then some (code - 55)
  else none

def digits (bytes : Bytes) : List Char :=
  bytes.flatMap (fun b => [digit (b.toNat / 16), digit (b.toNat % 16)])

def encode (bytes : Bytes) : String := String.ofList (digits bytes)

/-- Read pairs of digits, the first of which stands at `position`. -/
def pairs (position : Nat) : Bytes → Except HexError Bytes
  | high :: low :: rest =>
    match value? high.toNat, value? low.toNat with
    | none, _ => .error (.badDigit high position)
    | some _, none => .error (.badDigit low (position + 1))
    | some h, some l =>
      match pairs (position + 2) rest with
      | .ok bytes => .ok (UInt8.ofNat (16 * h + l) :: bytes)
      | .error e => .error e
  | _ => .ok []

/-- The bytes that a text writes. Its length and positions count UTF-8 bytes. -/
def decode (text : String) : Except HexError Bytes :=
  let raw := utf8 text
  if raw.length % 2 = 1 then .error .odd else pairs 0 raw

end Hex

end Reconcile

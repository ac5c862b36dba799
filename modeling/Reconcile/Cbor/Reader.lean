import Reconcile.Bytes

/-! Reading one item of any CBOR. Only whole numbers, byte strings and arrays keep their content: no
other item has a place in a node, but each must still be well formed. Arrays, maps and tags may
stand at most 256 deep in one another. -/

namespace Reconcile.Cbor

inductive Item
  | int (n : Int)
  | bytes (b : Bytes)
  | array (items : List Item)
  | other
deriving Repr

abbrev Reader (α : Type) := Bytes → Option (α × Bytes)

def maxDepth : Nat := 256

def take (n : Nat) : Reader Bytes := fun input =>
  let front := input.take n
  if front.length < n then none else some (front, input.drop n)

inductive Argument
  | number (n : Nat)
  | indefinite
deriving Repr, DecidableEq

def argument (low : Nat) : Reader Argument := fun input =>
  let wide (width : Nat) :=
    (take width input).map (fun (b, rest) => (.number (ofBigEndian b), rest))
  if low < 24 then some (.number low, input)
  else if low = 24 then wide 1
  else if low = 25 then wide 2
  else if low = 26 then wide 4
  else if low = 27 then wide 8
  else if low = 31 then some (.indefinite, input)
  else none

/-- The pieces of an indefinite string of a major type, each accepted by `ok`. Pieces may again be
indefinite: `within` counts the strings that are yet to be closed. -/
def pieces (major : Nat) (ok : Bytes → Bool) : Nat → Nat → Reader Bytes
  | 0, _ => fun _ => none
  | fuel + 1, within => fun input =>
    match input with
    | [] => none
    | initial :: input =>
      if initial = 0xFF then
        match within with
        | 0 => some ([], input)
        | within + 1 => pieces major ok fuel within input
      else if initial.toNat / 32 ≠ major then none
      else match argument (initial.toNat % 32) input with
        | none => none
        | some (.indefinite, input) => pieces major ok fuel (within + 1) input
        | some (.number n, input) =>
          match take n input with
          | none => none
          | some (piece, input) =>
            if ok piece then
              (pieces major ok fuel within input).map (fun (rest, input) => (piece ++ rest, input))
            else none

def string (major : Nat) (ok : Bytes → Bool) : Argument → Reader Bytes
  | .number n => fun input =>
    (take n input).bind (fun (b, rest) => if ok b then some (b, rest) else none)
  | .indefinite => fun input => pieces major ok (input.length + 1) 0 input

def times (item : Reader Item) : Nat → List Item → Reader (List Item)
  | 0, done => fun input => some (done.reverse, input)
  | n + 1, done => fun input =>
    match item input with
    | none => none
    | some (i, input) => times item n (i :: done) input

/-- Groups of `group` items up to the byte that ends an indefinite item. -/
def untilBreak (item : Reader Item) (group : Nat) : Nat → List Item → Reader (List Item)
  | 0, _ => fun _ => none
  | fuel + 1, done => fun input =>
    match input with
    | [] => none
    | initial :: rest =>
      if initial = 0xFF then some (done.reverse, rest)
      else match times item group [] input with
        | none => none
        | some (items, input) => untilBreak item group fuel (items.reverse ++ done) input

def members (item : Reader Item) (group : Nat) : Argument → Reader (List Item)
  | .number n => times item (group * n) []
  | .indefinite => fun input => untilBreak item group (input.length + 1) [] input

/-- The whole number that a byte string of at most 16 bytes writes under tag 2 (`negative = false`)
or tag 3. It counts as an integer only between `-2 ^ 64` and `2 ^ 64 - 1`, and under tag 3 must not
exceed `2 ^ 127 - 1`. -/
def bigInteger (negative : Bool) (bytes : Bytes) : Option Item :=
  let n := ofBigEndian bytes
  if negative then
    if 0x80000000000000000000000000000000 ≤ n then none
    else if n < UInt64.size then some (.int (-1 - n)) else some .other
  else if n < UInt64.size then some (.int n) else some .other

/-- What stands under a tag: a short byte string under tag 2 or 3 is a number, and all else is read
by `item`, if the depth allows one. -/
def tagged (item : Option (Reader Item)) (tag : Nat) : Reader Item := fun input =>
  let general : Option (Item × Bytes) :=
    (item.bind (· input)).map (fun (_, rest) => (.other, rest))
  if tag = 2 ∨ tag = 3 then
    match input with
    | initial :: rest =>
      if initial.toNat / 32 = 2 then
        match argument (initial.toNat % 32) rest with
        | some (.number n, rest) =>
          if n ≤ 16 then
            (take n rest).bind (fun (b, rest) => (bigInteger (tag = 3) b).map (·, rest))
          else general
        | _ => general
      else general
    | [] => none
  else general

def entry (item : Option (Reader Item)) : Reader Item
  | [] => none
  | initial :: input =>
    let major := initial.toNat / 32
    let low := initial.toNat % 32
    if major = 7 then
      if 20 ≤ low ∧ low ≤ 23 then some (.other, input)
      else if low = 24 then
        match input with
        | b :: rest => if 20 ≤ b.toNat ∧ b.toNat ≤ 23 then some (.other, rest) else none
        | [] => none
      else if low = 25 then (take 2 input).map (fun (_, rest) => (.other, rest))
      else if low = 26 then (take 4 input).map (fun (_, rest) => (.other, rest))
      else if low = 27 then (take 8 input).map (fun (_, rest) => (.other, rest))
      else none
    else match argument low input with
      | none => none
      | some (arg, input) =>
        if major = 2 then
          (string 2 (fun _ => true) arg input).map (fun (b, rest) => (.bytes b, rest))
        else if major = 3 then
          (string 3 isUtf8 arg input).map (fun (_, rest) => (.other, rest))
        else if major = 4 then
          item.bind (fun item =>
            (members item 1 arg input).map (fun (xs, rest) => (.array xs, rest)))
        else if major = 5 then
          item.bind (fun item =>
            (members item 2 arg input).map (fun (_, rest) => (.other, rest)))
        else match arg with
          | .indefinite => none
          | .number n =>
            if major = 0 then some (.int n, input)
            else if major = 1 then some (.int (-1 - n), input)
            else tagged item n input

def item : Nat → Reader Item
  | 0 => entry none
  | depth + 1 => entry (some (item depth))

def read : Reader Item := item maxDepth

end Reconcile.Cbor

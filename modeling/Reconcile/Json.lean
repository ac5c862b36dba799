import Reconcile.Bytes

/-! JSON values as they are read. Nothing is thrown away that could make a value unusable for some
purpose: a string keeps unpaired halves of surrogate pairs, and remembers whether a control
character stood in it unescaped; a number keeps only whether it was a plain row of digits. -/

namespace Reconcile

structure JsonString where
  /-- Code points, and halves of surrogate pairs that have no other half beside them. -/
  codes : List Nat
  /-- Whether a control character stood in the string without an escape. -/
  hasControl : Bool
deriving Repr, DecidableEq

inductive Json
  | null
  | bool (b : Bool)
  | natural (n : Nat)
  | number
  | string (s : JsonString)
  | array (items : List Json)
  | object (fields : List (JsonString × Json))
deriving Repr

namespace JsonString

def isHalf (code : Nat) : Bool := 0xD800 ≤ code ∧ code < 0xE000

def text? (s : JsonString) : Option String :=
  if s.hasControl || s.codes.any isHalf then none else some (String.ofList (s.codes.map Char.ofNat))

/-- The bytes of a code, by the scheme of UTF-8 also for half a pair. -/
def codeBytes (code : Nat) : Bytes :=
  if isHalf code then
    [UInt8.ofNat (224 + code / 4096), UInt8.ofNat (128 + code / 64 % 64),
      UInt8.ofNat (128 + code % 64)]
  else String.utf8EncodeChar (Char.ofNat code)

def bytes (s : JsonString) : Bytes := s.codes.flatMap codeBytes

end JsonString

namespace Json

mutual

/-- Whether no control character stands unescaped anywhere in a value. -/
def isClean : Json → Bool
  | string s => !s.hasControl
  | array items => areClean items
  | object fields => fieldsAreClean fields
  | _ => true

def areClean : List Json → Bool
  | [] => true
  | v :: rest => isClean v && areClean rest

def fieldsAreClean : List (JsonString × Json) → Bool
  | [] => true
  | (k, v) :: rest => !k.hasControl && (isClean v && fieldsAreClean rest)

end

def readEach {α : Type} (read : Json → Option α) : List Json → Option (List α)
  | [] => some []
  | v :: rest =>
    match read v, readEach read rest with
    | some a, some as => some (a :: as)
    | _, _ => none

/-- The values at known keys, none of which may come twice. A field of another key is passed over;
its value only has to be clean. -/
def known (names : List String) :
    List (JsonString × Json) → List (String × Json) → Option (List (String × Json))
  | [], found => some found
  | (key, value) :: rest, found =>
    match key.text? with
    | none => none
    | some key =>
      if names.contains key then
        if found.any (·.1 = key) then none else known names rest (found ++ [(key, value)])
      else if value.isClean then known names rest found
      else none

/-- The value at each of the known keys, for a record written as an object, or as an array of its
first values in the order of the keys. -/
def fields? (names : List String) : Json → Option (List (Option Json))
  | object fields => (known names fields []).map (fun found => names.map (found.lookup ·))
  | array items =>
    if items.length ≤ names.length then
      some (items.map some ++ List.replicate (names.length - items.length) none)
    else none
  | _ => none

def below? (bound : Nat) : Json → Option Nat
  | natural n => if n < bound then some n else none
  | _ => none

end Json

end Reconcile

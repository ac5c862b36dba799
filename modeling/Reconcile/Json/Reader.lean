import Reconcile.Json
import Reconcile.Text.Hex

/-! JSON text. The grammar is that of RFC 8259, but for control characters in strings, which are
noted and left to the reader of the value. -/

namespace Reconcile.Json

abbrev Reader (α : Type) := List Char → Option (α × List Char)

def isBlank (c : Char) : Bool := c = ' ' ∨ c = '\t' ∨ c = '\n' ∨ c = '\r'

def skipBlanks (text : List Char) : List Char := text.dropWhile isBlank

def hexCode? (a b c d : Char) : Option Nat :=
  match Hex.value? a.toNat, Hex.value? b.toNat, Hex.value? c.toNat, Hex.value? d.toNat with
  | some a, some b, some c, some d => some (((a * 16 + b) * 16 + c) * 16 + d)
  | _, _, _, _ => none

def escaped? : Char → Option Char
  | '"' => some '"'
  | '\\' => some '\\'
  | '/' => some '/'
  | 'b' => some '\x08'
  | 'f' => some '\x0c'
  | 'n' => some '\n'
  | 'r' => some '\r'
  | 't' => some '\t'
  | _ => none

/-- Put a code in front of codes, joining the two halves of a surrogate pair. -/
def consCode (code : Nat) (codes : List Nat) : List Nat :=
  match codes with
  | low :: rest =>
    if 0xD800 ≤ code ∧ code < 0xDC00 ∧ 0xDC00 ≤ low ∧ low < 0xE000 then
      (0x10000 + (code - 0xD800) * 0x400 + (low - 0xDC00)) :: rest
    else code :: codes
  | [] => [code]

/-- The rest of a string, up to the quotation mark that ends it. -/
def stringTail : Reader JsonString
  | [] => none
  | '"' :: rest => some (⟨[], false⟩, rest)
  | '\\' :: 'u' :: a :: b :: c :: d :: rest =>
    match hexCode? a b c d, stringTail rest with
    | some code, some (s, rest) => some ({ s with codes := consCode code s.codes }, rest)
    | _, _ => none
  | '\\' :: e :: rest =>
    match escaped? e, stringTail rest with
    | some c, some (s, rest) => some ({ s with codes := c.toNat :: s.codes }, rest)
    | _, _ => none
  | c :: rest =>
    if c = '\\' then none
    else match stringTail rest with
      | some (s, rest) => some (⟨c.toNat :: s.codes, s.hasControl || c.toNat < 32⟩, rest)
      | none => none

def decimal (digits : List Char) : Nat := digits.foldl (fun n c => 10 * n + (c.toNat - 48)) 0

def digits : Reader (List Char) := fun text =>
  match text.takeWhile Char.isDigit with
  | [] => none
  | ds => some (ds, text.dropWhile Char.isDigit)

/-- Whether a fraction or an exponent follows, and what is left after it. -/
def numberTail (text : List Char) : Option (Bool × List Char) :=
  let fraction : Option (Bool × List Char) :=
    match text with
    | '.' :: rest => (digits rest).map (fun (_, rest) => (true, rest))
    | _ => some (false, text)
  match fraction with
  | none => none
  | some (seen, text) =>
    match text with
    | e :: rest =>
      if e = 'e' ∨ e = 'E' then
        let unsigned := match rest with
          | s :: more => if s = '+' ∨ s = '-' then more else rest
          | [] => rest
        (digits unsigned).map (fun (_, rest) => (true, rest))
      else some (seen, text)
    | [] => some (seen, text)

/-- A number: digits without a needless zero in front, and a sign, a fraction or an exponent if need
be. -/
def numberValue (text : List Char) : Option (Json × List Char) :=
  let (negative, text) := match text with
    | '-' :: rest => (true, rest)
    | _ => (false, text)
  match digits text with
  | none => none
  | some (ds, rest) =>
    if ds.head? = some '0' ∧ 1 < ds.length then none
    else match numberTail rest with
      | none => none
      | some (seen, rest) =>
        some (if negative || seen then .number else .natural (decimal ds), rest)

def word (w : List Char) (v : Json) : Reader Json := fun text =>
  if w.isPrefixOf text then some (v, text.drop w.length) else none

def items (value : Reader Json) : Nat → Reader (List Json)
  | 0 => fun _ => none
  | fuel + 1 => fun text =>
    match value text with
    | none => none
    | some (v, text) =>
      match skipBlanks text with
      | ',' :: text => (items value fuel text).map (fun (vs, rest) => (v :: vs, rest))
      | ']' :: text => some ([v], text)
      | _ => none

def objectFields (value : Reader Json) : Nat → Reader (List (JsonString × Json))
  | 0 => fun _ => none
  | fuel + 1 => fun text =>
    match skipBlanks text with
    | '"' :: text =>
      match stringTail text with
      | none => none
      | some (key, text) =>
        match skipBlanks text with
        | ':' :: text =>
          match value text with
          | none => none
          | some (v, text) =>
            match skipBlanks text with
            | ',' :: text =>
              (objectFields value fuel text).map (fun (fs, rest) => ((key, v) :: fs, rest))
            | '\x7d' :: text => some ([(key, v)], text)
            | _ => none
        | _ => none
    | _ => none

/-- A value; `fuel` bounds how deep arrays and objects stand in one another and how many members
each has. More than the length of the text is always enough. -/
def value : Nat → Reader Json
  | 0 => fun _ => none
  | fuel + 1 => fun text =>
    match skipBlanks text with
    | [] => none
    | '"' :: rest => (stringTail rest).map (fun (s, rest) => (.string s, rest))
    | '[' :: rest =>
      match skipBlanks rest with
      | ']' :: rest => some (.array [], rest)
      | _ => (items (value fuel) fuel rest).map (fun (vs, rest) => (.array vs, rest))
    | '\x7b' :: rest =>
      match skipBlanks rest with
      | '\x7d' :: rest => some (.object [], rest)
      | _ => (objectFields (value fuel) fuel rest).map (fun (fs, rest) => (.object fs, rest))
    | c :: rest =>
      if c = 'n' then word "null".toList .null (c :: rest)
      else if c = 't' then word "true".toList (.bool true) (c :: rest)
      else if c = 'f' then word "false".toList (.bool false) (c :: rest)
      else numberValue (c :: rest)

def parse (text : String) : Option Json :=
  let chars := text.toList
  match value (chars.length + 1) chars with
  | some (v, rest) => if skipBlanks rest = [] then some v else none
  | none => none

end Reconcile.Json

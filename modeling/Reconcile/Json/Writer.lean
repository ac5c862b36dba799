/-! Compact JSON text, of the few kinds of value that are ever written: whole numbers, arrays, and
objects whose keys need no escape. -/

namespace Reconcile.Json

def commas : List (List Char) → List Char
  | [] => []
  | [text] => text
  | text :: rest => text ++ ',' :: commas rest

def naturalText (n : Nat) : List Char := Nat.toDigits 10 n

def arrayText (items : List (List Char)) : List Char := '[' :: commas items ++ [']']

def fieldText (key : String) (value : List Char) : List Char :=
  '"' :: key.toList ++ '"' :: ':' :: value

def objectText (fields : List (List Char)) : List Char := '\x7b' :: commas fields ++ ['\x7d']

end Reconcile.Json

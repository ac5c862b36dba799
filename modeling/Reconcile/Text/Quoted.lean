import Reconcile.Text.Shown

/-! Text between quotation marks, for messages. Marks and backslashes are escaped, the common
control characters have letters, and whatever would not show by itself is written by its code. -/

namespace Reconcile.Quoted

def code (n : Nat) : String := String.ofList (Nat.toDigits 16 n)

def escape (mark c : Char) : String :=
  if c = mark ∨ c = '\\' then String.ofList ['\\', c]
  else if c = '\x00' then "\\0"
  else if c = '\t' then "\\t"
  else if c = '\n' then "\\n"
  else if c = '\r' then "\\r"
  else if isShown c then String.singleton c
  else "\\u\x7b" ++ code c.toNat ++ "\x7d"

def text (s : String) : String :=
  "\"" ++ String.join (s.toList.map (escape '"')) ++ "\""

def char (c : Char) : String :=
  "'" ++ escape '\'' c ++ "'"

end Reconcile.Quoted

/-! Byte strings are plain lists, so their order, concatenation and equality are those of
lists. Numbers are written and read with the most significant byte first. -/

namespace Reconcile

abbrev Bytes := List UInt8

def utf8 (text : String) : Bytes :=
  text.toList.flatMap String.utf8EncodeChar

def isUtf8 (bytes : Bytes) : Bool :=
  (ByteArray.mk bytes.toArray).validateUTF8

/-- The lowest `width` bytes of `n`, most significant first. -/
def bigEndian : Nat → Nat → Bytes
  | 0, _ => []
  | width + 1, n => bigEndian width (n / 256) ++ [UInt8.ofNat (n % 256)]

def ofBigEndian (bytes : Bytes) : Nat :=
  bytes.foldl (fun n b => 256 * n + b.toNat) 0

@[simp] theorem length_bigEndian (width n : Nat) : (bigEndian width n).length = width := by
  induction width generalizing n with
  | zero => rfl
  | succ width ih => simp [bigEndian, ih]

theorem ofBigEndian_append_singleton (bytes : Bytes) (b : UInt8) :
    ofBigEndian (bytes ++ [b]) = 256 * ofBigEndian bytes + b.toNat := by
  simp [ofBigEndian]

theorem ofBigEndian_bigEndian (width n : Nat) (h : n < Nat.pow 256 width) :
    ofBigEndian (bigEndian width n) = n := by
  induction width generalizing n with
  | zero =>
    have : n = 0 := Nat.lt_one_iff.mp h
    rw [this]
    rfl
  | succ width ih =>
    have hn : n / 256 < Nat.pow 256 width := Nat.div_lt_of_lt_mul (by rw [Nat.mul_comm]; exact h)
    rw [bigEndian, ofBigEndian_append_singleton, ih _ hn, UInt8.toNat_ofNat']
    omega

end Reconcile

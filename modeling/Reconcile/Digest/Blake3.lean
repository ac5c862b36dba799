import Reconcile.Digest

/-! BLAKE3 with its default length of 32 bytes. Content is cut into chunks of 1024 bytes, each chunk
into blocks of 64; chunks are joined in a binary tree whose left branch is the largest complete one,
and only the last compression, at the root, carries the root flag. -/

namespace Reconcile.Blake3

abbrev Chaining := Vector UInt32 8

abbrev Block := Vector UInt32 16

def start : Chaining := #v[0x6A09E667, 0xBB67AE85, 0x3C6EF372, 0xA54FF53A,
  0x510E527F, 0x9B05688C, 0x1F83D9AB, 0x5BE0CD19]

def chunkStart : UInt32 := 1

def chunkEnd : UInt32 := 2

def parentFlag : UInt32 := 4

def root : UInt32 := 8

/-- Where each word of the message goes for the next round. -/
def order : Vector (Fin 16) 16 := #v[2, 6, 3, 10, 7, 0, 4, 13, 1, 11, 12, 5, 9, 14, 15, 8]

/-- Turn a word right by `n` bits, `0 < n < 32`. -/
def turn (w n : UInt32) : UInt32 := (w >>> n) ||| (w <<< (32 - n))

def mix (s : Block) (a b c d : Fin 16) (x y : UInt32) : Block :=
  let s := s.set a (s[a] + s[b] + x)
  let s := s.set d (turn (s[d] ^^^ s[a]) 16)
  let s := s.set c (s[c] + s[d])
  let s := s.set b (turn (s[b] ^^^ s[c]) 12)
  let s := s.set a (s[a] + s[b] + y)
  let s := s.set d (turn (s[d] ^^^ s[a]) 8)
  let s := s.set c (s[c] + s[d])
  s.set b (turn (s[b] ^^^ s[c]) 7)

/-- One round: the columns, then the diagonals. -/
def round (s m : Block) : Block :=
  let s := mix s 0 4 8 12 m[0] m[1]
  let s := mix s 1 5 9 13 m[2] m[3]
  let s := mix s 2 6 10 14 m[4] m[5]
  let s := mix s 3 7 11 15 m[6] m[7]
  let s := mix s 0 5 10 15 m[8] m[9]
  let s := mix s 1 6 11 12 m[10] m[11]
  let s := mix s 2 7 8 13 m[12] m[13]
  mix s 3 4 9 14 m[14] m[15]

def rounds : Nat → Block → Block → Block
  | 0, s, _ => s
  | n + 1, s, m => rounds n (round s m) (order.map (fun i => m[i]))

/-- A compression that is yet to be carried out, so that the root flag can still be added. -/
structure Pending where
  chaining : Chaining
  block : Block
  counter : UInt64
  length : UInt32
  flags : UInt32

def Pending.compress (p : Pending) (extra : UInt32) : Chaining :=
  let low := p.counter.toUInt32
  let high := (p.counter >>> 32).toUInt32
  let flags := p.flags ||| extra
  let lower : Chaining := #v[start[0], start[1], start[2], start[3], low, high, p.length, flags]
  let s : Block := p.chaining ++ lower
  let s := rounds 7 s p.block
  Vector.ofFn (fun i : Fin 8 => s.get ⟨i.val, by omega⟩ ^^^ s.get ⟨i.val + 8, by omega⟩)

def word : Bytes → UInt32
  | [] => 0
  | b :: rest => b.toUInt32 ||| (word rest <<< 8)

/-- The words of a byte string, `n` of them, with zeros where it is too short. -/
def words : Nat → Bytes → List UInt32
  | 0, _ => []
  | n + 1, bytes => word (bytes.take 4) :: words n (bytes.drop 4)

theorem length_words (n : Nat) (bytes : Bytes) : (words n bytes).length = n := by
  induction n generalizing bytes with
  | zero => rfl
  | succ n ih => simp [words, ih]

def block (bytes : Bytes) : Block :=
  ⟨(words 16 bytes).toArray, by simp [length_words]⟩

/-- The pending last compression of a chunk, `blocks` of its blocks being left after this one. -/
def chunk (counter : UInt64) : Nat → Chaining → UInt32 → Bytes → Pending
  | 0, chaining, flags, bytes =>
    ⟨chaining, block bytes, counter, bytes.length.toUInt32, flags ||| chunkEnd⟩
  | blocks + 1, chaining, flags, bytes =>
    let first : Pending := ⟨chaining, block (bytes.take 64), counter, 64, flags⟩
    chunk counter blocks (first.compress 0) 0 (bytes.drop 64)

def join (left right : Chaining) : Pending :=
  ⟨start, left ++ right, 0, 64, parentFlag⟩

/-- The largest `1024 * 2 ^ k` below `length`, starting from `size`. -/
def leftLength : Nat → Nat → Nat → Nat
  | 0, size, _ => size
  | fuel + 1, size, length => if 2 * size < length then leftLength fuel (2 * size) length else size

theorem le_leftLength (fuel size length : Nat) : size ≤ leftLength fuel size length := by
  induction fuel generalizing size with
  | zero => exact Nat.le_refl _
  | succ fuel ih =>
    rw [leftLength]
    split
    · exact Nat.le_trans (by omega) (ih (2 * size))
    · exact Nat.le_refl _

theorem leftLength_lt (fuel size length : Nat) (h : size < length) :
    leftLength fuel size length < length := by
  induction fuel generalizing size with
  | zero => exact h
  | succ fuel ih =>
    rw [leftLength]
    split
    · exact ih _ (by assumption)
    · exact h

/-- The pending last compression of content whose first chunk has the number `counter`. -/
def tree (counter : Nat) (bytes : Bytes) : Pending :=
  if _h : bytes.length ≤ 1024 then
    chunk counter.toUInt64 ((bytes.length - 1) / 64) start chunkStart bytes
  else
    let cut := leftLength bytes.length 1024 bytes.length
    have : 1024 ≤ cut := le_leftLength _ _ _
    have : cut < bytes.length := leftLength_lt _ _ _ (by omega)
    join ((tree counter (bytes.take cut)).compress 0)
      ((tree (counter + cut / 1024) (bytes.drop cut)).compress 0)
termination_by bytes.length
decreasing_by
  · rw [List.length_take]; omega
  · rw [List.length_drop]; omega

def spread (w : UInt32) : Bytes :=
  [w.toUInt8, (w >>> 8).toUInt8, (w >>> 16).toUInt8, (w >>> 24).toUInt8]

def hash (bytes : Bytes) : Digest :=
  ⟨((tree 0 bytes).compress root).toList.flatMap spread⟩

theorem length_hash (bytes : Bytes) : (hash bytes).bytes.length = 32 := by
  simp [hash, spread, List.length_flatMap, List.map_const']

end Reconcile.Blake3

import Mathlib.Data.List.Forall2
import Reconcile.Cbor.Writer
import Reconcile.Cbor.Reader

/-! # Written CBOR delimits itself

What is written can be followed by anything: where it ends can be told from its front. So no two
numbers, byte strings or arrays are written alike, and a reader that accepts a written item reads
that very item. -/

namespace Reconcile.Cbor

/-- Different things are written so that neither is the front of the other. -/
def Delimited {α : Type} (write : α → Bytes) : Prop :=
  ∀ ⦃x y : α⦄ ⦃s t : Bytes⦄, write x ++ s = write y ++ t → x = y ∧ s = t

theorem Delimited.injective {α : Type} {write : α → Bytes} (h : Delimited write) :
    Function.Injective write := by
  intro x y hxy
  exact (h (congrArg (· ++ []) hxy)).1

/-! ## Heads -/

/-- The low five bits of the head of a number. -/
def lowBits (n : Nat) : Nat :=
  if n < 24 then n
  else if n < UInt8.size then 24
  else if n < UInt16.size then 25
  else if n < UInt32.size then 26
  else if n < UInt64.size then 27
  else 28

/-- What follows the first byte of the head of a number. -/
def headTail (n : Nat) : Bytes :=
  if n < 24 then []
  else if n < UInt8.size then bigEndian 1 n
  else if n < UInt16.size then bigEndian 2 n
  else if n < UInt32.size then bigEndian 4 n
  else if n < UInt64.size then bigEndian 8 n
  else List.replicate n 0 ++ [1]

theorem head_eq (major n : Nat) :
    head major n = UInt8.ofNat (32 * major + lowBits n) :: headTail n := by
  unfold head lowBits headTail beyond
  repeat' split
  all_goals rfl

theorem lowBits_lt (n : Nat) : lowBits n < 32 := by
  unfold lowBits
  repeat' split
  all_goals omega

theorem toNat_initial (major n : Nat) (hmajor : major < 8) :
    (UInt8.ofNat (32 * major + lowBits n)).toNat = 32 * major + lowBits n := by
  have h := lowBits_lt n
  rw [UInt8.toNat_ofNat']
  omega

theorem take_append (bytes rest : Bytes) : take bytes.length (bytes ++ rest) = some (bytes, rest) := by
  simp [take]

theorem take_bigEndian (width n : Nat) (rest : Bytes) (h : n < Nat.pow 256 width) :
    (take width (bigEndian width n ++ rest)).map
        (fun (b, rest) => (Argument.number (ofBigEndian b), rest)) =
      some (.number n, rest) := by
  have htake := take_append (bigEndian width n) rest
  rw [length_bigEndian] at htake
  rw [htake, Option.map_some]
  simp only [ofBigEndian_bigEndian width n h]

/-- The argument of a head is its number, unless CBOR has no form for that. -/
theorem argument_headTail (n : Nat) (rest : Bytes) :
    argument (lowBits n) (headTail n ++ rest) =
      if n < UInt64.size then some (.number n, rest) else none := by
  have h8 : UInt8.size = 256 := rfl
  have h16 : UInt16.size = 65536 := rfl
  have h32 : UInt32.size = 4294967296 := rfl
  have h64 : UInt64.size = 18446744073709551616 := rfl
  unfold lowBits headTail
  split
  · rename_i h
    simp only [argument, List.nil_append, if_pos h]
    rw [if_pos (by omega)]
  · split
    · rw [if_pos (by omega)]
      exact take_bigEndian 1 n rest (by omega)
    · split
      · rw [if_pos (by omega)]
        exact take_bigEndian 2 n rest (by omega)
      · split
        · rw [if_pos (by omega)]
          exact take_bigEndian 4 n rest (by omega)
        · split
          · exact take_bigEndian 8 n rest (by omega)
          · simp [argument]

theorem replicate_append_inj {n m : Nat} {s t : Bytes}
    (h : List.replicate n (0 : UInt8) ++ 1 :: s = List.replicate m 0 ++ 1 :: t) :
    n = m ∧ s = t := by
  induction n generalizing m with
  | zero =>
      cases m with
      | zero => exact ⟨rfl, by simpa using h⟩
      | succ m => simp [List.replicate_succ] at h
  | succ n ih =>
      cases m with
      | zero => simp [List.replicate_succ] at h
      | succ m =>
          simp only [List.replicate_succ, List.cons_append, List.cons.injEq, true_and] at h
          obtain ⟨rfl, hst⟩ := ih h
          exact ⟨rfl, hst⟩

theorem delimited_head (major : Nat) (hmajor : major < 8) : Delimited (head major) := by
  intro n m s t h
  rw [head_eq, head_eq, List.cons_append, List.cons_append, List.cons.injEq] at h
  obtain ⟨hfirst, htail⟩ := h
  have hlow : lowBits n = lowBits m := by
    have := congrArg UInt8.toNat hfirst
    rw [toNat_initial major n hmajor, toNat_initial major m hmajor] at this
    omega
  have hread := argument_headTail n s
  rw [hlow, htail, argument_headTail] at hread
  by_cases hn : n < UInt64.size
  · by_cases hm : m < UInt64.size
    · rw [if_pos hn, if_pos hm, Option.some.injEq, Prod.mk.injEq, Argument.number.injEq] at hread
      exact ⟨hread.1.symm, hread.2.symm⟩
    · rw [if_pos hn, if_neg hm] at hread
      cases hread
  · by_cases hm : m < UInt64.size
    · rw [if_neg hn, if_pos hm] at hread
      cases hread
    · have hlarge : ∀ k, ¬ k < UInt64.size → headTail k = List.replicate k 0 ++ [1] := by
        intro k hk
        have h8 : UInt8.size = 256 := rfl
        have h16 : UInt16.size = 65536 := rfl
        have h32 : UInt32.size = 4294967296 := rfl
        have h64 : UInt64.size = 18446744073709551616 := rfl
        unfold headTail
        rw [if_neg (by omega), if_neg (by omega), if_neg (by omega), if_neg (by omega), if_neg hk]
      rw [hlarge n hn, hlarge m hm, List.append_assoc, List.append_assoc] at htail
      exact replicate_append_inj htail

/-! ## Byte strings, arrays and names -/

theorem delimited_unsigned : Delimited unsigned := delimited_head 0 (by decide)

theorem delimited_byteString : Delimited byteString := by
  intro b c s t h
  simp only [byteString, List.append_assoc] at h
  obtain ⟨hlength, hrest⟩ := delimited_head 2 (by decide) h
  exact List.append_inj hrest hlength

theorem Delimited.flatten_map {α : Type} {write : α → Bytes} (hwrite : Delimited write)
    {xs ys : List α} {s t : Bytes} (hlength : xs.length = ys.length)
    (h : (xs.map write).flatten ++ s = (ys.map write).flatten ++ t) : xs = ys ∧ s = t := by
  induction xs generalizing ys with
  | nil =>
      cases ys with
      | nil => exact ⟨rfl, by simpa using h⟩
      | cons y ys => simp at hlength
  | cons x xs ih =>
      cases ys with
      | nil => simp at hlength
      | cons y ys =>
          simp only [List.map_cons, List.flatten_cons, List.append_assoc] at h
          obtain ⟨rfl, hrest⟩ := hwrite h
          obtain ⟨rfl, hst⟩ := ih (by simpa using hlength) hrest
          exact ⟨rfl, hst⟩

theorem delimited_array {α : Type} {write : α → Bytes} (hwrite : Delimited write) :
    Delimited (fun xs : List α => array (xs.map write)) := by
  intro xs ys s t h
  simp only [array, List.length_map, List.append_assoc] at h
  obtain ⟨hlength, hrest⟩ := delimited_head 4 (by decide) h
  exact hwrite.flatten_map hlength hrest

theorem delimited_name : Delimited name := by
  intro n m s t h
  obtain ⟨hcomponents, hst⟩ := delimited_array delimited_byteString h
  cases n
  cases m
  exact ⟨congrArg Name.mk hcomponents, hst⟩

/-! ## Reading what was written -/

/-- Whatever a reader makes of the bytes, followed by anything, is the item. It may also refuse them:
they may nest too deep, or be longer than CBOR can say. -/
def ReadsAs (bytes : Bytes) (x : Item) : Prop :=
  ∀ ⦃depth rest y t⦄, item depth (bytes ++ rest) = some (y, t) → y = x ∧ t = rest

/-- The reader for the members of an item at some depth. -/
def inner : Nat → Option (Reader Item)
  | 0 => none
  | depth + 1 => some (item depth)

theorem item_eq (depth : Nat) : item depth = entry (inner depth) := by
  cases depth <;> rfl

theorem entry_head (item : Option (Reader Item)) {major : Nat} (hmajor : major < 7) (n : Nat)
    (rest : Bytes) :
    entry item (head major n ++ rest) =
      if n < UInt64.size then
        if major = 2 then
          (string 2 (fun _ => true) (.number n) rest).map (fun (b, rest) => (.bytes b, rest))
        else if major = 3 then
          (string 3 isUtf8 (.number n) rest).map (fun (_, rest) => (.other, rest))
        else if major = 4 then
          item.bind (fun item =>
            (members item 1 (.number n) rest).map (fun (xs, rest) => (.array xs, rest)))
        else if major = 5 then
          item.bind (fun item =>
            (members item 2 (.number n) rest).map (fun (_, rest) => (.other, rest)))
        else if major = 0 then some (.int n, rest)
        else if major = 1 then some (.int (-1 - n), rest)
        else tagged item n rest
      else none := by
  have hlow := lowBits_lt n
  have hdiv : (32 * major + lowBits n) / 32 = major := by omega
  have hmod : (32 * major + lowBits n) % 32 = lowBits n := by omega
  have hseven : major ≠ 7 := by omega
  rw [head_eq, List.cons_append]
  simp only [entry, toNat_initial major n (by omega), hdiv, hmod, if_neg hseven,
    argument_headTail]
  by_cases hn : n < UInt64.size
  · simp only [if_pos hn]
  · simp only [if_neg hn]

theorem readsAs_unsigned (n : Nat) : ReadsAs (unsigned n) (.int n) := by
  intro depth rest y t h
  rw [item_eq, unsigned, entry_head _ (by decide)] at h
  split at h
  · simp +decide only [if_false, if_true, Option.some.injEq, Prod.mk.injEq] at h
    exact ⟨h.1.symm, h.2.symm⟩
  · cases h

theorem readsAs_byteString (bytes : Bytes) : ReadsAs (byteString bytes) (.bytes bytes) := by
  intro depth rest y t h
  rw [item_eq, byteString, List.append_assoc, entry_head _ (by decide)] at h
  split at h
  · simp only [if_true, string, take_append, Option.bind_some, Option.map_some,
      Option.some.injEq, Prod.mk.injEq] at h
    exact ⟨h.1.symm, h.2.symm⟩
  · cases h

theorem times_readsAs {depth : Nat} {written : List Bytes} {items : List Item}
    (hall : List.Forall₂ ReadsAs written items) (done : List Item) {rest t : Bytes}
    {ys : List Item}
    (h : times (item depth) written.length done (written.flatten ++ rest) = some (ys, t)) :
    ys = done.reverse ++ items ∧ t = rest := by
  induction hall generalizing done with
  | nil =>
      simp only [List.length_nil, times, List.flatten_nil, List.nil_append, Option.some.injEq,
        Prod.mk.injEq] at h
      exact ⟨by simp [h.1], h.2.symm⟩
  | @cons bytes x written items hx _ ih =>
      simp only [List.length_cons, times, List.flatten_cons, List.append_assoc] at h
      cases hread : item depth (bytes ++ (written.flatten ++ rest)) with
      | none => simp [hread] at h
      | some pair =>
          obtain ⟨y, input⟩ := pair
          obtain ⟨rfl, rfl⟩ := hx hread
          simp only [hread] at h
          obtain ⟨hys, ht⟩ := ih (y :: done) h
          exact ⟨by simp [hys], ht⟩

theorem readsAs_array {written : List Bytes} {items : List Item}
    (hall : List.Forall₂ ReadsAs written items) : ReadsAs (array written) (.array items) := by
  intro depth rest y t h
  rw [item_eq, array, List.append_assoc, entry_head _ (by decide)] at h
  split at h
  · cases depth with
    | zero => simp [inner] at h
    | succ depth =>
        simp only [Nat.reduceEqDiff, if_false, if_true, inner, Option.bind_some, members,
          Nat.one_mul, Option.map_eq_some_iff, Prod.mk.injEq] at h
        obtain ⟨⟨ys, input⟩, htimes, hy, ht⟩ := h
        obtain ⟨hys, hinput⟩ := times_readsAs hall [] htimes
        simp only [List.reverse_nil, List.nil_append] at hys
        exact ⟨by rw [← hy, hys], by rw [← ht, hinput]⟩
  · cases h

theorem forall₂_map {α : Type} {R : Bytes → Item → Prop} {write : α → Bytes} {form : α → Item}
    {xs : List α} (h : ∀ x ∈ xs, R (write x) (form x)) :
    List.Forall₂ R (xs.map write) (xs.map form) := by
  rw [List.forall₂_map_left_iff, List.forall₂_map_right_iff]
  exact List.forall₂_same.mpr h

theorem readsAs_name (n : Name) : ReadsAs (name n) (.array (n.components.map Item.bytes)) :=
  readsAs_array (forall₂_map (fun c _ => readsAs_byteString c))

end Reconcile.Cbor

import Reconcile.Proofs.Node.Written

/-! # Nodes can be read back

CBOR has a form for every length below `2 ^ 64`. If nothing in a node is longer, and no reference is
empty, its encoding decodes to it. -/

namespace Reconcile

namespace Cbor

/-- A reader of some depth takes the item from the front of its input. -/
def ReadAt (depth : Nat) (bytes : Bytes) (x : Item) : Prop :=
  ∀ rest, item depth (bytes ++ rest) = some (x, rest)

theorem readAt_unsigned (depth : Nat) {n : Nat} (hn : n < UInt64.size) :
    ReadAt depth (unsigned n) (.int n) := by
  intro rest
  rw [item_eq, unsigned, entry_head _ (by decide), if_pos hn]
  rfl

theorem readAt_byteString (depth : Nat) {bytes : Bytes} (hbytes : bytes.length < UInt64.size) :
    ReadAt depth (byteString bytes) (.bytes bytes) := by
  intro rest
  rw [item_eq, byteString, List.append_assoc, entry_head _ (by decide), if_pos hbytes]
  simp [string, take_append]

theorem times_readAt {depth : Nat} {written : List Bytes} {items : List Item}
    (hall : List.Forall₂ (ReadAt depth) written items) (done : List Item) (rest : Bytes) :
    times (item depth) written.length done (written.flatten ++ rest) =
      some (done.reverse ++ items, rest) := by
  induction hall generalizing done with
  | nil => simp [times]
  | @cons bytes x written items hx _ ih =>
      simp only [List.length_cons, times, List.flatten_cons, List.append_assoc, hx _, ih]
      simp

theorem readAt_array {depth : Nat} {written : List Bytes} {items : List Item}
    (hlength : written.length < UInt64.size)
    (hall : List.Forall₂ (ReadAt depth) written items) :
    ReadAt (depth + 1) (array written) (.array items) := by
  intro rest
  have htimes := times_readAt hall [] rest
  rw [item_eq, array, List.append_assoc, entry_head _ (by decide), if_pos hlength]
  simp [inner, members, htimes]

end Cbor

/-! ## Sizes that can be written -/

/-- Nothing in the name is too long. -/
structure Name.Fits (a : Name) : Prop where
  length : a.components.length < UInt64.size
  components : ∀ c ∈ a.components, c.length < UInt64.size

/-- The digest is of some length, but not too long. -/
structure Digest.Fits (d : Digest) : Prop where
  inhabited : d.bytes ≠ []
  length : d.bytes.length < UInt64.size

instance (a : Name) : Decidable a.Fits :=
  decidable_of_iff (a.components.length < UInt64.size ∧ ∀ c ∈ a.components, c.length < UInt64.size)
    ⟨fun h => ⟨h.1, h.2⟩, fun h => ⟨h.1, h.2⟩⟩

instance (d : Digest) : Decidable d.Fits :=
  decidable_of_iff (d.bytes ≠ [] ∧ d.bytes.length < UInt64.size)
    ⟨fun h => ⟨h.1, h.2⟩, fun h => ⟨h.1, h.2⟩⟩

def Item.Fits : Item → Prop
  | .leaf a => a.Fits
  | .ref d => d.Fits

structure Node.Fits (n : Node) : Prop where
  length : n.items.length < UInt64.size
  items : ∀ i ∈ n.items, i.Fits
  least : n.least.Fits
  greatest : n.greatest.Fits

/-- Nothing in the item is too long. A digest may be empty. -/
def Item.Short : Item → Prop
  | .leaf a => a.Fits
  | .ref d => d.bytes.length < UInt64.size

/-- Every length in the node is one that a machine word can hold. References may be empty. -/
structure Node.Short (n : Node) : Prop where
  length : n.items.length < UInt64.size
  items : ∀ i ∈ n.items, i.Short
  least : n.least.Fits
  greatest : n.greatest.Fits

theorem Item.Fits.short {i : Item} (h : i.Fits) : i.Short := by
  cases i with
  | leaf a => exact h
  | ref d => exact Digest.Fits.length h

theorem Node.Fits.short {n : Node} (h : n.Fits) : n.Short :=
  ⟨h.length, fun i hi => (h.items i hi).short, h.least, h.greatest⟩

theorem Node.Short.fits {n : Node} (h : n.Short) (hrefs : ∀ d ∈ n.refs, d.bytes ≠ []) : n.Fits where
  length := h.length
  items i hi := by
    cases i with
    | leaf a => exact h.items _ hi
    | ref d => exact ⟨hrefs d (List.mem_filterMap.mpr ⟨.ref d, hi, rfl⟩), h.items _ hi⟩
  least := h.least
  greatest := h.greatest

open Cbor (ReadAt)

theorem Name.Fits.readAt {a : Name} (h : a.Fits) (depth : Nat) :
    ReadAt (depth + 1) (Cbor.name a) (.array (a.components.map .bytes)) :=
  Cbor.readAt_array (by simpa using h.length)
    (Cbor.forall₂_map (fun c hc => Cbor.readAt_byteString depth (h.components c hc)))

theorem Item.Short.readAt {i : Item} (h : i.Short) (depth : Nat) :
    ReadAt (depth + 2) i.encode (Node.itemForm i) := by
  cases i with
  | leaf a =>
      have ha : a.Fits := h
      exact Cbor.readAt_array (by simp +decide)
        (.cons (Cbor.readAt_unsigned _ (by decide)) (.cons (ha.readAt depth) .nil))
  | ref d =>
      exact Cbor.readAt_array (by simp +decide)
        (.cons (Cbor.readAt_unsigned _ (by decide)) (.cons (Cbor.readAt_byteString _ h) .nil))

namespace Node

theorem Short.readAt {n : Node} (h : n.Short) (depth : Nat) : ReadAt (depth + 4) n.encode n.form := by
  have hitems : ReadAt (depth + 3) (Cbor.array (n.items.map Item.encode))
      (.array (n.items.map itemForm)) :=
    Cbor.readAt_array (by simpa using h.length)
      (Cbor.forall₂_map (fun i hi => (h.items i hi).readAt depth))
  exact Cbor.readAt_array (by simp +decide)
    (.cons (Cbor.readAt_unsigned _ (by decide))
      (.cons (Cbor.readAt_unsigned _ n.count.toNat_lt_size)
        (.cons (h.least.readAt _) (.cons (h.greatest.readAt _) (.cons hitems .nil)))))

/-- The node is read from the front of its encoding, whatever follows. -/
theorem Short.read {n : Node} (h : n.Short) (rest : Bytes) :
    Cbor.read (n.encode ++ rest) = some (n.form, rest) :=
  h.readAt 252 rest

/-! ## What was written is accepted -/

theorem readEach_ok {α : Type} {read : Cbor.Item → Except NodeError α} {form : α → Cbor.Item}
    {xs : List α} (hform : ∀ x ∈ xs, read (form x) = .ok x) :
    readEach read (xs.map form) = .ok xs := by
  induction xs with
  | nil => rfl
  | cons x xs ih =>
      have hx := hform x List.mem_cons_self
      have hxs := ih (fun y hy => hform y (List.mem_cons_of_mem x hy))
      simp [readEach, hx, hxs]

theorem readName_ok (a : Name) : readName (.array (a.components.map .bytes)) = .ok a := by
  have hparts : readEach readComponent (a.components.map Cbor.Item.bytes) = .ok a.components :=
    readEach_ok (fun _ _ => rfl)
  simp [readName, hparts, Except.map]

theorem readItem_ok {i : Item} (h : i.Fits) : readItem (itemForm i) = .ok i := by
  cases i with
  | leaf a => simp [itemForm, readItem, readNumber_int, readName_ok, Except.map]
  | ref d =>
      have hd : d.Fits := h
      obtain ⟨bytes⟩ := d
      cases bytes with
      | nil => exact absurd rfl hd.inhabited
      | cons b bytes =>
          simp +decide [itemForm, readItem, readNumber_int, readDigest, Except.map]

theorem ofCbor_ok {n : Node} (h : n.Fits) : ofCbor n.form = .ok n := by
  have hitems : readItems (.array (n.items.map itemForm)) = .ok n.items :=
    readEach_ok (fun i hi => readItem_ok (h.items i hi))
  simp [form, ofCbor, readNumber_int, readName_ok, hitems, bind, Except.bind, pure, Except.pure]

theorem decode_encode {n : Node} (h : n.Fits) : decode n.encode = .ok n := by
  have hread := h.short.read []
  rw [List.append_nil] at hread
  simp [decode, hread, ofCbor_ok h]

theorem decodeAs_digest (H : Hashing) {n : Node} (h : n.Fits) :
    decodeAs H (n.digest H) n.encode = .ok n := by
  simp [decodeAs, digest, decode_encode h]

end Node

end Reconcile

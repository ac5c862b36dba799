import Reconcile.Node.Encoding
import Reconcile.Proofs.Cbor.Delimited

/-! # What bytes write which node

Bytes write a node if they decode to it or are its own encoding. Either way they write no other
node. -/

namespace Reconcile

/-! ## No two nodes are encoded alike -/

theorem Item.delimited_encode : Cbor.Delimited Item.encode := by
  intro x y s t h
  cases x with
  | leaf a =>
      cases y with
      | leaf b =>
          simp only [encode, Cbor.array, List.flatten_cons, List.flatten_nil, List.append_nil,
            List.append_assoc, List.length_cons, List.length_nil,
            List.append_cancel_left_eq] at h
          obtain ⟨rfl, hst⟩ := Cbor.delimited_name h
          exact ⟨rfl, hst⟩
      | ref e =>
          simp only [encode, Cbor.array, List.flatten_cons, List.flatten_nil, List.append_nil,
            List.append_assoc, List.length_cons, List.length_nil,
            List.append_cancel_left_eq] at h
          exact absurd (Cbor.delimited_unsigned h).1 (by decide)
  | ref d =>
      cases y with
      | leaf b =>
          simp only [encode, Cbor.array, List.flatten_cons, List.flatten_nil, List.append_nil,
            List.append_assoc, List.length_cons, List.length_nil,
            List.append_cancel_left_eq] at h
          exact absurd (Cbor.delimited_unsigned h).1 (by decide)
      | ref e =>
          simp only [encode, Cbor.array, List.flatten_cons, List.flatten_nil, List.append_nil,
            List.append_assoc, List.length_cons, List.length_nil,
            List.append_cancel_left_eq] at h
          obtain ⟨hbytes, hst⟩ := Cbor.delimited_byteString h
          cases d
          cases e
          exact ⟨congrArg (Item.ref ∘ Digest.mk) hbytes, hst⟩

namespace Node

theorem delimited_encode : Cbor.Delimited encode := by
  intro n m s t h
  simp only [encode, Cbor.array, List.flatten_cons, List.flatten_nil, List.append_nil,
    List.append_assoc, List.length_cons, List.length_nil, List.append_cancel_left_eq] at h
  obtain ⟨hcount, h⟩ := Cbor.delimited_unsigned h
  obtain ⟨hleast, h⟩ := Cbor.delimited_name h
  obtain ⟨hgreatest, h⟩ := Cbor.delimited_name h
  have harray : Cbor.array (n.items.map Item.encode) ++ s =
      Cbor.array (m.items.map Item.encode) ++ t := by
    simpa only [Cbor.array, List.append_assoc] using h
  obtain ⟨hitems, hst⟩ := Cbor.delimited_array Item.delimited_encode harray
  obtain ⟨items, least, greatest, count⟩ := n
  obtain ⟨items', least', greatest', count'⟩ := m
  obtain rfl : items = items' := hitems
  obtain rfl : least = least' := hleast
  obtain rfl : greatest = greatest' := hgreatest
  obtain rfl : count = count' := UInt64.toNat_inj.mp hcount
  exact ⟨rfl, hst⟩

/-! ## A node that can be read back is read back -/

def itemForm : Item → Cbor.Item
  | .leaf name => .array [.int Item.leafTag, .array (name.components.map .bytes)]
  | .ref d => .array [.int Item.refTag, .bytes d.bytes]

/-- The CBOR item that a node is written as. -/
def form (n : Node) : Cbor.Item :=
  .array
    [ .int formatVersion
    , .int n.count.toNat
    , .array (n.least.components.map .bytes)
    , .array (n.greatest.components.map .bytes)
    , .array (n.items.map itemForm) ]

theorem readsAs_item (i : Item) : Cbor.ReadsAs i.encode (itemForm i) := by
  cases i with
  | leaf a =>
      exact Cbor.readsAs_array
        (.cons (Cbor.readsAs_unsigned _) (.cons (Cbor.readsAs_name a) .nil))
  | ref d =>
      exact Cbor.readsAs_array
        (.cons (Cbor.readsAs_unsigned _) (.cons (Cbor.readsAs_byteString d.bytes) .nil))

theorem readsAs_encode (n : Node) : Cbor.ReadsAs n.encode n.form := by
  have hitems : Cbor.ReadsAs (Cbor.array (n.items.map Item.encode)) (.array (n.items.map itemForm)) :=
    Cbor.readsAs_array (Cbor.forall₂_map (fun i _ => readsAs_item i))
  exact Cbor.readsAs_array
    (.cons (Cbor.readsAs_unsigned _)
      (.cons (Cbor.readsAs_unsigned _)
        (.cons (Cbor.readsAs_name n.least)
          (.cons (Cbor.readsAs_name n.greatest) (.cons hitems .nil)))))

theorem readNumber_int (field : NumberField) (n : Nat) : readNumber field (.int n) = .ok n := by
  simp [readNumber]

/-- If the form of everything reads as nothing else, then a row of forms reads as nothing else. -/
theorem readEach_map {α : Type} {read : Cbor.Item → Except NodeError α} (form : α → Cbor.Item)
    (hform : ∀ x y, read (form x) = .ok y → y = x) {xs ys : List α}
    (h : readEach read (xs.map form) = .ok ys) : ys = xs := by
  induction xs generalizing ys with
  | nil =>
      simp only [List.map_nil, readEach, Except.ok.injEq] at h
      exact h.symm
  | cons x xs ih =>
      simp only [List.map_cons, readEach] at h
      cases hx : read (form x) with
      | error e => simp [hx] at h
      | ok y =>
          cases hxs : readEach read (xs.map form) with
          | error e => simp [hx, hxs] at h
          | ok tail =>
              simp only [hx, hxs, Except.ok.injEq] at h
              rw [← h, hform x y hx, ih hxs]

theorem readName_form (a : Name) {b : Name}
    (h : readName (.array (a.components.map .bytes)) = .ok b) : b = a := by
  simp only [readName] at h
  cases hparts : readEach readComponent (a.components.map Cbor.Item.bytes) with
  | error e => simp [hparts, Except.map] at h
  | ok parts =>
      have hsame : parts = a.components :=
        readEach_map Cbor.Item.bytes (fun x y hxy => (Except.ok.inj hxy).symm) hparts
      simp only [hparts, Except.map, Except.ok.injEq] at h
      rw [← h, hsame]

theorem readDigest_form (d : Digest) {e : Digest} (h : readDigest (.bytes d.bytes) = .ok e) :
    e = d := by
  obtain ⟨bytes⟩ := d
  cases bytes with
  | nil => simp [readDigest] at h
  | cons b bytes => exact (Except.ok.inj h).symm

theorem readItem_form (i j : Item) (h : readItem (itemForm i) = .ok j) : j = i := by
  cases i with
  | leaf a =>
      simp only [itemForm, readItem, readNumber_int, if_true] at h
      cases ha : readName (.array (a.components.map .bytes)) with
      | error e => simp [ha, Except.map] at h
      | ok b =>
          simp only [ha, Except.map, Except.ok.injEq] at h
          rw [← h, readName_form a ha]
  | ref d =>
      simp +decide only [itemForm, readItem, readNumber_int, if_true, if_false] at h
      cases hd : readDigest (.bytes d.bytes) with
      | error e => simp [hd, Except.map] at h
      | ok e =>
          simp only [hd, Except.map, Except.ok.injEq] at h
          rw [← h, readDigest_form d hd]

theorem ofCbor_form (n : Node) {m : Node} (h : ofCbor n.form = .ok m) : m = n := by
  simp only [form, ofCbor, readNumber_int] at h
  cases hleast : readName (.array (n.least.components.map .bytes)) with
  | error e => simp [hleast, bind, Except.bind] at h
  | ok least =>
      cases hgreatest : readName (.array (n.greatest.components.map .bytes)) with
      | error e => simp [hleast, hgreatest, bind, Except.bind] at h
      | ok greatest =>
          cases hitems : readItems (.array (n.items.map itemForm)) with
          | error e => simp [hleast, hgreatest, hitems, bind, Except.bind] at h
          | ok items =>
              have hi : items = n.items := readEach_map itemForm readItem_form hitems
              simp [hleast, hgreatest, hitems, bind, Except.bind, pure, Except.pure] at h
              rw [← h, hi, readName_form _ hleast, readName_form _ hgreatest]

theorem eq_of_decode_encode {n m : Node} (h : decode n.encode = .ok m) : m = n := by
  unfold decode at h
  cases hread : Cbor.read n.encode with
  | none => simp [hread] at h
  | some pair =>
      obtain ⟨x, rest⟩ := pair
      have happend : Cbor.item Cbor.maxDepth (n.encode ++ []) = some (x, rest) := by
        rw [List.append_nil]
        exact hread
      obtain ⟨rfl, rfl⟩ := readsAs_encode n happend
      rw [hread] at h
      exact ofCbor_form n h

end Node

/-! ## Bytes and digests of nodes -/

/-- The bytes decode to the node or are its encoding. -/
def Writes (bytes : Bytes) (n : Node) : Prop :=
  Node.decode bytes = .ok n ∨ n.encode = bytes

theorem Writes.unique {bytes : Bytes} {n m : Node} (hn : Writes bytes n) (hm : Writes bytes m) :
    n = m := by
  rcases hn with hn | rfl
  · rcases hm with hm | rfl
    · exact Except.ok.inj (hn.symm.trans hm)
    · exact Node.eq_of_decode_encode hn
  · rcases hm with hm | hm
    · exact (Node.eq_of_decode_encode hm).symm
    · exact Node.delimited_encode.injective hm.symm

/-- Some bytes that write the node have the digest. -/
def Denotes (H : Hashing) (d : Digest) (n : Node) : Prop :=
  ∃ bytes, H bytes = d ∧ Writes bytes n

theorem Denotes.of_decodeAs {H : Hashing} {d : Digest} {bytes : Bytes} {n : Node}
    (h : Node.decodeAs H d bytes = .ok n) : Denotes H d n := by
  unfold Node.decodeAs at h
  split at h
  · rename_i hd
    exact ⟨bytes, hd, .inl h⟩
  · cases h

theorem denotes_digest (H : Hashing) (n : Node) : Denotes H (n.digest H) n :=
  ⟨n.encode, rfl, .inr rfl⟩

/-- A collision-free digest denotes one node at most. -/
theorem Denotes.unique {H : Hashing} (inj : Function.Injective H) {d : Digest} {n m : Node}
    (hn : Denotes H d n) (hm : Denotes H d m) : n = m := by
  obtain ⟨bytes, hd, hn⟩ := hn
  obtain ⟨bytes', hd', hm⟩ := hm
  obtain rfl := inj (hd.trans hd'.symm)
  exact hn.unique hm

end Reconcile

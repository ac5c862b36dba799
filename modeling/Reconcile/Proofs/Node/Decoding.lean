import Reconcile.Proofs.Cbor.Confined
import Reconcile.Proofs.Node.Readable

/-! # Encodings of nodes are read back, and only whole

Reading undoes writing as long as no reference is empty, whatever the items, their order and the
stated range and count. More bytes behind an encoding are counted, and fewer are no item at all. -/

namespace Reconcile.Node

variable {n : Node}

/-! ## Which nodes are read back -/

theorem inhabited_of_readItem {d : Digest} {i : Item} (h : readItem (itemForm (.ref d)) = .ok i) :
    d.bytes ≠ [] := by
  intro hempty
  simp +decide [itemForm, readItem, readNumber_int, readDigest, hempty, Except.map] at h

theorem readEach_mem {α : Type} {read : Cbor.Item → Except NodeError α} {forms : List Cbor.Item}
    {xs : List α} (h : readEach read forms = .ok xs) {form : Cbor.Item} (hform : form ∈ forms) :
    ∃ x, read form = .ok x := by
  induction forms generalizing xs with
  | nil => cases hform
  | cons front forms ih =>
      simp only [readEach] at h
      cases hfront : read front with
      | error e => simp [hfront] at h
      | ok y =>
          cases hrest : readEach read forms with
          | error e => simp [hfront, hrest] at h
          | ok ys =>
              rcases List.mem_cons.mp hform with rfl | hmem
              · exact ⟨y, hfront⟩
              · exact ih hrest hmem

theorem Short.decode_eq (h : n.Short) : decode n.encode = ofCbor n.form := by
  have hread := h.read []
  rw [List.append_nil] at hread
  simp [decode, hread]

/-- A node is read back from its encoding exactly if none of its references is empty. -/
theorem Short.decode_encode_iff (h : n.Short) :
    decode n.encode = .ok n ↔ ∀ d ∈ n.refs, d.bytes ≠ [] := by
  refine ⟨fun hdecode d hd => ?_, fun hrefs => decode_encode (h.fits hrefs)⟩
  rw [h.decode_eq] at hdecode
  cases hitems : readItems (.array (n.items.map itemForm)) with
  | error e =>
      simp [form, ofCbor, readNumber_int, readName_ok, hitems, bind, Except.bind] at hdecode
  | ok items =>
      obtain ⟨i, hi, hleaf⟩ := List.mem_filterMap.mp hd
      obtain ⟨j, hj⟩ := readEach_mem hitems (List.mem_map_of_mem hi)
      cases i with
      | leaf a => cases hleaf
      | ref e =>
          obtain rfl := Option.some.inj hleaf
          exact inhabited_of_readItem hj

/-- A node without empty references is read back from its encoding, and under a digest exactly if it
is that of the encoding. Only the machine's bound on lengths is asked of the node otherwise: its items
may be in any order, its components empty, and its range and count those of no tree. -/
theorem encode_readBack (H : Hashing) (n : Node) (hshort : n.Short)
    (hrefs : ∀ d ∈ n.refs, d.bytes ≠ []) :
    decode n.encode = .ok n ∧
      ∀ d, decodeAs H d n.encode = .ok n ↔ d = H n.encode := by
  have hdecode : decode n.encode = .ok n := hshort.decode_encode_iff.mpr hrefs
  refine ⟨hdecode, fun d => ⟨fun h => ?_, fun h => ?_⟩⟩
  · unfold decodeAs at h
    split at h
    · rename_i hd
      exact hd.symm
    · cases h
  · rw [h, decodeAs, if_pos rfl, hdecode]

end Reconcile.Node

namespace Reconcile.Sample

/-- A node that no tree would hold: its names descend, one has an empty component, its range is
reversed and its count false. -/
def jumbled : Node :=
  { items := [.leaf ⟨[[98], []]⟩, .ref ⟨[7, 7]⟩, .leaf ⟨[[]]⟩, .leaf .root]
    least := ⟨[[120]]⟩
    greatest := .root
    count := 18446744073709551615 }

theorem jumbled_short : jumbled.Short where
  length := by decide
  items i hi := by
    have hfits : ∀ a ∈ jumbled.leaves, a.Fits := by decide
    cases i with
    | leaf a => exact hfits a (List.mem_filterMap.mpr ⟨_, hi, rfl⟩)
    | ref d =>
        have hlength : ∀ d ∈ jumbled.refs, d.bytes.length < UInt64.size := by decide
        exact hlength d (List.mem_filterMap.mpr ⟨_, hi, rfl⟩)
  least := by decide
  greatest := by decide

theorem jumbled_readBack :
    (∀ d ∈ jumbled.refs, d.bytes ≠ []) ∧
      Node.decode jumbled.encode = .ok jumbled ∧
      ∀ d, Node.decodeAs Digest.mk d jumbled.encode = .ok jumbled ↔
        d = ⟨jumbled.encode⟩ := by
  have hrefs : ∀ d ∈ jumbled.refs, d.bytes ≠ [] := by decide
  exact ⟨hrefs, Node.encode_readBack Digest.mk jumbled jumbled_short hrefs⟩

end Reconcile.Sample

namespace Reconcile.Node

/-! ## Where an encoding ends -/

/-- What follows an encoding is told apart from it: two encodings with something behind them are the
same only as a whole, whatever is behind one is counted, and one that is cut short is no CBOR item.
References may be empty. -/
theorem encode_selfDelimiting :
    (∀ (n m : Node) (s t : Bytes), n.encode ++ s = m.encode ++ t → n = m ∧ s = t) ∧
      (∀ (n : Node) (s : Bytes), n.Short → s ≠ [] →
        decode (n.encode ++ s) = .error (.trailing s.length)) ∧
      ∀ (n : Node) (front : Bytes), front <+: n.encode → front ≠ n.encode →
        decode front = .error .notCbor := by
  refine ⟨fun n m s t h => delimited_encode h, fun n s hshort hs => ?_, fun n front hfront hne => ?_⟩
  · obtain ⟨b, rest, rfl⟩ := List.exists_cons_of_ne_nil hs
    simp [decode, hshort.read]
  · have hread : Cbor.read front = none := (readsAs_encode n).item_take hfront hne Cbor.maxDepth
    simp [decode, hread]

end Reconcile.Node

namespace Reconcile.Sample

/-- One byte more and one byte less than an encoding with an empty reference. -/
theorem hollow_selfDelimiting :
    let hollow : Node := { jumbled with items := [.ref ⟨[]⟩, .leaf .root] }
    Node.decode (hollow.encode ++ [0]) = .error (.trailing 1) ∧
      Node.decode hollow.encode.dropLast = .error .notCbor := by
  intro hollow
  have hshort : hollow.Short :=
    ⟨by decide, by simp [hollow, Item.Short]; decide, by decide, by decide⟩
  exact ⟨Node.encode_selfDelimiting.2.1 hollow [0] hshort (by decide),
    Node.encode_selfDelimiting.2.2 hollow _ (List.dropLast_prefix _) (by decide)⟩

end Reconcile.Sample

import Reconcile.Proofs.History
import Reconcile.Proofs.Publish.Built

/-! # What a tree that is built consists of

All nodes of a tree that is built can be read back, state truly what is below them, and refer only to
one another. Whatever the shape, the tree lists the names it was built over, once and in order, and
depends on nothing else of them. -/

namespace Reconcile

variable {H : Hashing} {width : Nat} {d : Digest} {bytes : Bytes}

namespace Publication

/-- The bytes under a digest are a node of that digest. It refers to nodes that are there too, states
the range and the number of the names `l` below it, and is not too wide. -/
structure ReadsBack (H : Hashing) (width : Nat) (nodes : Catalog Digest Bytes) (d : Digest)
    (bytes : Bytes) (n : Node) (l : List Name) : Prop where
  decodes : Node.decodeAs H d bytes = .ok n
  resolves : ∀ e ∈ n.refs, (nodes.get? e).isSome
  tree : HonestTree H d l
  least : n.least = l.head?.getD .root
  greatest : n.greatest = l.getLast?.getD .root
  count : n.count.toNat = l.length
  narrow : n.refs ≠ [] → n.items.length ≤ width

theorem Stocked.readsBack {nodes : Catalog Digest Bytes} (inj : Function.Injective H)
    (h : Stocked H width nodes) (hdigests : ∀ e ∈ nodes.entries, e.1.Fits)
    (hget : nodes.get? d = some bytes) : ∃ n l, ReadsBack H width nodes d bytes n l := by
  obtain ⟨n, rfl, rfl, hsized, hexact, hrefs⟩ := h d bytes hget
  have hfits : ∀ e ∈ n.refs, e.Fits := by
    intro e he
    obtain ⟨b, hb⟩ := Option.isSome_iff_exists.mp (hrefs e he)
    exact hdigests _ (Catalog.mem_entries_of_get? hb)
  exact ⟨n, namesBelow H (n.digest H), Node.decodeAs_digest H (hsized.fits hfits), hrefs,
    hexact.honest.tree inj, hexact.least, hexact.greatest, hexact.count, hexact.narrow⟩

end Publication

namespace Shape

open Publication

/-- Names in another order or with other repetitions make the same tree. -/
theorem publish_congr (H : Hashing) (s : Shape) {names names' : List Name}
    (h : ∀ a, a ∈ names' ↔ a ∈ names) : s.publish H names' = s.publish H names := by
  have hsame : ascending names' = ascending names := by
    refine eq_of_mem_iff (pairwise_ascending names') (pairwise_ascending names) ?_
    intro a
    rw [mem_ascending, mem_ascending]
    exact h a
  unfold publish
  rw [hsame]

/-- Whatever the shape and the names, everything that is published can be read under its own digest,
the root is there, and the tree lists the names in order. Only which names there are counts. -/
theorem publish_reads (inj : Function.Injective H) (s : Shape) (names : List Name)
    (hlength : names.length < UInt64.size) (hnames : ∀ a ∈ names, a.Fits)
    (hdigests : ∀ e ∈ (s.publish H names).nodes.entries, e.1.Fits) :
    (∀ d bytes, (s.publish H names).nodes.get? d = some bytes →
        ∃ n l, ReadsBack H (max s.fanout 2) (s.publish H names).nodes d bytes n l) ∧
      ((s.publish H names).nodes.get? (s.publish H names).root).isSome ∧
      (∃ l, HonestTree H (s.publish H names).root l ∧ l.Pairwise (· < ·) ∧ ∀ a, a ∈ l ↔ a ∈ names) ∧
      ∀ names', (∀ a, a ∈ names' ↔ a ∈ names) →
        (s.publish H names').root = (s.publish H names).root := by
  have hsound := sound_publish inj s hlength hnames
  refine ⟨fun d bytes => hsound.stocked.readsBack inj hdigests, (hsound.held _ (.refl _)).isSome,
    ⟨_, hsound.tree, pairwise_ascending names, fun a => mem_ascending⟩, ?_⟩
  intro names' h
  rw [publish_congr H s h]

open Sample in
/-- Five names in disorder, one of them twice: a leaf node of two names and two single names, under
nodes of two items. -/
theorem publish_reads_mixed :
    let s : Shape := { fanout := 1, sizes := [0, 2, 1], inlined := true }
    let p := s.publish Digest.mk ([3, 1, 2, 1, 4].map name)
    (∀ d bytes, p.nodes.get? d = some bytes → ∃ n l, ReadsBack Digest.mk 2 p.nodes d bytes n l) ∧
      ∃ l, HonestTree Digest.mk p.root l ∧ l.Pairwise (· < ·) ∧
        ∀ a, a ∈ l ↔ a ∈ [3, 1, 2, 1, 4].map name := by
  intro s p
  obtain ⟨hreads, -, hlists, -⟩ := publish_reads injective_mk s ([3, 1, 2, 1, 4].map name)
    (by decide) (by decide) (by decide +kernel)
  exact ⟨hreads, hlists⟩

end Shape

end Reconcile

import Reconcile.Proofs.Tree

/-! # Trees of any kind, and trees in order

A tree whose nodes were never checked lists its names all the same. It is in order if they ascend and
each lies in the range of every node above it; the ends of a range need not be names. -/

namespace Reconcile

variable {H : Hashing} {P Q : Node → (Digest → List Name) → Prop} {d e : Digest} {l : List Name}
  {n : Node}

theorem Tree.mono (h : Tree H P d l) (hPQ : ∀ n below, P n below → Q n below) : Tree H Q d l := by
  induction h with
  | node denotes branches sound ih => exact .node denotes ih (hPQ _ _ sound)

/-! ## Any tree -/

/-- A tree stands under the digest, whatever its nodes are like. -/
def Whole (H : Hashing) (d : Digest) : Prop := ∃ l, Tree H (fun _ _ => True) d l

open Classical in
/-- The names below a digest, if a tree stands under it. -/
noncomputable def listing (H : Hashing) (d : Digest) : List Name :=
  if h : Whole H d then h.choose else []

theorem Tree.whole (h : Tree H P d l) : Whole H d := ⟨l, h.mono (fun _ _ _ => trivial)⟩

section Whole

variable (inj : Function.Injective H)

include inj

theorem Tree.listing_eq (h : Tree H P d l) : listing H d = l := by
  have hd : Whole H d := h.whole
  rw [listing, dif_pos hd]
  exact hd.choose_spec.unique inj (h.mono (fun _ _ _ => trivial))

theorem Whole.tree (h : Whole H d) : Tree H (fun _ _ => True) d (listing H d) := by
  obtain ⟨l, hl⟩ := h
  exact hl.listing_eq inj ▸ hl

theorem Whole.listing_node (h : Whole H d) (hn : Denotes H d n) :
    listing H d = n.row (listing H) := by
  obtain ⟨l, hl⟩ := h
  rw [hl.listing_eq inj]
  cases hl with
  | node denotes branches sound =>
      obtain rfl := hn.unique inj denotes
      exact Node.row_congr (fun e he => ((branches e he).listing_eq inj).symm)

end Whole

/-! ## Order -/

/-- The names below a node ascend, and the range it states holds them all. -/
structure Node.Ordered (n : Node) (below : Digest → List Name) : Prop where
  ascending : (n.row below).Pairwise (· < ·)
  spans : ∀ a ∈ n.row below, n.spans a = true

/-- A tree stands under the digest whose nodes are all in order. -/
def Ordered (H : Hashing) (d : Digest) : Prop := ∃ l, Tree H Node.Ordered d l

theorem Ordered.whole (h : Ordered H d) : Whole H d := by
  obtain ⟨l, hl⟩ := h
  exact hl.whole

section Ordered

variable (inj : Function.Injective H)

include inj

theorem Ordered.ascending (h : Ordered H d) : (listing H d).Pairwise (· < ·) := by
  obtain ⟨l, hl⟩ := h
  rw [hl.listing_eq inj]
  cases hl with
  | node denotes branches sound => exact sound.ascending

/-- A name that a node of an ordered tree lists itself lies in the range of the node. -/
theorem Ordered.spans (h : Ordered H d) (hn : Denotes H d n) {a : Name} (ha : .leaf a ∈ n.items) :
    n.spans a = true := by
  obtain ⟨l, hl⟩ := h
  cases hl with
  | node denotes branches sound =>
      obtain rfl := hn.unique inj denotes
      exact sound.spans a (List.mem_flatMap.mpr ⟨.leaf a, ha, List.mem_singleton_self a⟩)

/-- An honest tree is in order. -/
theorem ordered_of_honest (h : Honest H d) : Ordered H d := by
  obtain ⟨l, hl⟩ := h
  refine ⟨l, ?_⟩
  induction hl with
  | @node d n below denotes branches sound ih =>
      have htree : HonestTree H d (n.row below) := .node denotes branches sound
      refine .node denotes ih ⟨sound.ordered, ?_⟩
      intro a ha
      exact Honest.spans inj ⟨_, htree⟩ denotes (by rwa [htree.namesBelow_eq inj])

end Ordered

end Reconcile

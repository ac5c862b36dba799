import Reconcile.Proofs.Name.Order
import Reconcile.Proofs.Ascending
import Reconcile.Proofs.Node.Written

/-! # Trees and the names they list

A tree is given by the digest of its root. Its nodes need not be at hand: they are what the digests
denote. If digests do not collide, a digest has one row of names at most. -/

namespace Reconcile

/-- The names that an item stands for, given those below each reference. -/
def Item.row (below : Digest → List Name) : Item → List Name
  | .leaf name => [name]
  | .ref d => below d

namespace Node

/-- The names that a node stands for, given those below each reference. -/
def row (n : Node) (below : Digest → List Name) : List Name := n.items.flatMap (Item.row below)

theorem mem_refs {n : Node} {d : Digest} : d ∈ n.refs ↔ .ref d ∈ n.items := by
  simp only [refs, List.mem_filterMap]
  constructor
  · rintro ⟨i, hi, hd⟩
    cases i with
    | leaf name => cases hd
    | ref e =>
        obtain rfl := Option.some.inj hd
        exact hi
  · intro h
    exact ⟨.ref d, h, rfl⟩

theorem row_congr {n : Node} {below below' : Digest → List Name}
    (h : ∀ d ∈ n.refs, below d = below' d) : n.row below = n.row below' := by
  refine List.flatMap_congr ?_
  intro i hi
  cases i with
  | leaf name => rfl
  | ref d => exact h d (mem_refs.mpr hi)

/-- The node states the range of its names truly, lists them in order, and refers to no empty
subtree. -/
structure Honest (n : Node) (below : Digest → List Name) : Prop where
  inhabited : ∀ d ∈ n.refs, below d ≠ []
  ordered : (n.row below).Pairwise (· < ·)
  least : ∀ a ∈ (n.row below).head?, a = n.least
  greatest : ∀ a ∈ (n.row below).getLast?, a = n.greatest

theorem Honest.congr {n : Node} {below below' : Digest → List Name}
    (h : ∀ d ∈ n.refs, below d = below' d) (hn : n.Honest below) : n.Honest below' where
  inhabited d hd := h d hd ▸ hn.inhabited d hd
  ordered := row_congr h ▸ hn.ordered
  least := row_congr h ▸ hn.least
  greatest := row_congr h ▸ hn.greatest

end Node

/-- Every node of the tree under a digest meets a condition, and the tree lists a row of names. -/
inductive Tree (H : Hashing) (P : Node → (Digest → List Name) → Prop) : Digest → List Name → Prop
  | node {d : Digest} {n : Node} {below : Digest → List Name} (denotes : Denotes H d n)
      (branches : ∀ e ∈ n.refs, Tree H P e (below e)) (sound : P n below) :
      Tree H P d (n.row below)

/-- A tree all of whose nodes are honest. -/
abbrev HonestTree (H : Hashing) : Digest → List Name → Prop := Tree H Node.Honest

namespace Tree

variable {H : Hashing} {P : Node → (Digest → List Name) → Prop}

/-- The names of a tree are a matter of its digest. -/
theorem unique (inj : Function.Injective H) {d : Digest} {l l' : List Name} (h : Tree H P d l)
    (h' : Tree H P d l') : l = l' := by
  induction h generalizing l' with
  | @node d n below denotes branches sound ih =>
      cases h' with
      | @node _ m below' denotes' branches' sound' =>
          obtain rfl := denotes.unique inj denotes'
          exact Node.row_congr (fun e he => ih e he (branches' e he))

end Tree

/-- An honest tree stands under the digest. -/
def Honest (H : Hashing) (d : Digest) : Prop := ∃ l, HonestTree H d l

open Classical in
/-- The names below a digest, if an honest tree stands under it. -/
noncomputable def namesBelow (H : Hashing) (d : Digest) : List Name :=
  if h : Honest H d then h.choose else []

section Honest

variable {H : Hashing} (inj : Function.Injective H)

include inj

theorem HonestTree.namesBelow_eq {d : Digest} {l : List Name} (h : HonestTree H d l) :
    namesBelow H d = l := by
  have hd : Honest H d := ⟨l, h⟩
  rw [namesBelow, dif_pos hd]
  exact hd.choose_spec.unique inj h

theorem Honest.tree {d : Digest} (h : Honest H d) : HonestTree H d (namesBelow H d) := by
  obtain ⟨l, hl⟩ := h
  rw [hl.namesBelow_eq inj]
  exact hl

theorem Honest.branch {d e : Digest} {n : Node} (h : Honest H d) (hn : Denotes H d n)
    (he : e ∈ n.refs) : Honest H e := by
  obtain ⟨l, hl⟩ := h
  cases hl with
  | node denotes branches sound =>
      obtain rfl := hn.unique inj denotes
      exact ⟨_, branches e he⟩

theorem Honest.names {d : Digest} {n : Node} (h : Honest H d) (hn : Denotes H d n) :
    namesBelow H d = n.row (namesBelow H) := by
  obtain ⟨l, hl⟩ := h
  rw [hl.namesBelow_eq inj]
  cases hl with
  | node denotes branches sound =>
      obtain rfl := hn.unique inj denotes
      exact Node.row_congr (fun e he => (HonestTree.namesBelow_eq inj (branches e he)).symm)

theorem Honest.node {d : Digest} {n : Node} (h : Honest H d) (hn : Denotes H d n) :
    n.Honest (namesBelow H) := by
  obtain ⟨l, hl⟩ := h
  cases hl with
  | node denotes branches sound =>
      obtain rfl := hn.unique inj denotes
      exact sound.congr (fun e he => (HonestTree.namesBelow_eq inj (branches e he)).symm)

theorem Honest.ordered {d : Digest} (h : Honest H d) : (namesBelow H d).Pairwise (· < ·) := by
  obtain ⟨l, hl⟩ := h
  rw [hl.namesBelow_eq inj]
  cases hl with
  | node denotes branches sound => exact sound.ordered

theorem Honest.inhabited {d e : Digest} {n : Node} (h : Honest H d) (hn : Denotes H d n)
    (he : e ∈ n.refs) : namesBelow H e ≠ [] :=
  (h.node inj hn).inhabited e he

/-! ## The range of an honest node -/

theorem Honest.least_mem {d : Digest} {n : Node} (h : Honest H d) (hn : Denotes H d n)
    (hne : namesBelow H d ≠ []) : n.least ∈ namesBelow H d := by
  have hhonest := h.node inj hn
  rw [h.names inj hn] at hne ⊢
  cases hrow : n.row (namesBelow H) with
  | nil => exact absurd hrow hne
  | cons a rest =>
      have ha : a = n.least := hhonest.least a (by simp [hrow])
      simp [ha]

theorem Honest.greatest_mem {d : Digest} {n : Node} (h : Honest H d) (hn : Denotes H d n)
    (hne : namesBelow H d ≠ []) : n.greatest ∈ namesBelow H d := by
  have hhonest := h.node inj hn
  rw [h.names inj hn] at hne ⊢
  have hlast := List.getLast?_eq_some_getLast hne
  have hgreatest : (n.row (namesBelow H)).getLast hne = n.greatest := hhonest.greatest _ hlast
  exact hgreatest ▸ List.getLast_mem hne

theorem Honest.least_le {d : Digest} {n : Node} (h : Honest H d) (hn : Denotes H d n) :
    ∀ a ∈ namesBelow H d, n.least ≤ a := by
  have hhonest := h.node inj hn
  have hordered := h.ordered inj
  rw [h.names inj hn] at hordered ⊢
  intro a ha
  cases hrow : n.row (namesBelow H) with
  | nil => simp [hrow] at ha
  | cons b rest =>
      have hb : b = n.least := hhonest.least b (by simp [hrow])
      rw [hrow] at ha hordered
      rcases List.mem_cons.mp ha with rfl | ha
      · exact ge_of_eq hb
      · exact hb ▸ le_of_lt (List.rel_of_pairwise_cons hordered ha)

theorem Honest.le_greatest {d : Digest} {n : Node} (h : Honest H d) (hn : Denotes H d n) :
    ∀ a ∈ namesBelow H d, a ≤ n.greatest := by
  have hhonest := h.node inj hn
  have hordered := h.ordered inj
  rw [h.names inj hn] at hordered ⊢
  intro a ha
  rcases List.eq_nil_or_concat (n.row (namesBelow H)) with hrow | ⟨front, b, hrow⟩
  · simp [hrow] at ha
  · rw [List.concat_eq_append] at hrow
    have hb : b = n.greatest := hhonest.greatest b (by simp [hrow])
    rw [hrow] at ha hordered
    rcases List.mem_append.mp ha with ha | ha
    · exact hb ▸ le_of_lt ((List.pairwise_append.mp hordered).2.2 a ha b (by simp))
    · rw [List.mem_singleton.mp ha]
      exact le_of_eq hb

theorem Honest.spans {d : Digest} {n : Node} (h : Honest H d) (hn : Denotes H d n) {a : Name}
    (ha : a ∈ namesBelow H d) : n.spans a = true := by
  simp only [Node.spans, decide_eq_true_eq]
  exact ⟨h.least_le inj hn a ha, h.le_greatest inj hn a ha⟩

end Honest

/-! ## Flat nodes -/

theorem Node.row_ofNames (names : List Name) (below : Digest → List Name) :
    (Node.ofNames names).row below = ascending names := by
  simp [row, ofNames, List.flatMap_map, Item.row]

theorem Node.refs_ofNames (names : List Name) : (Node.ofNames names).refs = [] := by
  simp [refs, ofNames, List.filterMap_map, Item.ref?]

@[simp] theorem Node.leaves_ofNames (names : List Name) :
    (Node.ofNames names).leaves = ascending names := by
  simp only [leaves, ofNames, List.filterMap_map]
  exact List.filterMap_some

/-- The flat node of a collection of names is an honest tree. -/
theorem honestTree_ofNames (H : Hashing) (names : List Name) :
    HonestTree H ((Node.ofNames names).digest H) (ascending names) := by
  have hrow := Node.row_ofNames names (fun _ => [])
  rw [← hrow]
  refine .node (denotes_digest H _) (by simp [Node.refs_ofNames]) ?_
  refine ⟨by simp [Node.refs_ofNames], ?_, ?_, ?_⟩
  · rw [hrow]
    exact pairwise_ascending names
  · rw [hrow]
    intro a ha
    simp [Node.ofNames, Option.mem_def.mp ha]
  · rw [hrow]
    intro a ha
    simp [Node.ofNames, Option.mem_def.mp ha]

end Reconcile

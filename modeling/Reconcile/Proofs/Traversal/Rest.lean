import Reconcile.Traversal
import Reconcile.Proofs.Tree

/-! # What a traversal has yet to pass

The frames of a stack, innermost first, have a row of names before them: those of the items that were
not passed. Every step of a traversal takes some names off the front of this row. -/

namespace Reconcile

variable {H : Hashing}

namespace Frame

/-- The names from the position of a frame to the end of its node. -/
noncomputable def rest (H : Hashing) (f : Frame) : List Name :=
  match f.node with
  | none => namesBelow H f.digest
  | some n => (n.items.drop f.position).flatMap (Item.row (namesBelow H))

/-- The frame stands in an honest tree; one whose node is yet to come stands before it. -/
structure Sound (H : Hashing) (f : Frame) : Prop where
  honest : Honest H f.digest
  start : f.node = none → f.position = 0
  denotes : ∀ n, f.node = some n → Denotes H f.digest n

theorem sound_start {d : Digest} (h : Honest H d) : (start d).Sound H where
  honest := h
  start _ := rfl
  denotes _ hn := nomatch hn

@[simp] theorem rest_start (d : Digest) : (start d).rest H = namesBelow H d := rfl

@[simp] theorem rest_markIncomplete (f : Frame) : f.markIncomplete.rest H = f.rest H := rfl

theorem Sound.markIncomplete {f : Frame} (h : f.Sound H) : f.markIncomplete.Sound H :=
  ⟨h.honest, h.start, h.denotes⟩

theorem Sound.advance {f : Frame} (h : f.Sound H) (hnode : f.node ≠ none) : f.advance.Sound H :=
  ⟨h.honest, fun hn => absurd hn hnode, h.denotes⟩

theorem Sound.resolve {f : Frame} (h : f.Sound H) {n : Node} (hn : Denotes H f.digest n) :
    (f.resolve n).Sound H := by
  refine ⟨h.honest, ?_, ?_⟩
  · intro hnone
    cases hnone
  · intro m hm
    exact Option.some.inj hm ▸ hn

/-- All of a node is before a frame that was just given it. -/
theorem rest_resolve (inj : Function.Injective H) {f : Frame} (h : f.Sound H)
    (hnone : f.node = none) {n : Node} (hn : Denotes H f.digest n) :
    (f.resolve n).rest H = f.rest H := by
  simp only [rest, resolve, hnone, h.start hnone, List.drop_zero]
  exact (h.honest.names inj hn).symm

theorem hasNode_eq_false {f : Frame} (h : f.hasNode = false) : f.node = none := by
  simpa [hasNode] using h

theorem exists_item {f : Frame} (hnode : f.hasNode = true) (hthrough : f.isThrough = false) :
    ∃ n i, f.node = some n ∧ f.item? = some i := by
  obtain ⟨n, hn⟩ := Option.isSome_iff_exists.mp hnode
  simp only [isThrough, hn, Option.any_some, Node.size] at hthrough
  have hlt : f.position < n.items.length := Nat.lt_of_not_le (of_decide_eq_false hthrough)
  exact ⟨n, n.items[f.position], hn, by simp [item?, hn, hlt]⟩

theorem rest_of_isThrough {f : Frame} (h : f.isThrough = true) : f.rest H = [] := by
  unfold rest
  cases hn : f.node with
  | none => simp [isThrough, hn] at h
  | some n =>
      simp only [isThrough, hn, Option.any_some, Node.size] at h
      simp [List.drop_eq_nil_of_le (of_decide_eq_true h)]

section Item

variable {f : Frame} {n : Node} {i : Item} (hn : f.node = some n) (hi : f.item? = some i)

include hn hi

theorem getElem?_of_item : n.items[f.position]? = some i := by
  simpa [item?, hn] using hi

theorem mem_of_item : i ∈ n.items := List.mem_of_getElem? (getElem?_of_item hn hi)

/-- The items from a position on. -/
theorem drop_of_item : n.items.drop f.position = i :: n.items.drop (f.position + 1) := by
  obtain ⟨hlt, hget⟩ := List.getElem?_eq_some_iff.mp (getElem?_of_item hn hi)
  rw [List.drop_eq_getElem_cons hlt, hget]

/-- Passing an item takes its names off the front. -/
theorem rest_eq_of_item : f.rest H = i.row (namesBelow H) ++ f.advance.rest H := by
  simp only [rest, advance, hn]
  rw [drop_of_item hn hi, List.flatMap_cons]

theorem row_subset (inj : Function.Injective H) (h : f.Sound H) {a : Name}
    (ha : a ∈ i.row (namesBelow H)) : a ∈ namesBelow H f.digest := by
  rw [h.honest.names inj (h.denotes n hn)]
  exact List.mem_flatMap.mpr ⟨i, mem_of_item hn hi, ha⟩

end Item

theorem rest_subset (inj : Function.Injective H) {f : Frame} (h : f.Sound H) {a : Name}
    (ha : a ∈ f.rest H) : a ∈ namesBelow H f.digest := by
  unfold rest at ha
  cases hn : f.node with
  | none => simpa [hn] using ha
  | some n =>
      simp only [hn] at ha
      obtain ⟨i, hi, ha⟩ := List.mem_flatMap.mp ha
      rw [h.honest.names inj (h.denotes n hn)]
      exact List.mem_flatMap.mpr ⟨i, List.mem_of_mem_drop hi, ha⟩

/-- Before its first item a frame has all names of its node before it. -/
theorem rest_eq_of_position_eq_zero (inj : Function.Injective H) {f : Frame} (h : f.Sound H)
    (hposition : f.position = 0) : f.rest H = namesBelow H f.digest := by
  cases hn : f.node with
  | none => simp [rest, hn]
  | some n =>
      simp only [rest, hn, hposition, List.drop_zero]
      exact (h.honest.names inj (h.denotes n hn)).symm

end Frame

/-! ## Stacks -/

/-- The names that a stack of frames has before it. -/
noncomputable def rest (H : Hashing) (frames : List Frame) : List Name :=
  frames.flatMap (Frame.rest H)

@[simp] theorem rest_nil : rest H [] = [] := rfl

@[simp] theorem rest_cons (f : Frame) (frames : List Frame) :
    rest H (f :: frames) = f.rest H ++ rest H frames := rfl

theorem rest_markIncomplete (frames : List Frame) :
    rest H (frames.map Frame.markIncomplete) = rest H frames := by
  simp [rest, List.flatMap_map]

/-- Of every node of a stack that no branch of was put aside, each name is settled or still before the
stack. `inner` are the names before the frames further in. -/
def Settled (H : Hashing) (settled : Name → Prop) : List Name → List Frame → Prop
  | _, [] => True
  | inner, f :: frames =>
    (f.incomplete = false →
      ∀ a ∈ namesBelow H f.digest, settled a ∨ a ∈ inner ++ f.rest H) ∧
    Settled H settled (inner ++ f.rest H) frames

theorem Settled.mono {settled settled' : Name → Prop} {inner inner' : List Name}
    {frames : List Frame} (h : Settled H settled inner frames)
    (hsettled : ∀ a, settled a → settled' a) (hinner : ∀ a ∈ inner, settled' a ∨ a ∈ inner') :
    Settled H settled' inner' frames := by
  induction frames generalizing inner inner' with
  | nil => trivial
  | cons f frames ih =>
      obtain ⟨hf, hframes⟩ := h
      have hgrow : ∀ a ∈ inner ++ f.rest H, settled' a ∨ a ∈ inner' ++ f.rest H := by
        intro a ha
        rcases List.mem_append.mp ha with ha | ha
        · exact (hinner a ha).imp_right (List.mem_append_left _)
        · exact .inr (List.mem_append_right _ ha)
      refine ⟨?_, ih hframes hgrow⟩
      intro hcomplete a ha
      rcases hf hcomplete a ha with ha | ha
      · exact .inl (hsettled a ha)
      · exact hgrow a ha

theorem settled_markIncomplete (settled : Name → Prop) (inner : List Name) (frames : List Frame) :
    Settled H settled inner (frames.map Frame.markIncomplete) := by
  induction frames generalizing inner with
  | nil => trivial
  | cons f frames ih =>
      refine ⟨?_, ih _⟩
      intro hcomplete
      cases hcomplete

end Reconcile

import Reconcile.Proofs.Cache.Sifting
import Reconcile.Proofs.Traversal.Rest

/-! # A traversal compares two ascending rows

Each side of a traversal is a path whose names ascend. A move takes names off the front of either
row, and takes none off the row of the current tree that the next tree may still bring. So whatever is
found to be new is not in the current tree, and whatever is passed over is in it or is known. -/

namespace Reconcile

variable {H : Hashing}

/-! ## One side -/

/-- The frames of one side stand in honest trees, and the names before them ascend from the last one
passed. -/
structure Path (H : Hashing) (frames : List Frame) (last : Option Name) : Prop where
  sound : ∀ f ∈ frames, f.Sound H
  ordered : (rest H frames).Pairwise (· < ·)
  last_lt : ∀ a ∈ last, ∀ b ∈ rest H frames, a < b

/-- One side after it has passed the names `p`. -/
structure Passing (H : Hashing) (frames : List Frame) (last : Option Name) (p : List Name)
    (frames' : List Frame) (last' : Option Name) : Prop where
  rest_eq : rest H frames = p ++ rest H frames'
  sound : (∀ f ∈ frames, f.Sound H) → ∀ f ∈ frames', f.Sound H
  last_mem : ∀ a ∈ last', a ∈ last ∨ a ∈ p
  settled : ∀ S, Settled H S [] frames → (∀ a ∈ p, S a) → Settled H S [] frames'

theorem Passing.refl (frames : List Frame) (last : Option Name) :
    Passing H frames last [] frames last where
  rest_eq := rfl
  sound := id
  last_mem _ := .inl
  settled _ h _ := h

theorem Passing.mem {frames frames' : List Frame} {last last' : Option Name} {p : List Name}
    (h : Passing H frames last p frames' last') {a : Name} :
    a ∈ rest H frames ↔ a ∈ p ∨ a ∈ rest H frames' := by
  rw [h.rest_eq, List.mem_append]

theorem Path.passing {frames frames' : List Frame} {last last' : Option Name} {p : List Name}
    (h : Path H frames last) (hp : Passing H frames last p frames' last') :
    Path H frames' last' := by
  have hordered := hp.rest_eq ▸ h.ordered
  refine ⟨hp.sound h.sound, (List.pairwise_append.mp hordered).2.1, ?_⟩
  intro a ha b hb
  rcases hp.last_mem a ha with ha | ha
  · exact h.last_lt a ha b (hp.mem.mpr (.inr hb))
  · exact (List.pairwise_append.mp hordered).2.2 a ha b hb

/-- What was passed does not come again. -/
theorem Path.not_mem_of_passed {frames frames' : List Frame} {last last' : Option Name}
    {p : List Name} (h : Path H frames last) (hp : Passing H frames last p frames' last') {a : Name}
    (ha : a ∈ p) : a ∉ rest H frames' := by
  have hordered := hp.rest_eq ▸ h.ordered
  intro ha'
  exact lt_irrefl a ((List.pairwise_append.mp hordered).2.2 a ha a ha')

theorem Path.least {frames : List Frame} {last : Option Name} (h : Path H frames last) {a : Name}
    {l : List Name} (hrest : rest H frames = a :: l) : ∀ b ∈ rest H frames, a ≤ b := by
  have hordered := hrest ▸ h.ordered
  intro b hb
  rcases List.mem_cons.mp (hrest ▸ hb) with rfl | hb
  · exact le_refl b
  · exact le_of_lt (List.rel_of_pairwise_cons hordered hb)

/-- The innermost frame of a side is at an item of its node. -/
structure Frame.At (f : Frame) (n : Node) (i : Item) : Prop where
  node : f.node = some n
  item : f.item? = some i

section Innermost

variable {f : Frame} {n : Node} {i : Item} {frames : List Frame} {last : Option Name}

theorem Frame.At.mem (h : f.At n i) : i ∈ n.items := mem_of_item h.node h.item

theorem Frame.At.drop_eq (h : f.At n i) :
    n.items.drop f.position = i :: n.items.drop (f.position + 1) :=
  drop_of_item h.node h.item

theorem Frame.At.row_subset (inj : Function.Injective H) (h : f.At n i) (hf : f.Sound H) :
    ∀ a ∈ i.row (namesBelow H), a ∈ namesBelow H f.digest :=
  fun _ ha => Frame.row_subset h.node h.item inj hf ha

/-- The item of an honest node stands for some name. -/
theorem Frame.At.row_ne_nil (inj : Function.Injective H) (h : f.At n i) (hf : f.Sound H) :
    i.row (namesBelow H) ≠ [] := by
  cases i with
  | leaf name => exact List.cons_ne_nil name []
  | ref d => exact hf.honest.inhabited inj (hf.denotes n h.node) (Node.mem_refs.mpr h.mem)

theorem Frame.At.honest (inj : Function.Injective H) {d : Digest} (h : f.At n (.ref d))
    (hf : f.Sound H) : Honest H d :=
  hf.honest.branch inj (hf.denotes n h.node) (Node.mem_refs.mpr h.mem)

theorem rest_at (h : f.At n i) (frames : List Frame) :
    rest H (f :: frames) = i.row (namesBelow H) ++ rest H (f.advance :: frames) := by
  rw [rest_cons, rest_cons, Frame.rest_eq_of_item h.node h.item, List.append_assoc]

theorem leafAt_leaf {name : Name} (h : f.At n (.leaf name)) :
    Traversal.leafAt f = some name := by
  simp [Traversal.leafAt, h.item, Item.leaf?]

theorem leafAt_ref {d : Digest} (h : f.At n (.ref d)) : Traversal.leafAt f = none := by
  simp [Traversal.leafAt, h.item, Item.leaf?]

/-- Every name before a path comes after those before its innermost item, or is one of them. -/
theorem Path.first_le (h : Path H (f :: frames) last) (hi : f.At n i) {a : Name}
    (hrow : ∀ b ∈ i.row (namesBelow H), a ≤ b) (hne : i.row (namesBelow H) ≠ []) :
    ∀ b ∈ rest H (f :: frames), a ≤ b := by
  cases hr : i.row (namesBelow H) with
  | nil => exact absurd hr hne
  | cons c l =>
      have hrest : rest H (f :: frames) = c :: (l ++ rest H (f.advance :: frames)) := by
        rw [rest_at hi, hr, List.cons_append]
      intro b hb
      exact le_trans (hrow c (hr ▸ List.mem_cons_self)) (h.least hrest b hb)

theorem passing_advance (h : f.At n i) :
    Passing H (f :: frames) last (i.row (namesBelow H)) (f.advance :: frames)
      ((Traversal.leafAt f).or last) where
  rest_eq := rest_at h frames
  sound hs := by
    intro g hg
    rcases List.mem_cons.mp hg with rfl | hg
    · exact (hs f List.mem_cons_self).advance (by simp [h.node])
    · exact hs g (List.mem_cons_of_mem f hg)
  last_mem := by
    intro a ha
    cases i with
    | leaf name =>
        rw [leafAt_leaf h] at ha
        exact .inr (List.mem_singleton.mpr (Option.some.inj ha).symm)
    | ref d =>
        rw [leafAt_ref h] at ha
        exact .inl ha
  settled := by
    rintro S ⟨hf, hframes⟩ hp
    have hrest := Frame.rest_eq_of_item (H := H) h.node h.item
    have hshift : ∀ a ∈ [] ++ f.rest H, S a ∨ a ∈ [] ++ f.advance.rest H := by
      intro a ha
      rw [List.nil_append, hrest] at ha
      exact (List.mem_append.mp ha).imp_left (hp a)
    refine ⟨?_, hframes.mono (fun _ => id) hshift⟩
    intro hcomplete a ha
    rcases hf hcomplete a ha with ha | ha
    · exact .inl ha
    · exact hshift a ha

theorem passing_enter (inj : Function.Injective H) {d : Digest} (h : f.At n (.ref d)) :
    Passing H (f :: frames) last [] (.start d :: f.advance :: frames)
      ((Traversal.leafAt f).or last) where
  rest_eq := by
    rw [rest_at h]
    rfl
  sound hs := by
    intro g hg
    rcases List.mem_cons.mp hg with rfl | hg
    · exact Frame.sound_start (h.honest inj (hs f List.mem_cons_self))
    · rcases List.mem_cons.mp hg with rfl | hg
      · exact (hs f List.mem_cons_self).advance (by simp [h.node])
      · exact hs g (List.mem_cons_of_mem f hg)
  last_mem := by
    intro a ha
    rw [leafAt_ref h] at ha
    exact .inl ha
  settled := by
    rintro S ⟨hf, hframes⟩ -
    have hrest := Frame.rest_eq_of_item (H := H) h.node h.item
    refine ⟨fun _ a ha => .inr ha, ?_, ?_⟩
    · intro hcomplete a ha
      simpa [hrest, Item.row] using hf hcomplete a ha
    · refine hframes.mono (fun _ => id) ?_
      intro a ha
      rw [List.nil_append, hrest] at ha
      exact .inr ha

theorem passing_leave : Passing H (f :: frames) last (f.rest H) frames last where
  rest_eq := rfl
  sound hs g hg := hs g (List.mem_cons_of_mem f hg)
  last_mem _ := .inl
  settled := by
    rintro S ⟨-, hframes⟩ hp
    refine hframes.mono (fun _ => id) ?_
    intro a ha
    exact .inl (hp a ha)

theorem passing_resolve (inj : Function.Injective H) (hf : f.node = none)
    (hsound : f.Sound H) (hn : Denotes H f.digest n) :
    Passing H (f :: frames) last [] (f.resolve n :: frames) last where
  rest_eq := by
    rw [rest_cons, rest_cons, Frame.rest_resolve inj hsound hf hn]
    rfl
  sound hs := by
    intro g hg
    rcases List.mem_cons.mp hg with rfl | hg
    · exact hsound.resolve hn
    · exact hs g (List.mem_cons_of_mem f hg)
  last_mem _ := .inl
  settled := by
    rintro S ⟨hinner, hframes⟩ -
    simp only [Settled, Frame.rest_resolve inj hsound hf hn]
    exact ⟨hinner, hframes⟩

end Innermost

/-! ## Both sides -/

namespace Traversal

/-- A traversal over two honest trees. `X` are the names of the current one; those of them that the
next tree has yet to bring have not been passed in the current tree. -/
structure Walk (H : Hashing) (X : List Name) (w : Traversal) : Prop where
  next : Path H w.next w.lastNext
  current : Path H w.current w.lastCurrent
  held : ∀ a ∈ rest H w.current, a ∈ X
  synced : ∀ a ∈ rest H w.next, a ∈ X → a ∈ rest H w.current

/-- A traversal has passed the names `p` of the next tree and `q` of the current one. None of `q` is
still to come in the next tree. -/
structure Passes (H : Hashing) (w w' : Traversal) (p q : List Name) : Prop where
  next : Passing H w.next w.lastNext p w'.next w'.lastNext
  current : Passing H w.current w.lastCurrent q w'.current w'.lastCurrent
  aside : w'.aside = w.aside
  clear : ∀ a ∈ q, a ∉ rest H w'.next

theorem Walk.passes {X : List Name} {w w' : Traversal} {p q : List Name} (h : Walk H X w)
    (hp : Passes H w w' p q) : Walk H X w' where
  next := h.next.passing hp.next
  current := h.current.passing hp.current
  held a ha := h.held a (hp.current.mem.mpr (.inr ha))
  synced := by
    intro a ha hX
    have hcurrent := h.synced a (hp.next.mem.mpr (.inr ha)) hX
    rcases hp.current.mem.mp hcurrent with hq | hrest
    · exact absurd ha (hp.clear a hq)
    · exact hrest

/-- Whether a side has nothing left or is at an item. -/
def Ready (frames : List Frame) : Prop :=
  ∀ f ∈ frames.head?, f.hasNode = true ∧ f.isThrough = false

/-- The next tree is at an item, and the current one too unless nothing is left of it. -/
structure Meets (w : Traversal) : Prop where
  left : w.next ≠ []
  next : Ready w.next
  current : Ready w.current

end Traversal

end Reconcile

import Mathlib.Data.List.Chain
import Reconcile.Proofs.Traversal.Refusal

/-! # The positions of a side are one way down a tree

Nothing is assumed of the trees. A stack of frames begins anywhere, and each further frame stands at
the node that the one outside it has just passed the reference of. There are few ways in which a stack
may change at once; each of them keeps it one way down, and nothing else is ever done to it. -/

namespace Reconcile

variable {f inner outer : Frame} {fs fs' : List Frame} {n : Node} {i : Item} {d : Digest}

/-! ## One way down -/

/-- The item that a frame passed last refers to the node of another frame. -/
def Frame.LedInto (outer inner : Frame) : Prop :=
  ∃ n k, outer.node = some n ∧ outer.position = k + 1 ∧ n.items[k]? = some (.ref inner.digest)

theorem Frame.LedInto.hasNode (h : outer.LedInto inner) : outer.hasNode = true := by
  obtain ⟨n, k, hn, -, -⟩ := h
  simp [Frame.hasNode, hn]

theorem Frame.At.lt_size (hf : f.At n i) : f.position < n.size := by
  have hitem := hf.item
  simp only [item?, hf.node, Option.bind_some] at hitem
  exact (List.getElem?_eq_some_iff.mp hitem).1

/-- Passing a reference leads into its node. -/
theorem Frame.ledInto_advance (hf : f.At n (.ref d)) : f.advance.LedInto (.start d) := by
  have hitem := hf.item
  simp only [item?, hf.node, Option.bind_some] at hitem
  exact ⟨n, f.position, hf.node, rfl, hitem⟩

namespace Stack

/-- A stack of frames, innermost first, is one way down a tree. -/
structure Descends (frames : List Frame) : Prop where
  bounded : ∀ f ∈ frames, ∀ n, f.node = some n → f.position ≤ n.size
  /-- Only the innermost node may be yet to come. -/
  resolved : ∀ f ∈ frames.tail, f.hasNode = true
  start : ∀ f ∈ frames, f.node = none → f.position = 0
  linked : frames.IsChain (fun inner outer => outer.LedInto inner)

theorem descends_nil : Descends [] where
  bounded _ hf := nomatch hf
  resolved _ hf := nomatch hf
  start _ hf := nomatch hf
  linked := .nil

theorem descends_start (d : Digest) : Descends [.start d] where
  bounded f hf n hn := by
    obtain rfl := List.mem_singleton.mp hf
    cases hn
  resolved _ hf := nomatch hf
  start f hf _ := by
    obtain rfl := List.mem_singleton.mp hf
    rfl
  linked := .singleton _

namespace Descends

theorem leave (h : Descends (f :: fs)) : Descends fs where
  bounded g hg := h.bounded g (List.mem_cons_of_mem f hg)
  resolved g hg := h.resolved g (List.mem_of_mem_tail hg)
  start g hg := h.start g (List.mem_cons_of_mem f hg)
  linked := h.linked.tail

/-- The innermost frame is replaced by one that stands in the same node. -/
theorem replace {g : Frame} (h : Descends (f :: fs)) (hdigest : g.digest = f.digest)
    (hbounded : ∀ n, g.node = some n → g.position ≤ n.size)
    (hstart : g.node = none → g.position = 0) : Descends (g :: fs) where
  bounded := List.forall_mem_cons.mpr ⟨hbounded, h.leave.bounded⟩
  resolved := h.resolved
  start := List.forall_mem_cons.mpr ⟨hstart, h.leave.start⟩
  linked := by
    have hlinked := h.linked
    cases fs with
    | nil => exact .singleton g
    | cons outer fs =>
        obtain ⟨⟨n, k, hn, hk, hitem⟩, hrest⟩ := List.isChain_cons_cons.mp hlinked
        exact List.isChain_cons_cons.mpr ⟨⟨n, k, hn, hk, hdigest ▸ hitem⟩, hrest⟩

theorem advance (h : Descends (f :: fs)) (hf : f.At n i) : Descends (f.advance :: fs) := by
  refine h.replace rfl ?_ ?_
  · intro m hm
    obtain rfl : n = m := Option.some.inj (hf.node.symm.trans hm)
    exact hf.lt_size
  · intro hnone
    cases hf.node.symm.trans hnone

theorem enter (h : Descends (f :: fs)) (hf : f.At n (.ref d)) :
    Descends (.start d :: f.advance :: fs) where
  bounded := List.forall_mem_cons.mpr ⟨(fun _ hn => nomatch hn), (h.advance hf).bounded⟩
  resolved g hg := by
    rcases List.mem_cons.mp hg with rfl | hg
    · exact (Frame.ledInto_advance hf).hasNode
    · exact h.resolved g hg
  start := List.forall_mem_cons.mpr ⟨fun _ => rfl, (h.advance hf).start⟩
  linked := List.isChain_cons_cons.mpr ⟨Frame.ledInto_advance hf, (h.advance hf).linked⟩

theorem resolve (h : Descends (f :: fs)) (within : f.position ≤ n.size) :
    Descends (f.resolve n :: fs) := by
  refine h.replace rfl ?_ (fun hnone => nomatch hnone)
  intro m hm
  obtain rfl : n = m := Option.some.inj hm
  exact within

theorem markIncomplete (h : Descends fs) : Descends (fs.map Frame.markIncomplete) where
  bounded g hg := by
    obtain ⟨f, hf, rfl⟩ := List.mem_map.mp hg
    exact h.bounded f hf
  resolved g hg := by
    rw [← List.map_tail] at hg
    obtain ⟨f, hf, rfl⟩ := List.mem_map.mp hg
    exact h.resolved f hf
  start g hg := by
    obtain ⟨f, hf, rfl⟩ := List.mem_map.mp hg
    exact h.start f hf
  linked := (List.isChain_map Frame.markIncomplete).mpr h.linked

end Descends

/-! ## How a stack changes -/

/-- A change of a stack. An item is passed only where there is one, and a node is put in only where it
is yet to come and the position lies within it. -/
inductive Altered : List Frame → List Frame → Prop
  | stays (fs : List Frame) : Altered fs fs
  | shifted {fs : List Frame} {i : Item} {fs' : List Frame} (shift : Traversal.Shift fs i fs') :
      Altered fs fs'
  | resolved {f : Frame} {n : Node} (fs : List Frame) (unresolved : f.node = none)
      (within : f.position ≤ n.size) : Altered (f :: fs) (f.resolve n :: fs)
  | left (f : Frame) (fs : List Frame) : Altered (f :: fs) fs
  | putAside (f : Frame) (fs : List Frame) : Altered (f :: fs) (fs.map Frame.markIncomplete)
  | begun (fs : List Frame) (d : Digest) : Altered fs [.start d]
  | cleared (fs : List Frame) : Altered fs []

/-- Every change keeps a stack one way down. -/
theorem Altered.descends (ha : Altered fs fs') (h : Descends fs) : Descends fs' := by
  cases ha with
  | stays => exact h
  | shifted shift =>
      cases shift with
      | pass position => exact h.advance position
      | enter position => exact h.enter position
  | resolved fs unresolved within => exact h.resolve within
  | left f => exact h.leave
  | putAside f fs => exact h.leave.markIncomplete
  | begun fs d => exact descends_start d
  | cleared => exact descends_nil

/-- The outermost digest of a stack. -/
def outermost (fs : List Frame) : Option Digest := (fs.map Frame.digest).getLast?

theorem outermost_cons_cons (f g : Frame) (fs : List Frame) :
    outermost (f :: g :: fs) = outermost (g :: fs) := by
  simp [outermost, List.getLast?_cons_cons]

theorem outermost_leave (h : d ∈ outermost fs) : d ∈ outermost (f :: fs) := by
  cases fs with
  | nil => cases h
  | cons g fs => rwa [outermost_cons_cons]

theorem outermost_shift (hs : Traversal.Shift fs i fs') : outermost fs' = outermost fs := by
  cases hs with
  | @pass f fs n i position => cases fs <;> rfl
  | @enter f fs n d position =>
      rw [outermost_cons_cons]
      cases fs <;> rfl

end Stack

/-! ## Both sides -/

namespace Traversal

/-- Both sides of a traversal are one way down, the current one from the baseline. -/
structure SidesDescend (baseline : Option Digest) (w : Traversal) : Prop where
  next : Stack.Descends w.next
  current : Stack.Descends w.current
  baseline : ∀ d ∈ Stack.outermost w.current, d ∈ baseline

/-- Both sides of a traversal have changed in one of the ways. -/
structure Altered (w w' : Traversal) : Prop where
  next : Stack.Altered w.next w'.next
  current : Stack.Altered w.current w'.current

variable {baseline baseline' : Option Digest} {w w' : Traversal} {c : Cache} {m : Move} {j : Item} {H : Hashing}

theorem Altered.refl (w : Traversal) : Altered w w := ⟨.stays _, .stays _⟩

theorem altered_clear (w : Traversal) : Altered w {} := ⟨.cleared _, .cleared _⟩

theorem altered_begin (w : Traversal) (baseline : Option Digest) (d : Digest) :
    Altered w (begin baseline d) where
  next := .begun _ d
  current := by
    cases baseline with
    | none => exact .cleared _
    | some b => exact .begun _ b

theorem altered_restart (w : Traversal) (baseline : Option Digest) (d : Digest) :
    Altered w (w.restart baseline d) where
  next := (altered_begin w baseline d).next
  current := (altered_begin w baseline d).current

theorem SidesDescend.of_altered (h : w.SidesDescend baseline) (ha : Altered w w')
    (hb : ∀ d ∈ Stack.outermost w'.current, d ∈ baseline') : w'.SidesDescend baseline' :=
  ⟨ha.next.descends h.next, ha.current.descends h.current, hb⟩

theorem Planned.altered (h : Planned H c w m f fs n j) : Altered w (w.perform m) := by
  cases h.moved with
  | next next current => exact ⟨.shifted next, current ▸ .stays _⟩
  | current next current => exact ⟨next ▸ .stays _, .shifted current⟩
  | both next current => exact ⟨.shifted next, .shifted current⟩
  | left next current rest => exact ⟨next ▸ .stays _, current ▸ rest ▸ .left _ _⟩

theorem outermost_begin (baseline : Option Digest) (d : Digest) :
    Stack.outermost (begin baseline d).current = baseline := by
  cases baseline <;> rfl

/-- A move never touches the outermost digest of the current side, unless it leaves the last node. -/
theorem Planned.outermost_current (h : Planned H c w m f fs n j)
    (hd : d ∈ Stack.outermost (w.perform m).current) : d ∈ Stack.outermost w.current := by
  cases h.moved with
  | next next current => exact current ▸ hd
  | current next current => exact Stack.outermost_shift current ▸ hd
  | both next current => exact Stack.outermost_shift current ▸ hd
  | left next current rest =>
      rw [current]
      exact Stack.outermost_leave (rest ▸ hd)

end Traversal

end Reconcile

import Mathlib.Algebra.BigOperators.Group.List.Basic
import Mathlib.Algebra.GroupWithZero.Nat
import Reconcile.Proofs.Cache.Shown
import Reconcile.Proofs.Traversal.Choice
import Reconcile.Proofs.Traversal.Underway

/-! # What is left of a traversal

Given the size of the tree under each digest, a load counts the items and the nodes ahead. A branch
that is put aside makes the whole current tree be walked once more, so every reference of the next tree
is charged that price in advance. Every step of a traversal makes the load smaller, if the size of a
tree exceeds what its items cost. -/

namespace Reconcile

variable {price : Nat} {size : Digest → Nat} {d : Digest} {n : Node} {f : Frame} {fs fs' : List Frame}
  {i j : Item}

/-! ## Sizes -/

/-- The cost of an item, given the size of each subtree. -/
def Item.cost (price : Nat) (size : Digest → Nat) : Item → Nat
  | .leaf _ => 1
  | .ref d => size d + price + 1

def Node.cost (price : Nat) (size : Digest → Nat) (n : Node) : Nat :=
  (n.items.map (Item.cost price size)).sum

theorem Node.cost_congr {size size' : Digest → Nat} (h : ∀ e ∈ n.refs, size e = size' e) :
    n.cost price size = n.cost price size' := by
  refine congrArg List.sum (List.map_congr_left ?_)
  intro i hi
  cases i with
  | leaf a => rfl
  | ref e => simp only [Item.cost, h e (Node.mem_refs.mpr hi)]

/-- No tree is without size, and a tree whose node is shown is larger than its items. -/
structure Sizes (shown : Digest → Option Node) (price : Nat) (size : Digest → Nat) : Prop where
  positive : ∀ d, 0 < size d
  node : ∀ d n, shown d = some n → n.cost price size + 2 ≤ size d

/-- The size of the tree under a digest, so many nodes deep. -/
def sizeWithin (shown : Digest → Option Node) (price : Nat) : Nat → Digest → Nat
  | 0, _ => 1
  | depth + 1, d =>
    match shown d with
    | none => 1
    | some n => n.cost price (sizeWithin shown price depth) + 2

theorem sizeWithin_of_rank_lt {shown : Digest → Option Node} {rank : Digest → Nat}
    (hrank : Cache.Ranked shown rank) {depth depth' : Nat} (hd : rank d < depth)
    (hd' : rank d < depth') :
    sizeWithin shown price depth d = sizeWithin shown price depth' d := by
  induction depth generalizing depth' d with
  | zero => cases hd
  | succ depth ih =>
      cases depth' with
      | zero => cases hd'
      | succ depth' =>
          simp only [sizeWithin]
          split
          · rfl
          · rename_i n hn
            refine congrArg (· + 2) (Node.cost_congr ?_)
            intro e he
            have hlt := hrank d n hn e he
            exact ih (Nat.lt_of_lt_of_le hlt (Nat.le_of_lt_succ hd))
              (Nat.lt_of_lt_of_le hlt (Nat.le_of_lt_succ hd'))

/-- Where the nodes have ranks, the trees have sizes. -/
theorem exists_sizes {shown : Digest → Option Node} {rank : Digest → Nat}
    (hrank : Cache.Ranked shown rank) (price : Nat) : ∃ size, Sizes shown price size := by
  refine ⟨fun d => sizeWithin shown price (rank d + 1) d, ?_, ?_⟩
  · intro d
    simp only [sizeWithin]
    split <;> omega
  · intro d n hn
    simp only [sizeWithin, hn]
    refine le_of_eq (congrArg (· + 2) (Node.cost_congr ?_))
    intro e he
    exact sizeWithin_of_rank_lt hrank (Nat.lt_succ_self _) (hrank d n hn e he)

/-! ## The load of a stack -/

namespace Frame

def load (price : Nat) (size : Digest → Nat) (f : Frame) : Nat :=
  match f.node with
  | none => size f.digest
  | some n => ((n.items.drop f.position).map (Item.cost price size)).sum + 1

@[simp] theorem load_markIncomplete : f.markIncomplete.load price size = f.load price size := rfl

theorem load_at (hf : f.At n i) :
    f.load price size = i.cost price size + f.advance.load price size := by
  simp only [load, advance, hf.node]
  rw [hf.drop_eq, List.map_cons, List.sum_cons]
  omega

theorem load_resolve (hnone : f.node = none) (hn : n.cost price size + 2 ≤ size f.digest) :
    (f.resolve n).load price size < f.load price size := by
  have hsplit := congrArg (fun items => (items.map (Item.cost price size)).sum)
    (List.take_append_drop f.position n.items)
  simp only [List.map_append, List.sum_append] at hsplit
  simp only [load, resolve, hnone]
  unfold Node.cost at hn
  omega

theorem load_pos (price : Nat) (hf : 0 < size f.digest) : 0 < f.load price size := by
  unfold load
  split
  · exact hf
  · exact Nat.succ_pos _

end Frame

namespace Stack

/-- What is left of a stack. The price is still to be paid for every frame whose node is yet to come,
but the outermost: that one cannot be put aside. -/
def load (price : Nat) (size : Digest → Nat) : List Frame → Nat
  | [] => 0
  | f :: fs =>
    f.load price size + (if f.node.isNone && !fs.isEmpty then price else 0) + load price size fs

theorem load_resolved (hn : f.node = some n) :
    load price size (f :: fs) = f.load price size + load price size fs := by
  simp [load, hn]

theorem load_markIncomplete :
    load price size (fs.map Frame.markIncomplete) = load price size fs := by
  induction fs with
  | nil => rfl
  | cons f fs ih =>
      simp only [List.map_cons, load, Frame.load_markIncomplete, ih, List.isEmpty_map]
      rfl

theorem load_advance (hf : f.At n i) :
    load price size (f :: fs) = i.cost price size + load price size (f.advance :: fs) := by
  have hadvance : f.advance.node = some n := hf.node
  rw [load_resolved hf.node, load_resolved hadvance, Frame.load_at hf]
  omega

theorem load_advance_lt (hf : f.At n i) :
    load price size (f.advance :: fs) < load price size (f :: fs) := by
  rw [load_advance hf]
  cases i <;> simp only [Item.cost] <;> omega

theorem load_enter_lt (hf : f.At n (.ref d)) :
    load price size (.start d :: f.advance :: fs) < load price size (f :: fs) := by
  have hstart : load price size (.start d :: f.advance :: fs) =
      size d + price + load price size (f.advance :: fs) := rfl
  rw [hstart, load_advance hf, Item.cost]
  omega

theorem load_shift_lt (hs : Traversal.Shift fs i fs') :
    load price size fs' < load price size fs := by
  cases hs with
  | pass position => exact load_advance_lt position
  | enter position => exact load_enter_lt position

theorem load_resolve_lt (hnone : f.node = none) (hn : n.cost price size + 2 ≤ size f.digest) :
    load price size (f.resolve n :: fs) < load price size (f :: fs) := by
  have hload := Frame.load_resolve hnone hn
  have hresolve : (f.resolve n).node = some n := rfl
  rw [load_resolved hresolve, load]
  omega

theorem load_leave_lt (hf : 0 < size f.digest) :
    load price size fs < load price size (f :: fs) := by
  have hpos := Frame.load_pos price hf
  rw [load]
  omega

end Stack

/-! ## The load of a traversal -/

/-- The sizes of the trees on both sides, and what it costs to walk the whole current tree. -/
structure Scale where
  current : Digest → Nat
  next : Digest → Nat
  again : Nat

/-- The price of a branch that is put aside. -/
def Scale.toll (s : Scale) : Nat := s.again + 2

/-- The scale fits the nodes that are shown and the baseline that the current side starts from. -/
structure Scale.Fits (s : Scale) (shown : Digest → Option Node) (baseline : Option Digest) : Prop where
  current : Sizes shown 0 s.current
  next : Sizes shown s.toll s.next
  again : (baseline.map s.current).getD 0 ≤ s.again

theorem Scale.exists_fits {shown : Digest → Option Node} {rank : Digest → Nat}
    (hrank : Cache.Ranked shown rank) (baseline : Option Digest) :
    ∃ s : Scale, s.Fits shown baseline := by
  obtain ⟨current, hcurrent⟩ := exists_sizes hrank 0
  obtain ⟨next, hnext⟩ := exists_sizes hrank ((baseline.map current).getD 0 + 2)
  exact ⟨⟨current, next, (baseline.map current).getD 0⟩, hcurrent, hnext, le_refl _⟩

namespace Traversal

variable {H : Hashing} {c : Cache} {m : Move} {w w' : Traversal} {s : Scale} {baseline : Option Digest}

/-- What is left of a traversal. -/
def load (w : Traversal) (s : Scale) : Nat :=
  Stack.load 0 s.current w.current + Stack.load s.toll s.next w.next +
    (w.aside.map (fun d => s.next d + s.again + 1)).sum

theorem load_lt_of_next (hcurrent : w'.current = w.current) (haside : w'.aside = w.aside)
    (hnext : Stack.load s.toll s.next w'.next < Stack.load s.toll s.next w.next) :
    w'.load s < w.load s := by
  rw [load, load, hcurrent, haside]
  omega

theorem load_lt_of_current (hnext : w'.next = w.next) (haside : w'.aside = w.aside)
    (hcurrent : Stack.load 0 s.current w'.current < Stack.load 0 s.current w.current) :
    w'.load s < w.load s := by
  rw [load, load, hnext, haside]
  omega

theorem load_lt_of_both (haside : w'.aside = w.aside)
    (hcurrent : Stack.load 0 s.current w'.current < Stack.load 0 s.current w.current)
    (hnext : Stack.load s.toll s.next w'.next < Stack.load s.toll s.next w.next) :
    w'.load s < w.load s := by
  rw [load, load, haside]
  omega

/-- A move. -/
theorem load_perform_lt (hleft : ∀ g ∈ w.current, 0 < s.current g.digest)
    (hp : Planned H c w m f fs n j) : (w.perform m).load s < w.load s := by
  have haside := aside_perform w m
  cases hp.moved with
  | next next current => exact load_lt_of_next current haside (Stack.load_shift_lt next)
  | current next current => exact load_lt_of_current next haside (Stack.load_shift_lt current)
  | both next current =>
      exact load_lt_of_both haside (Stack.load_shift_lt current) (Stack.load_shift_lt next)
  | left next current rest =>
      refine load_lt_of_current next haside ?_
      rw [rest, current]
      exact Stack.load_leave_lt (hleft _ (current ▸ List.mem_cons_self))

/-- A branch that is put aside has paid for its restart. -/
theorem load_putAside_lt (s : Scale) (hnext : w.next = f :: fs) (habove : fs ≠ [])
    (hnone : f.node = none) : (w.putAside f.digest).load s < w.load s := by
  have hload : Stack.load s.toll s.next w.next =
      s.next f.digest + s.toll + Stack.load s.toll s.next fs := by
    rw [hnext]
    simp [Stack.load, Frame.load, hnone, habove]
  have hrest : Stack.load s.toll s.next (w.putAside f.digest).next =
      Stack.load s.toll s.next fs := by
    rw [next_putAside hnext]
    exact Stack.load_markIncomplete
  have haside : ((w.putAside f.digest).aside.map (fun d => s.next d + s.again + 1)).sum ≤
      (w.aside.map (fun d => s.next d + s.again + 1)).sum + (s.next f.digest + s.again + 1) := by
    simp only [putAside]
    split
    · omega
    · simp
  have hcurrent : (w.putAside f.digest).current = w.current := rfl
  rw [load, load, hrest, hload, hcurrent]
  unfold Scale.toll at *
  omega

/-- The restart of a branch costs no more than was paid for it. -/
theorem load_restart_lt (hagain : (baseline.map s.current).getD 0 ≤ s.again) (hnext : w.next = [])
    (hd : d ∈ w.aside) : (w.restart baseline d).load s < w.load s := by
  have haside : (w.aside.map (fun d => s.next d + s.again + 1)).sum =
      (s.next d + s.again + 1) +
        ((w.aside.erase d).map (fun d => s.next d + s.again + 1)).sum :=
    ((List.perm_cons_erase hd).map _).sum_eq
  have hcurrent : Stack.load 0 s.current (w.restart baseline d).current =
      (baseline.map s.current).getD 0 := by
    cases baseline <;> simp [restart, begin, Stack.load, Frame.load, Frame.start]
  have hnext' : Stack.load s.toll s.next (w.restart baseline d).next = s.next d := by
    simp [restart, begin, Stack.load, Frame.load, Frame.start]
  have hrest : (w.restart baseline d).aside = w.aside.erase d := rfl
  rw [load, load, hcurrent, hnext', hrest, haside, hnext]
  omega

end Traversal

end Reconcile

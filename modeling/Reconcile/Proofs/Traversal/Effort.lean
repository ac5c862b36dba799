import Reconcile.Proofs.Traversal.Load
import Reconcile.Proofs.Traversal.Outlook

/-! # A traversal comes to an end

Every move of a traversal over two trees makes its effort smaller. The effort counts the items and the
nodes ahead. A branch that is put aside makes the whole current tree be walked once more, so every
reference of the next tree is charged that price in advance. -/

namespace Reconcile

variable {H : Hashing} {lost : Digest → Prop} {P : Node → (Digest → List Name) → Prop} {price : Nat}
  {d x y : Digest} {n : Node} {f : Frame} {fs : List Frame} {i j : Item}

/-! ## The bulk of a tree -/

/-- What it costs to walk the tree under a digest. -/
inductive Weighs (H : Hashing) (price : Nat) : Digest → Nat → Prop
  | node {d : Digest} {n : Node} {size : Digest → Nat} (denotes : Denotes H d n)
      (branches : ∀ e ∈ n.refs, Weighs H price e (size e)) :
      Weighs H price d (n.cost price size + 2)

theorem Weighs.unique (inj : Function.Injective H) {k k' : Nat} (h : Weighs H price d k)
    (h' : Weighs H price d k') : k = k' := by
  induction h generalizing k' with
  | node denotes branches ih =>
      cases h' with
      | node denotes' branches' =>
          obtain rfl := denotes.unique inj denotes'
          rw [Node.cost_congr (fun e he => ih e he (branches' e he))]

open Classical in
/-- The cost of the tree under a digest, if there is one. -/
noncomputable def bulk (H : Hashing) (price : Nat) (d : Digest) : Nat :=
  if h : ∃ k, Weighs H price d k then h.choose else 0

theorem Weighs.bulk_eq (inj : Function.Injective H) {k : Nat} (h : Weighs H price d k) :
    bulk H price d = k := by
  have hd : ∃ k, Weighs H price d k := ⟨k, h⟩
  rw [bulk, dif_pos hd]
  exact hd.choose_spec.unique inj h

theorem Tree.weighs (inj : Function.Injective H) {l : List Name} (h : Tree H P d l) :
    Weighs H price d (bulk H price d) := by
  induction h with
  | node denotes branches sound ih =>
      have hnode := Weighs.node denotes ih
      rw [hnode.bulk_eq inj]
      exact hnode

theorem Tree.denotes {l : List Name} (h : Tree H P d l) : ∃ n, Denotes H d n := by
  cases h with
  | node denotes branches sound => exact ⟨_, denotes⟩

/-- The bulk of a tree is that of its items. -/
theorem Tree.bulk_eq (inj : Function.Injective H) {l : List Name} (h : Tree H P d l)
    (hn : Denotes H d n) : bulk H price d = n.cost price (bulk H price) + 2 := by
  cases h with
  | node denotes branches sound =>
      obtain rfl := hn.unique inj denotes
      exact Weighs.bulk_eq inj (.node hn (fun e he => (branches e he).weighs inj))

/-! ## The cost of a stack -/

namespace Frame

noncomputable def cost (H : Hashing) (price : Nat) (f : Frame) : Nat :=
  match f.node with
  | none => bulk H price f.digest
  | some n => ((n.items.drop f.position).map (Item.cost price (bulk H price))).sum + 1

theorem cost_eq_load : f.cost H price = f.load price (bulk H price) := rfl

end Frame

/-- What it costs to go through a stack. The price is still to be paid for every frame whose node is
yet to come, but the outermost: that one cannot be put aside. -/
noncomputable def stackCost (H : Hashing) (price : Nat) : List Frame → Nat
  | [] => 0
  | f :: fs =>
    f.cost H price + (if f.node.isNone && !fs.isEmpty then price else 0) + stackCost H price fs

theorem stackCost_eq_load : stackCost H price fs = Stack.load price (bulk H price) fs := by
  induction fs with
  | nil => rfl
  | cons f fs ih => rw [stackCost, Stack.load, ih, Frame.cost_eq_load]

theorem Tree.bulk_pos (price : Nat) (inj : Function.Injective H) {l : List Name}
    (h : Tree H P d l) : 0 < bulk H price d := by
  obtain ⟨n, hn⟩ := h.denotes
  rw [h.bulk_eq inj hn]
  omega

theorem stackCost_resolve (inj : Function.Injective H) {l : List Name}
    (htree : Tree H P f.digest l) (hnone : f.node = none) (hn : Denotes H f.digest n) :
    stackCost H price (f.resolve n :: fs) < stackCost H price (f :: fs) := by
  rw [stackCost_eq_load, stackCost_eq_load]
  exact Stack.load_resolve_lt hnone (ge_of_eq (htree.bulk_eq inj hn))

theorem stackCost_leave (inj : Function.Injective H) {l : List Name}
    (htree : Tree H P f.digest l) : stackCost H price fs < stackCost H price (f :: fs) := by
  rw [stackCost_eq_load, stackCost_eq_load]
  exact Stack.load_leave_lt (htree.bulk_pos price inj)

/-! ## The effort of a traversal -/

namespace Traversal

variable {c : Cache} {m : Move} {S : Name → Prop} {w : Traversal}

/-- The price of a branch that is put aside: the current tree is walked once more. -/
noncomputable def restartPrice (H : Hashing) (x : Digest) : Nat := bulk H 0 x + 2

/-- What it costs to go on with a traversal beside the tree `x`. -/
noncomputable def effort (H : Hashing) (x : Digest) (w : Traversal) : Nat :=
  stackCost H 0 w.current + stackCost H (restartPrice H x) w.next +
    (w.aside.map (fun d => bulk H (restartPrice H x) d + bulk H 0 x + 1)).sum

/-- The scale of two trees. -/
noncomputable def treeScale (H : Hashing) (x : Digest) : Scale :=
  ⟨bulk H 0, bulk H (restartPrice H x), bulk H 0 x⟩

theorem effort_eq_load : effort H x w = w.load (treeScale H x) := by
  simp only [effort, stackCost_eq_load]
  rfl

theorem effort_lt_of_next {w' : Traversal} (hcurrent : w'.current = w.current)
    (haside : w'.aside = w.aside)
    (hnext : stackCost H (restartPrice H x) w'.next < stackCost H (restartPrice H x) w.next) :
    effort H x w' < effort H x w := by
  rw [effort, effort, hcurrent, haside]
  omega

theorem effort_lt_of_current {w' : Traversal} (hnext : w'.next = w.next)
    (haside : w'.aside = w.aside)
    (hcurrent : stackCost H 0 w'.current < stackCost H 0 w.current) :
    effort H x w' < effort H x w := by
  rw [effort, effort, hnext, haside]
  omega

theorem Shift.stackCost_lt {fs' : List Frame} (hs : Shift fs i fs') :
    stackCost H price fs' < stackCost H price fs := by
  rw [stackCost_eq_load, stackCost_eq_load]
  exact Stack.load_shift_lt hs

/-- A move. -/
theorem effort_perform (inj : Function.Injective H) {lx : List Name} (hx : Tree H P x lx)
    (h : Covers H lost x y S w) (hp : Planned H c w m f fs n j) :
    effort H x (w.perform m) < effort H x w := by
  rw [effort_eq_load, effort_eq_load]
  refine load_perform_lt ?_ hp
  intro g hg
  obtain ⟨l, hl⟩ := hx.of_leads inj (h.current g hg).leads
  exact hl.bulk_pos 0 inj

/-- A branch that is put aside has paid for its restart. -/
theorem effort_putAside (hnext : w.next = f :: fs) (habove : fs ≠ []) (hnone : f.node = none) :
    effort H x (w.putAside f.digest) < effort H x w := by
  rw [effort_eq_load, effort_eq_load]
  exact load_putAside_lt _ hnext habove hnone

/-- The restart of a branch costs no more than was paid for it. -/
theorem effort_restart (hnext : w.next = []) (hd : d ∈ w.aside) :
    effort H x (w.restart (some x) d) < effort H x w := by
  rw [effort_eq_load, effort_eq_load]
  have hagain : ((some x).map (treeScale H x).current).getD 0 ≤ (treeScale H x).again := le_refl _
  exact load_restart_lt hagain hnext hd

end Traversal

end Reconcile

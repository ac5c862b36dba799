import Reconcile.Proofs.Traversal.Refusal

/-! # What a traversal vets

A name of the next tree is checked where it is passed. So the names that a node lists itself ascend and
lie in its range once a traversal is through with it; and once nothing is left, this holds of every node
of the tree, those of branches that were passed because they were known included. But a branch
that is passed is not checked against the names before it. -/

namespace Reconcile

variable {H : Hashing} {A B : Digest → Prop} {d e y : Digest} {n : Node} {i j : Item} {f : Frame}
  {fs : List Frame} {a : Name} {last last' : Option Name} {aside : List Digest} {inner : Option Digest}

/-! ## Trees whose nodes are vetted -/

/-- The names that a node lists itself ascend and lie in the range it states. -/
structure Node.Vetted (n : Node) : Prop where
  ascending : n.leaves.Pairwise (· < ·)
  spans : ∀ a, .leaf a ∈ n.items → n.spans a = true

/-- The node under a digest, if there is one, is vetted. -/
def Vetted (H : Hashing) (d : Digest) : Prop := ∀ n, Denotes H d n → n.Vetted

/-- All nodes of a tree are vetted, except in branches that satisfy `A`. -/
def VettedBut (H : Hashing) (A : Digest → Prop) (d : Digest) : Prop :=
  ∀ e, Leads H A (.ref d) (.ref e) → A e ∨ Vetted H e

/-- A path that keeps out of `A` keeps out of `d` too, or leads on from there. -/
theorem Leads.avoids_or (h : Leads H A i j) (d : Digest) :
    Leads H (fun e => d = e ∨ A e) i j ∨ Leads H A (.ref d) j := by
  induction h with
  | refl i => exact .inl (.refl i)
  | @into e n i j kept denotes mem rest ih =>
      by_cases hd : d = e
      · subst hd
        exact .inr (.into kept denotes mem rest)
      · refine ih.imp_left (.into ?_ denotes mem)
        rintro (hde | he)
        · exact hd hde
        · exact kept he

namespace VettedBut

theorem mono (h : VettedBut H A d) (hA : ∀ e, A e → B e) : VettedBut H B d :=
  fun e he => (h e (he.mono hA)).imp_left (hA e)

theorem of_mem (hd : A d) : VettedBut H A d := by
  intro e he
  obtain rfl := Item.ref.inj (he.of_lost hd)
  exact .inl hd

theorem of_node (inj : Function.Injective H) (hn : Denotes H d n) (hvetted : n.Vetted)
    (hbranches : ∀ e, .ref e ∈ n.items → VettedBut H A e) : VettedBut H A d := by
  intro e he
  rcases he.cases_node inj hn with he | ⟨j, hj, he⟩
  · obtain rfl := Item.ref.inj he
    exact .inr (fun m hm => hn.unique inj hm ▸ hvetted)
  · cases j with
    | leaf a => cases he.of_leaf
    | ref e' => exact hbranches e' hj e he

theorem branch (h : VettedBut H (fun _ => False) d) (he : Leads H (fun _ => False) (.ref d) (.ref e)) :
    VettedBut H (fun _ => False) e :=
  fun e' he' => h e' (he.trans he')

/-- A branch that was excepted is vetted itself. -/
theorem join (h : VettedBut H (fun e => d = e ∨ A e) y) (hd : VettedBut H A d) :
    VettedBut H A y := by
  intro e he
  rcases he.avoids_or d with he | he
  · rcases h e he with (rfl | hA) | hvetted
    · exact hd d (.refl _)
    · exact .inl hA
    · exact .inr hvetted
  · exact hd e he

end VettedBut

theorem Node.leaves_sublist_row (n : Node) (below : Digest → List Name) :
    n.leaves.Sublist (n.row below) := by
  have hitems : ∀ items : List Item,
      (items.filterMap Item.leaf?).Sublist (items.flatMap (Item.row below)) := by
    intro items
    induction items with
    | nil => exact .slnil
    | cons i rest ih =>
        cases i with
        | leaf a => exact ih.cons_cons a
        | ref d => exact ih.trans (List.sublist_append_right _ _)
  exact hitems n.items

/-- In a tree in order every node is vetted. -/
theorem vettedBut_of_ordered (inj : Function.Injective H) (hd : Ordered H d) :
    VettedBut H (fun _ => False) d := by
  intro e he
  refine .inr (fun n hn => ?_)
  obtain ⟨l, hl⟩ := hd
  obtain ⟨l', hl'⟩ := hl.of_leads inj he
  have hordered : Ordered H e := ⟨l', hl'⟩
  refine ⟨?_, fun a ha => hordered.spans inj hn ha⟩
  have hrow := hordered.whole.listing_node inj hn
  exact (hrow ▸ hordered.ascending inj).sublist (n.leaves_sublist_row _)

/-! ## Frames -/

namespace Frame

/-- The items of its node that a frame has passed. -/
def passed (f : Frame) (n : Node) : List Item := n.items.take f.position

theorem passed_advance (hf : f.At n i) : f.advance.passed n = f.passed n ++ [i] := by
  rw [passed, passed, advance, List.take_add_one, getElem?_of_item hf.node hf.item]
  rfl

theorem passed_of_isThrough (hn : f.node = some n) (h : f.isThrough = true) :
    f.passed n = n.items := by
  simp only [isThrough, hn, Option.any_some, Node.size] at h
  exact List.take_of_length_le (of_decide_eq_true h)

/-- The names of its own node that a frame has passed were checked. -/
structure Checked (f : Frame) (last : Option Name) (n : Node) : Prop where
  ascending : ((f.passed n).filterMap Item.leaf?).Pairwise (· < ·)
  spans : ∀ a, .leaf a ∈ f.passed n → n.spans a = true
  last : ∀ a, .leaf a ∈ f.passed n → ∃ b ∈ last, a ≤ b

theorem checked_of_position (hstart : f.position = 0) (last : Option Name) (n : Node) :
    f.Checked last n := by
  have hnothing : f.passed n = [] := by rw [passed, hstart, List.take_zero]
  constructor <;> simp [hnothing]

theorem Checked.mono (h : f.Checked last n) (hlast : ∀ b ∈ last, ∃ b' ∈ last', b ≤ b') :
    f.Checked last' n where
  ascending := h.ascending
  spans := h.spans
  last a ha := by
    obtain ⟨b, hb, hab⟩ := h.last a ha
    obtain ⟨b', hb', hbb'⟩ := hlast b hb
    exact ⟨b', hb', hab.trans hbb'⟩

/-- A name is passed that lies in the range and comes after the last one. -/
theorem Checked.advance (h : f.Checked last n) (hf : f.At n i)
    (hspans : ∀ a, i = .leaf a → n.spans a = true) (hfollows : Traversal.Follows last i) :
    f.advance.Checked ((Traversal.leafAt f).or last) n := by
  have hpassed := passed_advance hf
  cases i with
  | ref d =>
      have hmem : ∀ a, .leaf a ∈ f.advance.passed n → .leaf a ∈ f.passed n := by
        intro a ha
        simpa [hpassed] using ha
      rw [leafAt_ref hf]
      refine ⟨?_, fun a ha => h.spans a (hmem a ha), fun a ha => h.last a (hmem a ha)⟩
      have hnone : [Item.ref d].filterMap Item.leaf? = [] := rfl
      rw [hpassed, List.filterMap_append, hnone, List.append_nil]
      exact h.ascending
  | leaf a =>
      have hlt : ∀ b, .leaf b ∈ f.passed n → b < a := by
        intro b hb
        obtain ⟨b', hb', hbb'⟩ := h.last b hb
        exact lt_of_le_of_lt hbb' (hfollows a rfl b' hb')
      have hmem : ∀ b, .leaf b ∈ f.advance.passed n → .leaf b ∈ f.passed n ∨ b = a := by
        intro b hb
        simpa [hpassed] using hb
      rw [leafAt_leaf hf]
      refine ⟨?_, ?_, ?_⟩
      · rw [hpassed, List.filterMap_append]
        refine List.pairwise_append.mpr ⟨h.ascending, List.pairwise_singleton _ _, ?_⟩
        intro b hb b' hb'
        obtain rfl := List.mem_singleton.mp hb'
        obtain ⟨i, hi, hib⟩ := List.mem_filterMap.mp hb
        cases i with
        | leaf c => exact Option.some.inj hib ▸ hlt c hi
        | ref d => cases hib
      · intro b hb
        rcases hmem b hb with hb | rfl
        · exact h.spans b hb
        · exact hspans b rfl
      · intro b hb
        refine ⟨a, rfl, ?_⟩
        rcases hmem b hb with hb | rfl
        · exact le_of_lt (hlt b hb)
        · exact le_refl b

theorem Checked.vetted (h : f.Checked last n) (hn : f.node = some n) (hthrough : f.isThrough = true) :
    n.Vetted := by
  obtain ⟨ascending, spans, -⟩ := h
  rw [passed_of_isThrough hn hthrough] at ascending spans
  exact ⟨ascending, spans⟩

/-- A branch that a frame may have passed without being through with it: one that was put aside, if
the frame is marked. -/
def Excuses (aside : List Digest) (f : Frame) (e : Digest) : Prop := f.incomplete = true ∧ e ∈ aside

end Frame

/-! ## Stacks -/

/-- In a traversal of the tree `y`, each branch that a frame has passed is vetted or excused, or the
frame further in stands at it, whose digest is `inner`. What the stack does not lead to any more is
vetted or was put aside. -/
def Vetting (H : Hashing) (y : Digest) (aside : List Digest) : Option Digest → List Frame → Prop
  | inner, [] => VettedBut H (fun e => inner = some e ∨ e ∈ aside) y
  | inner, f :: fs =>
    (∀ n, f.node = some n → ∀ e, .ref e ∈ f.passed n →
      inner = some e ∨ VettedBut H (f.Excuses aside) e) ∧
    Vetting H y aside (some f.digest) fs

namespace Vetting

/-- The innermost node is left and vetted as far as the nodes above it need. -/
theorem leave (h : Vetting H y aside (some d) fs) (incomplete : Bool)
    (hd : VettedBut H (fun e => incomplete = true ∧ e ∈ aside) d)
    (hfs : ∀ f ∈ fs, incomplete = true → f.incomplete = true) : Vetting H y aside none fs := by
  cases fs with
  | nil =>
      have h : VettedBut H (fun e => some d = some e ∨ e ∈ aside) y := h
      have hy : VettedBut H (fun e => e ∈ aside) y :=
        (h.mono (fun e he => he.imp_left Option.some.inj)).join (hd.mono (fun e he => he.2))
      exact hy.mono (fun e he => .inr he)
  | cons f fs =>
      refine ⟨?_, h.2⟩
      intro n hn e he
      refine .inr ?_
      rcases h.1 n hn e he with hinner | hvetted
      · obtain rfl := Option.some.inj hinner
        exact hd.mono (fun e he => ⟨hfs f List.mem_cons_self he.1, he.2⟩)
      · exact hvetted

theorem markIncomplete {aside' : List Digest} (h : Vetting H y aside inner fs)
    (haside : ∀ e ∈ aside, e ∈ aside') :
    Vetting H y aside' inner (fs.map Frame.markIncomplete) := by
  induction fs generalizing inner with
  | nil => exact h.mono (fun e he => he.imp_right (haside e))
  | cons f fs ih =>
      refine ⟨?_, ih h.2⟩
      intro n hn e he
      exact (h.1 n hn e he).imp_right (·.mono (fun e he => ⟨rfl, haside e he.2⟩))

/-- The innermost node is put aside. -/
theorem putAside {aside' : List Digest} (h : Vetting H y aside (some d) fs)
    (haside : ∀ e ∈ aside, e ∈ aside') (hd : d ∈ aside') :
    Vetting H y aside' none (fs.map Frame.markIncomplete) := by
  have hmarked := h.markIncomplete haside
  refine hmarked.leave true (.of_mem ⟨rfl, hd⟩) ?_
  intro f hf _
  obtain ⟨g, -, rfl⟩ := List.mem_map.mp hf
  rfl

end Vetting

namespace Traversal

variable {c : Cache} {w : Traversal} {m : Move}

/-- What the next side of a traversal of the tree `y` has passed was vetted. -/
structure Vets (H : Hashing) (y : Digest) (w : Traversal) : Prop where
  checked : ∀ f ∈ w.next, ∀ n, f.node = some n → f.Checked w.lastNext n
  nested : w.next.Pairwise (fun f g => f.incomplete = true → g.incomplete = true)
  branches : Vetting H y w.aside none w.next

theorem vets_begin (baseline : Option Digest) (y : Digest) : (begin baseline y).Vets H y where
  checked f hf n hn := by
    rw [List.mem_singleton.mp hf] at hn
    cases hn
  nested := List.pairwise_singleton _ _
  branches := ⟨fun n hn => (nomatch hn), .of_mem (.inl rfl)⟩

namespace Vets

theorem vetted (h : w.Vets H y) (hnext : w.next = []) (haside : w.aside = []) :
    VettedBut H (fun _ => False) y := by
  have hbranches := h.branches
  rw [hnext, haside] at hbranches
  refine VettedBut.mono hbranches ?_
  rintro e (he | he) <;> cases he

theorem restart (h : w.Vets H y) (hnext : w.next = []) (baseline : Option Digest) (d : Digest) :
    (w.restart baseline d).Vets H y where
  checked f hf n hn := by
    rw [List.mem_singleton.mp hf] at hn
    cases hn
  nested := List.pairwise_singleton _ _
  branches := by
    have hbranches := h.branches
    rw [hnext] at hbranches
    refine ⟨fun n hn => (nomatch hn), VettedBut.mono hbranches ?_⟩
    rintro e (he | he)
    · cases he
    · by_cases hde : d = e
      · exact .inl (congrArg some hde)
      · exact .inr ((List.mem_erase_of_ne (Ne.symm hde)).mpr he)

/-- The innermost node is given to its frame. -/
theorem resolve (h : w.Vets H y) (hnext : w.next = f :: fs) (hstart : f.position = 0) (n : Node) :
    Vets H y { w with next := f.resolve n :: fs } := by
  obtain ⟨checked, nested, branches⟩ := h
  rw [hnext] at checked nested branches
  refine ⟨?_, ?_, ?_, branches.2⟩
  · intro g hg m hm
    rcases List.mem_cons.mp hg with rfl | hg
    · exact Frame.checked_of_position (f := f.resolve n) hstart _ _
    · exact checked g (List.mem_cons_of_mem f hg) m hm
  · obtain ⟨hhead, hrest⟩ := List.pairwise_cons.mp nested
    exact List.pairwise_cons.mpr ⟨hhead, hrest⟩
  · intro m hm e he
    have hstart : (f.resolve n).position = 0 := hstart
    rw [Frame.passed, hstart, List.take_zero] at he
    cases he

theorem putAside (h : w.Vets H y) (hnext : w.next = f :: fs) : (w.putAside f.digest).Vets H y := by
  obtain ⟨checked, nested, branches⟩ := h
  rw [hnext] at checked nested branches
  have hnext' := next_putAside hnext f.digest
  refine ⟨?_, ?_, ?_⟩
  · intro g hg n hn
    rw [hnext'] at hg
    obtain ⟨g', hg', rfl⟩ := List.mem_map.mp hg
    have hchecked := checked g' (List.mem_cons_of_mem f hg') n hn
    exact ⟨hchecked.ascending, hchecked.spans, hchecked.last⟩
  · rw [hnext']
    exact List.pairwise_map.mpr (List.pairwise_of_forall (fun _ _ _ => rfl))
  · rw [hnext']
    exact branches.2.putAside (fun e he => mem_aside_putAside.mpr (.inl he))
      (mem_aside_putAside.mpr (.inr rfl))

/-- The innermost node is left, and is vetted as far as the nodes above it need. -/
theorem leave (h : w.Vets H y) (hnext : w.next = f :: fs)
    (hf : VettedBut H (f.Excuses w.aside) f.digest) : Vets H y { w with next := fs } := by
  obtain ⟨checked, nested, branches⟩ := h
  rw [hnext] at checked nested branches
  obtain ⟨hhead, hrest⟩ := List.pairwise_cons.mp nested
  exact ⟨fun g hg => checked g (List.mem_cons_of_mem f hg), hrest, branches.2.leave _ hf hhead⟩

/-- A node that is through is vetted, but for branches that were put aside if it is marked. -/
theorem vettedBut_of_isThrough (inj : Function.Injective H) (h : w.Vets H y)
    (hnext : w.next = f :: fs) (hn : f.node = some n) (hthrough : f.isThrough = true)
    (hdenotes : Denotes H f.digest n) : VettedBut H (f.Excuses w.aside) f.digest := by
  obtain ⟨checked, -, branches⟩ := h
  rw [hnext] at checked branches
  refine .of_node inj hdenotes ((checked f List.mem_cons_self n hn).vetted hn hthrough) ?_
  intro e he
  rw [← Frame.passed_of_isThrough hn hthrough] at he
  rcases branches.1 n hn e he with hinner | hvetted
  · cases hinner
  · exact hvetted

/-- A planned move passes only names that were checked, and branches that are vetted: known ones, and
those of the baseline. -/
theorem perform (h : w.Vets H y) (hplan : (plan H c w).2 = .ok m)
    (hp : Planned H c w m f fs n j)
    (hknown : ∀ d, c.known d = true → VettedBut H (fun _ => False) d)
    (hcurrent : ∀ g gs n' d, w.current = g :: gs → g.At n' (.ref d) →
      VettedBut H (fun _ => False) d) : (w.perform m).Vets H y := by
  let T : List Frame → Option Name → Prop := fun frames last =>
    (∀ f ∈ frames, ∀ n, f.node = some n → f.Checked last n) ∧
      frames.Pairwise (fun f g => f.incomplete = true → g.incomplete = true) ∧
      Vetting H y w.aside none frames
  have hf := hp.position
  obtain ⟨checked, nested, branches⟩ := h
  have hkeep : T w.next w.lastNext := ⟨checked, nested, branches⟩
  rw [hp.next] at checked nested branches
  obtain ⟨hhead, hrest⟩ := List.pairwise_cons.mp nested
  have hspans : ∀ a, j = .leaf a → n.spans a = true := by
    rintro a rfl
    exact spans_of_plan hplan hp.next hf
  have hlast : ∀ b ∈ w.lastNext, ∃ b' ∈ (leafAt f).or w.lastNext, b ≤ b' := by
    intro b hb
    cases j with
    | ref d => exact ⟨b, by rwa [leafAt_ref hf], le_refl b⟩
    | leaf a => exact ⟨a, by rw [leafAt_leaf hf]; rfl, le_of_lt (hp.follows a rfl b hb)⟩
  have hadvanced : ∀ g ∈ f.advance :: fs, ∀ n, g.node = some n →
      g.Checked ((leafAt f).or w.lastNext) n := by
    intro g hg m hm
    rcases List.mem_cons.mp hg with rfl | hg
    · obtain rfl := Option.some.inj (hf.node.symm.trans hm)
      exact (checked f List.mem_cons_self n hf.node).advance hf hspans hp.follows
    · exact (checked g (List.mem_cons_of_mem f hg) m hm).mono hlast
  have hpassed : ∀ inner, (∀ d, j = .ref d → inner = some d ∨ VettedBut H (fun _ => False) d) →
      Vetting H y w.aside inner (f.advance :: fs) := by
    intro inner hj
    refine ⟨?_, branches.2⟩
    intro m hm e he
    obtain rfl := Option.some.inj (hf.node.symm.trans hm)
    rw [Frame.passed_advance hf] at he
    rcases List.mem_append.mp he with he | he
    · refine .inr ((branches.1 n hf.node e he).resolve_left (fun hinner => nomatch hinner))
    · exact (hj e (List.mem_singleton.mp he).symm).imp_right (·.mono (fun _ => False.elim))
  have hT : T (w.perform m).next (w.perform m).lastNext := by
    refine hp.next_side (T := T) hkeep ?_ ?_
    · intro hj
      refine ⟨hadvanced, List.pairwise_cons.mpr ⟨hhead, hrest⟩, hpassed none ?_⟩
      intro d hd
      rcases hj d hd with hd' | ⟨g, gs, n', hg, hat⟩
      · exact .inr (hknown d hd')
      · exact .inr (hcurrent g gs n' d hg (hd ▸ hat))
    · intro d hd
      refine ⟨?_, ?_, ?_, hpassed (some d) ?_⟩
      · intro g hg m hm
        rcases List.mem_cons.mp hg with rfl | hg
        · cases hm
        · exact hadvanced g hg m hm
      · refine List.pairwise_cons.mpr ⟨?_, List.pairwise_cons.mpr ⟨hhead, hrest⟩⟩
        intro g _ hincomplete
        cases hincomplete
      · intro m hm
        cases hm
      · intro e he
        exact .inl (congrArg some (Item.ref.inj (hd.symm.trans he)))
  exact ⟨hT.1, hT.2.1, by rw [aside_perform]; exact hT.2.2⟩

end Vets

end Traversal

end Reconcile

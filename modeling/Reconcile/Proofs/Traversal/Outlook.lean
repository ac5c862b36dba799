import Reconcile.Proofs.Traversal.Choice

/-! # Nothing is left behind, in any trees

Over any trees, ordered or not: every item that the root of the next tree leads to is done with, or
is still ahead of the traversal. Nodes that are lost for good are not entered, so what is below them
does not count. -/

namespace Reconcile

variable {H : Hashing} {lost : Digest → Prop} {x y : Digest} {d e : Digest} {i j k : Item}
  {D D' : Item → Prop} {f : Frame} {fs : List Frame} {n : Node}

/-! ## Items that lead to others -/

/-- An item leads to another through nodes that are not lost. -/
inductive Leads (H : Hashing) (lost : Digest → Prop) : Item → Item → Prop
  | refl (i : Item) : Leads H lost i i
  | into {d : Digest} {n : Node} {j i : Item} (kept : ¬ lost d) (denotes : Denotes H d n)
      (mem : j ∈ n.items) (rest : Leads H lost j i) : Leads H lost (.ref d) i

theorem Leads.trans (h : Leads H lost i j) (h' : Leads H lost j k) : Leads H lost i k := by
  induction h with
  | refl => exact h'
  | into kept denotes mem _ ih => exact .into kept denotes mem (ih h')

theorem Leads.mono {lost' : Digest → Prop} (h : Leads H lost i j)
    (hlost : ∀ d, lost' d → lost d) : Leads H lost' i j := by
  induction h with
  | refl => exact .refl _
  | into kept denotes mem _ ih => exact .into (fun hd => kept (hlost _ hd)) denotes mem ih

/-- An item of a node that is not lost. -/
theorem leads_item (hd : ¬ lost d) (hn : Denotes H d n) (hi : i ∈ n.items) :
    Leads H lost (.ref d) i :=
  .into hd hn hi (.refl i)

theorem Leads.of_leaf {a : Name} (h : Leads H lost (.leaf a) i) : i = .leaf a := by
  cases h
  rfl

theorem Leads.of_lost (h : Leads H lost (.ref d) i) (hd : lost d) : i = .ref d := by
  cases h with
  | refl => rfl
  | into kept => exact absurd hd kept

/-- What a node leads to beside itself, one of its items leads to. -/
theorem Leads.cases_node (inj : Function.Injective H) (h : Leads H lost (.ref d) i)
    (hn : Denotes H d n) : i = .ref d ∨ ∃ j ∈ n.items, Leads H lost j i := by
  cases h with
  | refl => exact .inl rfl
  | into kept denotes mem rest =>
      obtain rfl := denotes.unique inj hn
      exact .inr ⟨_, mem, rest⟩

/-- The node of one digest lists the other. -/
def Refers (H : Hashing) (d e : Digest) : Prop := ∃ n, Denotes H d n ∧ e ∈ n.refs

/-- The names of a tree are those its root leads to. -/
theorem Tree.mem_iff {P : Node → (Digest → List Name) → Prop} (inj : Function.Injective H)
    {l : List Name} (h : Tree H P d l) {a : Name} :
    a ∈ l ↔ Leads H (fun _ => False) (.ref d) (.leaf a) := by
  induction h with
  | @node d n below denotes branches sound ih =>
      constructor
      · intro ha
        obtain ⟨i, hi, ha⟩ := List.mem_flatMap.mp ha
        cases i with
        | leaf b =>
            obtain rfl := List.mem_singleton.mp ha
            exact leads_item id denotes hi
        | ref e => exact .into id denotes hi ((ih e (Node.mem_refs.mpr hi)).mp ha)
      · intro ha
        rcases ha.cases_node inj denotes with ha | ⟨i, hi, ha⟩
        · cases ha
        · refine List.mem_flatMap.mpr ⟨i, hi, ?_⟩
          cases i with
          | leaf b =>
              obtain rfl := Item.leaf.inj ha.of_leaf
              exact List.mem_singleton_self _
          | ref e => exact (ih e (Node.mem_refs.mpr hi)).mpr ha

/-- Every subtree that a tree leads to is a tree. -/
theorem Tree.of_leads {P : Node → (Digest → List Name) → Prop} (inj : Function.Injective H)
    {l : List Name} (h : Tree H P d l) (he : Leads H lost (.ref d) (.ref e)) :
    ∃ l', Tree H P e l' := by
  induction h with
  | @node d n below denotes branches sound ih =>
      rcases he.cases_node inj denotes with he | ⟨i, hi, he⟩
      · cases he
        exact ⟨_, .node denotes branches sound⟩
      · cases i with
        | leaf b => cases he.of_leaf
        | ref e' => exact ih e' (Node.mem_refs.mpr hi) he

/-- No branch of a tree leads back to the root. -/
theorem Tree.not_leads_back {P : Node → (Digest → List Name) → Prop} (inj : Function.Injective H)
    {l : List Name} (h : Tree H P d l) (hn : Denotes H d n) (he : e ∈ n.refs) :
    ¬ Leads H (fun _ => False) (.ref e) (.ref d) := by
  induction h generalizing n e with
  | @node d m below denotes branches sound ih =>
      obtain rfl := hn.unique inj denotes
      intro hback
      obtain ⟨l', hl'⟩ : ∃ l', Tree H P e l' := ⟨_, branches e he⟩
      cases hl' with
      | @node _ k _ denotes' =>
          rcases hback.cases_node inj denotes' with hsame | ⟨i, hi, hback⟩
          · obtain rfl := Item.ref.inj hsame
            exact ih _ he hn he (.refl _)
          · cases i with
            | leaf a => cases hback.of_leaf
            | ref e' =>
                have hround := hback.trans (leads_item id hn (Node.mem_refs.mp he))
                exact ih e he denotes' (Node.mem_refs.mpr hi) hround

theorem Honest.mem_namesBelow_iff (inj : Function.Injective H) {a : Name} (h : Honest H d) :
    a ∈ namesBelow H d ↔ Leads H (fun _ => False) (.ref d) (.leaf a) :=
  (h.tree inj).mem_iff inj

theorem Honest.of_leads (inj : Function.Injective H) (h : Honest H d)
    (he : Leads H lost (.ref d) (.ref e)) : Honest H e :=
  (h.tree inj).of_leads inj he

/-- A name is an end of the range that is stated by a node which the tree `x` refers to. -/
def Bounds (H : Hashing) (x : Digest) (a : Name) : Prop :=
  ∃ d n e child, Leads H (fun _ => False) (.ref x) (.ref d) ∧ Denotes H d n ∧ e ∈ n.refs ∧
    Denotes H e child ∧ (a = child.least ∨ a = child.greatest)

/-! ## Frames within a tree -/

namespace Frame

/-- The frame stands in the tree under a root, at a node that is not lost if it is at hand. -/
structure Within (H : Hashing) (lost : Digest → Prop) (root : Digest) (f : Frame) : Prop where
  leads : Leads H lost (.ref root) (.ref f.digest)
  start : f.node = none → f.position = 0
  denotes : ∀ n, f.node = some n → Denotes H f.digest n ∧ ¬ lost f.digest

theorem within_start (h : Leads H lost (.ref y) (.ref d)) : (start d).Within H lost y where
  leads := h
  start _ := rfl
  denotes _ hn := nomatch hn

theorem Within.advance (h : f.Within H lost y) (hn : f.node = some n) :
    f.advance.Within H lost y where
  leads := h.leads
  start hnone := nomatch hn.symm.trans hnone
  denotes := h.denotes

theorem Within.resolve (h : f.Within H lost y) (hn : Denotes H f.digest n) (hf : ¬ lost f.digest) :
    (f.resolve n).Within H lost y where
  leads := h.leads
  start hnone := nomatch hnone
  denotes _ hm := Option.some.inj hm ▸ ⟨hn, hf⟩

theorem Within.markIncomplete (h : f.Within H lost y) : f.markIncomplete.Within H lost y :=
  ⟨h.leads, h.start, h.denotes⟩

/-- The item at a position is within the tree. -/
theorem Within.item (h : f.Within H lost y) (hf : f.At n i) : Leads H lost (.ref y) i := by
  obtain ⟨hn, hkept⟩ := h.denotes n hf.node
  exact h.leads.trans (leads_item hkept hn hf.mem)

/-- An item is ahead of a frame. -/
def Ahead (H : Hashing) (lost : Digest → Prop) (f : Frame) (i : Item) : Prop :=
  match f.node with
  | none => Leads H lost (.ref f.digest) i
  | some n => ∃ j ∈ n.items.drop f.position, Leads H lost j i

@[simp] theorem ahead_markIncomplete : f.markIncomplete.Ahead H lost = f.Ahead H lost := rfl

theorem ahead_at (hf : f.At n j) :
    f.Ahead H lost i ↔ Leads H lost j i ∨ f.advance.Ahead H lost i := by
  simp only [Ahead, advance, hf.node]
  rw [hf.drop_eq]
  simp

theorem not_ahead_of_isThrough (hn : f.node = some n) (h : f.isThrough = true) :
    ¬ f.Ahead H lost i := by
  simp only [isThrough, hn, Option.any_some, Node.size] at h
  simp [Ahead, hn, List.drop_eq_nil_of_le (of_decide_eq_true h)]

/-- A frame that is given its node has everything but the node itself ahead. -/
theorem ahead_resolve (inj : Function.Injective H) (h : f.Within H lost y) (hnone : f.node = none)
    (hn : Denotes H f.digest n) (hi : f.Ahead H lost i) :
    i = .ref f.digest ∨ (f.resolve n).Ahead H lost i := by
  simp only [Ahead, hnone] at hi
  simpa only [Ahead, resolve, h.start hnone, List.drop_zero] using hi.cases_node inj hn

end Frame

/-! ## Stacks -/

/-- An item is ahead of a stack of frames. -/
def Ahead (H : Hashing) (lost : Digest → Prop) (frames : List Frame) (i : Item) : Prop :=
  ∃ f ∈ frames, f.Ahead H lost i

@[simp] theorem ahead_cons : Ahead H lost (f :: fs) i ↔ f.Ahead H lost i ∨ Ahead H lost fs i := by
  simp [Ahead]

theorem not_ahead_nil : ¬ Ahead H lost [] i := by
  rintro ⟨f, hf, -⟩
  cases hf

theorem ahead_markIncomplete :
    Ahead H lost (fs.map Frame.markIncomplete) i ↔ Ahead H lost fs i := by
  simp [Ahead]

/-- Of every node of a stack that no branch of was put aside, each item is done with or still ahead
of the stack. `inner` are the items ahead of the frames further in. -/
def Closed (H : Hashing) (lost : Digest → Prop) (D : Item → Prop) : (Item → Prop) → List Frame → Prop
  | _, [] => True
  | inner, f :: fs =>
    (f.incomplete = false →
      ∀ i, Leads H lost (.ref f.digest) i → D i ∨ inner i ∨ f.Ahead H lost i) ∧
    Closed H lost D (fun i => inner i ∨ f.Ahead H lost i) fs

theorem Closed.mono {inner inner' : Item → Prop} (h : Closed H lost D inner fs)
    (hD : ∀ i, D i → D' i) (hinner : ∀ i, inner i → D' i ∨ inner' i) :
    Closed H lost D' inner' fs := by
  induction fs generalizing inner inner' with
  | nil => trivial
  | cons f fs ih =>
      obtain ⟨hf, hfs⟩ := h
      refine ⟨?_, ih hfs ?_⟩
      · intro hcomplete i hi
        rcases hf hcomplete i hi with hi | hi | hi
        · exact .inl (hD i hi)
        · exact (hinner i hi).imp_right .inl
        · exact .inr (.inr hi)
      · rintro i (hi | hi)
        · exact (hinner i hi).imp_right .inl
        · exact .inr (.inr hi)

theorem closed_markIncomplete (D inner : Item → Prop) (fs : List Frame) :
    Closed H lost D inner (fs.map Frame.markIncomplete) := by
  induction fs generalizing inner with
  | nil => trivial
  | cons f fs ih =>
      refine ⟨?_, ih _⟩
      intro hcomplete
      cases hcomplete

/-- A stack within the tree of `root`, after it has passed only items that satisfy `D`. -/
structure Passed (H : Hashing) (lost : Digest → Prop) (D : Item → Prop) (root : Digest)
    (frames frames' : List Frame) : Prop where
  within : (∀ f ∈ frames, f.Within H lost root) → ∀ f ∈ frames', f.Within H lost root
  ahead : ∀ i, Ahead H lost frames i → D i ∨ Ahead H lost frames' i
  closed : Closed H lost D (fun _ => False) frames → Closed H lost D (fun _ => False) frames'

namespace Passed

theorem refl (frames : List Frame) : Passed H lost D y frames frames :=
  ⟨id, fun _ => .inr, id⟩

/-- A stack whose innermost frames changed. -/
theorem of_inner (inner : List Frame)
    (hwithin : f.Within H lost y → ∀ g ∈ inner, g.Within H lost y)
    (hahead : ∀ i, f.Ahead H lost i → D i ∨ Ahead H lost inner i)
    (hclosed : Closed H lost D (fun _ => False) (f :: fs) →
      Closed H lost D (fun _ => False) (inner ++ fs)) :
    Passed H lost D y (f :: fs) (inner ++ fs) := by
  refine ⟨?_, ?_, hclosed⟩
  · intro h g hg
    rcases List.mem_append.mp hg with hg | hg
    · exact hwithin (h f List.mem_cons_self) g hg
    · exact h g (List.mem_cons_of_mem f hg)
  · intro i hi
    rcases ahead_cons.mp hi with hi | ⟨g, hg, hi⟩
    · refine (hahead i hi).imp_right ?_
      rintro ⟨g, hg, hi⟩
      exact ⟨g, List.mem_append_left fs hg, hi⟩
    · exact .inr ⟨g, List.mem_append_right inner hg, hi⟩

/-- The item at the position is passed. -/
theorem advance (hf : f.At n j) (hj : ∀ i, Leads H lost j i → D i) :
    Passed H lost D y (f :: fs) (f.advance :: fs) := by
  have hahead : ∀ i, f.Ahead H lost i → D i ∨ f.advance.Ahead H lost i :=
    fun i hi => ((Frame.ahead_at hf).mp hi).imp_left (hj i)
  refine of_inner [f.advance] ?_ ?_ ?_
  · intro h g hg
    exact List.mem_singleton.mp hg ▸ h.advance hf.node
  · intro i hi
    exact (hahead i hi).imp_right (fun hi => ahead_cons.mpr (.inl hi))
  · rintro ⟨hhead, hrest⟩
    refine ⟨?_, hrest.mono (fun _ => id) ?_⟩
    · intro hcomplete i hi
      rcases hhead hcomplete i hi with hi | hi | hi
      · exact .inl hi
      · exact hi.elim
      · exact (hahead i hi).imp_right .inr
    · rintro i (hi | hi)
      · exact hi.elim
      · exact (hahead i hi).imp_right .inr

/-- The reference at the position is entered. -/
theorem enter (hf : f.At n (.ref d)) :
    Passed H lost D y (f :: fs) (.start d :: f.advance :: fs) := by
  have hahead : ∀ i, f.Ahead H lost i →
      (Frame.start d).Ahead H lost i ∨ f.advance.Ahead H lost i :=
    fun i hi => (Frame.ahead_at hf).mp hi
  refine of_inner [.start d, f.advance] ?_ ?_ ?_
  · intro h g hg
    rcases List.mem_cons.mp hg with rfl | hg
    · exact Frame.within_start (h.item hf)
    · exact List.mem_singleton.mp hg ▸ h.advance hf.node
  · intro i hi
    refine .inr (ahead_cons.mpr ((hahead i hi).imp_right ?_))
    exact fun hi => ahead_cons.mpr (.inl hi)
  · rintro ⟨hhead, hrest⟩
    refine ⟨fun _ i hi => .inr (.inr hi), ?_, hrest.mono (fun _ => id) ?_⟩
    · intro hcomplete i hi
      rcases hhead hcomplete i hi with hi | hi | hi
      · exact .inl hi
      · exact hi.elim
      · exact .inr ((hahead i hi).imp_left .inr)
    · rintro i (hi | hi)
      · exact hi.elim
      · exact .inr ((hahead i hi).imp_left .inr)

/-- The innermost frame is left, and all that was ahead of it is done with. -/
theorem leave (hf : ∀ i, f.Ahead H lost i → D i) : Passed H lost D y (f :: fs) fs := by
  refine of_inner [] ?_ ?_ ?_
  · intro _ g hg
    cases hg
  · exact fun i hi => .inl (hf i hi)
  · rintro ⟨-, hrest⟩
    refine hrest.mono (fun _ => id) ?_
    rintro i (hi | hi)
    · exact hi.elim
    · exact .inl (hf i hi)

/-- The innermost frame is given its node, which is not lost. -/
theorem resolve (inj : Function.Injective H) (h : f.Within H lost y) (hnone : f.node = none)
    (hn : Denotes H f.digest n) (hkept : ¬ lost f.digest) (hD : D (.ref f.digest)) :
    Passed H lost D y (f :: fs) (f.resolve n :: fs) := by
  have hahead : ∀ i, f.Ahead H lost i → D i ∨ (f.resolve n).Ahead H lost i := by
    intro i hi
    rcases Frame.ahead_resolve inj h hnone hn hi with rfl | hi
    · exact .inl hD
    · exact .inr hi
  refine of_inner [f.resolve n] ?_ ?_ ?_
  · intro h g hg
    exact List.mem_singleton.mp hg ▸ h.resolve hn hkept
  · intro i hi
    exact (hahead i hi).imp_right (fun hi => ahead_cons.mpr (.inl hi))
  · rintro ⟨hhead, hrest⟩
    refine ⟨?_, hrest.mono (fun _ => id) ?_⟩
    · intro hcomplete i hi
      rcases hhead hcomplete i hi with hi | hi | hi
      · exact .inl hi
      · exact hi.elim
      · exact (hahead i hi).imp_right .inr
    · rintro i (hi | hi)
      · exact hi.elim
      · exact (hahead i hi).imp_right .inr

end Passed

/-! ## Both sides -/

/-- An item is done with: a name that satisfies `S`, or a node that is not lost. -/
def Item.Done (lost : Digest → Prop) (S : Name → Prop) : Item → Prop
  | .leaf a => S a
  | .ref d => ¬ lost d

namespace Traversal

/-- A traversal of the tree `y` beside the tree `x`. Names that satisfy `S` are done with. -/
structure Covers (H : Hashing) (lost : Digest → Prop) (x y : Digest) (S : Name → Prop)
    (w : Traversal) : Prop where
  next : ∀ f ∈ w.next, f.Within H lost y
  current : ∀ g ∈ w.current, g.Within H lost x
  aside : ∀ d ∈ w.aside, Leads H lost (.ref y) (.ref d)
  covered : ∀ i, Leads H lost (.ref y) i → i.Done lost S ∨ Ahead H lost w.next i ∨
    ∃ d ∈ w.aside, Leads H lost (.ref d) i
  closed : Closed H lost (Item.Done lost S) (fun _ => False) w.next

variable {S S' : Name → Prop} {w w' : Traversal}

theorem Item.Done.mono (hS : ∀ a, S a → S' a) (hi : i.Done lost S) : i.Done lost S' := by
  cases i with
  | leaf a => exact hS a hi
  | ref d => exact hi

/-- The next tree passes only what is done with, and the current one stays within its tree. -/
theorem Covers.passes (h : Covers H lost x y S w) (hS : ∀ a, S a → S' a)
    (hnext : Passed H lost (Item.Done lost S') y w.next w'.next)
    (hcurrent : ∀ g ∈ w'.current, g.Within H lost x) (haside : w'.aside = w.aside) :
    Covers H lost x y S' w' where
  next := hnext.within h.next
  current := hcurrent
  aside := haside ▸ h.aside
  covered i hi := by
    rw [haside]
    rcases h.covered i hi with hi | hi | hi
    · exact .inl (Item.Done.mono hS hi)
    · exact (hnext.ahead i hi).imp_right .inl
    · exact .inr (.inr hi)
  closed := hnext.closed (h.closed.mono (fun _ => Item.Done.mono hS) (fun _ hi => hi.elim))

theorem covers_begin (S : Name → Prop) : Covers H lost x y S (begin (some x) y) where
  next _ hf := List.mem_singleton.mp hf ▸ Frame.within_start (.refl _)
  current _ hg := List.mem_singleton.mp hg ▸ Frame.within_start (.refl _)
  aside _ hd := nomatch hd
  covered _ hi := .inr (.inl (ahead_cons.mpr (.inl hi)))
  closed := ⟨fun _ _ hi => .inr (.inr hi), trivial⟩

/-- A branch that is put aside stays ahead. -/
theorem Covers.putAside (h : Covers H lost x y S w) (hnext : w.next = f :: fs)
    (hnone : f.node = none) : Covers H lost x y S (w.putAside f.digest) := by
  have hnext' : (w.putAside f.digest).next = fs.map Frame.markIncomplete := by
    rw [Traversal.putAside, hnext]
    rfl
  have haside : ∀ d, d ∈ (w.putAside f.digest).aside ↔ d ∈ w.aside ∨ d = f.digest := by
    intro d
    unfold Traversal.putAside
    dsimp only
    split
    · rename_i hcontains
      have hmem : f.digest ∈ w.aside := by simpa using hcontains
      exact ⟨.inl, fun hd => hd.elim id (fun hd => hd ▸ hmem)⟩
    · rw [List.mem_append, List.mem_singleton]
  have hwithin := h.next
  rw [hnext] at hwithin
  refine ⟨?_, h.current, ?_, ?_, ?_⟩
  · intro g hg
    rw [hnext'] at hg
    obtain ⟨g', hg', rfl⟩ := List.mem_map.mp hg
    exact (hwithin g' (List.mem_cons_of_mem f hg')).markIncomplete
  · intro d hd
    rcases (haside d).mp hd with hd | rfl
    · exact h.aside d hd
    · exact (hwithin f List.mem_cons_self).leads
  · intro i hi
    rw [hnext', ahead_markIncomplete]
    rcases h.covered i hi with hi | hi | ⟨d, hd, hi⟩
    · exact .inl hi
    · rw [hnext] at hi
      rcases ahead_cons.mp hi with hi | hi
      · simp only [Frame.Ahead, hnone] at hi
        exact .inr (.inr ⟨f.digest, (haside _).mpr (.inr rfl), hi⟩)
      · exact .inr (.inl hi)
    · exact .inr (.inr ⟨d, (haside d).mpr (.inl hd), hi⟩)
  · rw [hnext']
    exact closed_markIncomplete _ _ _

/-- A branch that was put aside is walked from the start of the current tree. -/
theorem Covers.restart (h : Covers H lost x y S w) (hnext : w.next = []) (hd : d ∈ w.aside) :
    Covers H lost x y S (w.restart (some x) d) where
  next _ hf := List.mem_singleton.mp hf ▸ Frame.within_start (h.aside d hd)
  current _ hg := List.mem_singleton.mp hg ▸ Frame.within_start (.refl _)
  aside e he := h.aside e (List.mem_of_mem_erase he)
  covered i hi := by
    rcases h.covered i hi with hi | hi | ⟨e, he, hi⟩
    · exact .inl hi
    · rw [hnext] at hi
      exact absurd hi not_ahead_nil
    · by_cases hed : e = d
      · subst hed
        exact .inr (.inl (ahead_cons.mpr (.inl hi)))
      · exact .inr (.inr ⟨e, (List.mem_erase_of_ne hed).mpr he, hi⟩)
  closed := ⟨fun _ _ hi => .inr (.inr hi), trivial⟩

/-- When nothing is left, everything is done with. -/
theorem Covers.done (h : Covers H lost x y S w) (hnext : w.next = []) (haside : w.aside = []) :
    ∀ i, Leads H lost (.ref y) i → i.Done lost S := by
  intro i hi
  rcases h.covered i hi with hi | hi | ⟨d, hd, -⟩
  · exact hi
  · rw [hnext] at hi
    exact absurd hi not_ahead_nil
  · rw [haside] at hd
    cases hd

/-- A node that is through without a branch put aside is done with, and all it leads to. -/
theorem Covers.done_of_isThrough (h : Covers H lost x y S w) (hnext : w.next = f :: fs)
    (hn : f.node = some n) (hthrough : f.isThrough = true) (hcomplete : f.incomplete = false) :
    ∀ i, Leads H lost (.ref f.digest) i → i.Done lost S := by
  have hclosed := h.closed
  rw [hnext] at hclosed
  intro i hi
  rcases hclosed.1 hcomplete i hi with hi | hi | hi
  · exact hi
  · exact hi.elim
  · exact absurd hi (Frame.not_ahead_of_isThrough hn hthrough)

/-! ## Moves -/

theorem Shift.within {fs' : List Frame} (hs : Shift fs i fs') (h : ∀ f ∈ fs, f.Within H lost y) :
    ∀ f ∈ fs', f.Within H lost y := by
  cases hs with
  | @pass f fs n i position =>
      intro f' hf'
      rcases List.mem_cons.mp hf' with rfl | hf'
      · exact (h f List.mem_cons_self).advance position.node
      · exact h f' (List.mem_cons_of_mem f hf')
  | @enter f fs n d position =>
      intro f' hf'
      rcases List.mem_cons.mp hf' with rfl | hf'
      · exact Frame.within_start ((h f List.mem_cons_self).item position)
      · rcases List.mem_cons.mp hf' with rfl | hf'
        · exact (h f List.mem_cons_self).advance position.node
        · exact h f' (List.mem_cons_of_mem f hf')

theorem Moved.within_current {m : Move} (hm : Moved w m j) (h : ∀ g ∈ w.current, g.Within H lost x) :
    ∀ g ∈ (w.perform m).current, g.Within H lost x := by
  cases hm with
  | next next current => exact current ▸ h
  | current next current => exact current.within h
  | both next current => exact current.within h
  | left next current rest =>
      intro g hg
      exact h g (current ▸ List.mem_cons_of_mem _ (rest ▸ hg))

theorem bounds_of_look {c : Cache} {g : Frame} {child : Node} {a : Name} (hgenuine : c.Genuine H)
    (hwithin : g.Within H lost x) (hg : g.At n (.ref d)) (hlook : (c.look H d).2 = .present child)
    (ha : a = child.least ∨ a = child.greatest) : Bounds H x a :=
  ⟨g.digest, n, d, child, hwithin.leads.mono (fun _ => False.elim), (hwithin.denotes n hg.node).1,
    Node.mem_refs.mpr hg.mem, Cache.denotes_of_look hgenuine hlook, ha⟩

/-- A move passes only what is done with, given that this holds of all that the current tree or
a tree known in full leads to, of the ends of ranges in the current tree, and of a name that is recorded
by the move. -/
theorem Covers.perform {c : Cache} {m : Move} (hgenuine : c.Genuine H)
    (h : Covers H lost x y S w) (hp : Planned H c w m f fs n j) (hS : ∀ a, S a → S' a)
    (hheld : ∀ i, Leads H lost (.ref x) i → i.Done lost S)
    (hknown : ∀ d, c.known d = true → ∀ i, Leads H lost (.ref d) i → i.Done lost S)
    (hbounds : ∀ a, Bounds H x a → S a) (hrecord : m = .record → ∀ a, j = .leaf a → S' a) :
    Covers H lost x y S' (w.perform m) := by
  refine h.passes hS ?_ (hp.moved.within_current h.current) (aside_perform w m)
  obtain ⟨hnext, hf, -, hchosen⟩ := hp
  have hpass : ∀ w' : Traversal, w'.next = w.next → (∀ i, Leads H lost j i → i.Done lost S') →
      Passed H lost (Item.Done lost S') y w.next w'.advanceNext.next := by
    intro w' hw' hj
    rw [next_advanceNext (hw'.trans hnext), hnext]
    exact .advance hf hj
  have hleaf : ∀ {a}, j = .leaf a → S' a → ∀ i, Leads H lost j i → i.Done lost S' := by
    rintro a rfl ha i hi
    rw [hi.of_leaf]
    exact ha
  have henter : ∀ (w' : Traversal) {d}, w'.next = w.next → j = .ref d →
      Passed H lost (Item.Done lost S') y w.next (w'.advanceNext.pushNext d).next := by
    rintro w' d hw' rfl
    rw [pushNext, next_advanceNext (hw'.trans hnext), hnext]
    exact .enter hf
  have hkeep : ∀ w' : Traversal, w'.next = w.next →
      Passed H lost (Item.Done lost S') y w.next w'.next := fun w' hw' => hw' ▸ .refl _
  have hcurrent : ∀ {g gs}, w.current = g :: gs → g.Within H lost x :=
    fun hw => h.current _ (hw ▸ List.mem_cons_self)
  generalize hw : w.current = current at hchosen
  cases hchosen with
  | known hd => exact hpass w rfl (fun i hi => Item.Done.mono hS (hknown _ hd i hi))
  | record => exact hpass w rfl (hleaf rfl (hrecord rfl _ rfl))
  | least position node =>
      have hbound := bounds_of_look hgenuine (hcurrent hw) position node (.inl rfl)
      exact hpass w rfl (hleaf rfl (hS _ (hbounds _ hbound)))
  | greatest position node =>
      have hbound := bounds_of_look hgenuine (hcurrent hw) position node (.inr rfl)
      exact hpass _ (next_advanceCurrent w) (hleaf rfl (hS _ (hbounds _ hbound)))
  | same position =>
      exact hpass _ (next_advanceCurrent w) (hleaf rfl (hS _ (hheld _ ((hcurrent hw).item position))))
  | share position =>
      refine hpass _ (next_advanceCurrent w) (fun i hi => Item.Done.mono hS (hheld i ?_))
      exact ((hcurrent hw).item position).trans hi
  | enterNext => exact henter w rfl rfl
  | enterBoth => exact henter _ (next_advanceCurrent w) rfl
  | enterCurrent => exact hkeep _ (next_advanceCurrent w)
  | skipCurrent => exact hkeep _ (next_advanceCurrent w)
  | leaveCurrent => exact hkeep _ rfl

end Traversal

end Reconcile

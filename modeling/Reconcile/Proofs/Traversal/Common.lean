import Reconcile.Proofs.Traversal.Outlook
import Reconcile.Proofs.Traversal.Underway

/-! # What two roots have in common is passed at once

The roots of two honest trees begin with the same references. Both sides of the traversal pass these
abreast, without entering any. After that no name below them is left on either side, so no frame ever
stands among them. -/

namespace Reconcile

variable {H : Hashing} {shared : List Digest} {d e x y : Digest} {n m : Node} {f : Frame}
  {fs fs' : List Frame} {i : Item} {k : Nat}

/-! ## Roots that begin with a row of references -/

/-- The honest tree under a digest has a root that begins with a row of references. -/
structure Begins (H : Hashing) (d : Digest) (shared : List Digest) : Prop where
  honest : Honest H d
  root : ∃ n rest, Denotes H d n ∧ n.items = shared.map .ref ++ rest

/-- One of a row of references leads to the digest. -/
def Beneath (H : Hashing) (shared : List Digest) (d : Digest) : Prop :=
  ∃ s ∈ shared, Leads H (fun _ => False) (.ref s) (.ref d)

/-- The names below a row of references. -/
noncomputable def namesUnder (H : Hashing) (shared : List Digest) : List Name :=
  shared.flatMap (namesBelow H)

/-- Below what a node with names leads to, there are names too. -/
theorem Leads.inhabited (inj : Function.Injective H) {i j : Item} (h : Leads H (fun _ => False) i j) :
    ∀ {d e}, i = .ref d → j = .ref e → Honest H d → namesBelow H d ≠ [] → namesBelow H e ≠ [] := by
  induction h with
  | refl i =>
      rintro d e rfl he - hne
      cases he
      exact hne
  | @into d' n j i kept denotes mem rest ih =>
      rintro d e hd rfl honest -
      obtain rfl := Item.ref.inj hd
      cases j with
      | leaf a => cases rest.of_leaf
      | ref d'' =>
          have hmem := Node.mem_refs.mpr mem
          exact ih rfl rfl (honest.branch inj denotes hmem) (honest.inhabited inj denotes hmem)

namespace Begins

variable (inj : Function.Injective H) (h : Begins H d shared) (hn : Denotes H d n)

include inj h hn

theorem items : ∃ rest, n.items = shared.map .ref ++ rest := by
  obtain ⟨m, rest, hm, hitems⟩ := h.root
  obtain rfl := hm.unique inj hn
  exact ⟨rest, hitems⟩

theorem mem_refs (hs : e ∈ shared) : e ∈ n.refs := by
  obtain ⟨rest, hitems⟩ := h.items inj hn
  refine Node.mem_refs.mpr ?_
  rw [hitems]
  exact List.mem_append_left rest (List.mem_map_of_mem hs)

theorem item_of_lt (hf : f.At n i) (hk : f.position < shared.length) :
    i = .ref shared[f.position] := by
  obtain ⟨rest, hitems⟩ := h.items inj hn
  have hitem := Frame.getElem?_of_item hf.node hf.item
  rw [hitems, List.getElem?_append_left (by simpa using hk)] at hitem
  simpa [hk, eq_comm] using hitem

/-- The names of the tree are those below the references and those of the other items. -/
theorem row : ∃ rest, namesBelow H d = namesUnder H shared ++ rest ∧
    (n.items.drop shared.length).flatMap (Item.row (namesBelow H)) = rest := by
  obtain ⟨rest, hitems⟩ := h.items inj hn
  refine ⟨rest.flatMap (Item.row (namesBelow H)), ?_, ?_⟩
  · rw [h.honest.names inj hn, Node.row, hitems, List.flatMap_append, List.flatMap_map]
    rfl
  · rw [hitems, List.drop_left' (by simp)]

end Begins

theorem Begins.node (h : Begins H d shared) : ∃ n, Denotes H d n := by
  obtain ⟨n, -, hn, -⟩ := h.root
  exact ⟨n, hn⟩

/-- The references are all different: each stands for names that come after those before. -/
theorem Begins.nodup (inj : Function.Injective H) (h : Begins H d shared) : shared.Nodup := by
  obtain ⟨n, hn⟩ := h.node
  obtain ⟨rest, hrow, -⟩ := h.row inj hn
  have hordered := hrow ▸ h.honest.ordered inj
  have hnames := (List.pairwise_append.mp hordered).1.imp ne_of_lt
  refine (List.nodup_flatMap.mp hnames).2.imp_of_mem ?_
  rintro s t hs - hdisjoint rfl
  obtain ⟨a, ha⟩ := List.exists_mem_of_ne_nil _ (h.honest.inhabited inj hn (h.mem_refs inj hn hs))
  exact hdisjoint ha ha

/-! ## What is beneath the references -/

/-- Names stand below whatever is beneath the references, and they are names below the references. -/
theorem Begins.names_of_beneath (inj : Function.Injective H) (h : Begins H d shared)
    (he : Beneath H shared e) :
    namesBelow H e ≠ [] ∧ ∀ a ∈ namesBelow H e, a ∈ namesUnder H shared := by
  obtain ⟨n, hn⟩ := h.node
  obtain ⟨s, hs, hleads⟩ := he
  have hmem := h.mem_refs inj hn hs
  have hhonest := h.honest.branch inj hn hmem
  refine ⟨hleads.inhabited inj rfl rfl hhonest (h.honest.inhabited inj hn hmem), ?_⟩
  intro a ha
  refine List.mem_flatMap.mpr ⟨s, hs, (hhonest.mem_namesBelow_iff inj).mpr ?_⟩
  exact hleads.trans (((hhonest.of_leads inj hleads).mem_namesBelow_iff inj).mp ha)

theorem Begins.not_beneath_of_disjoint (inj : Function.Injective H) (h : Begins H d shared)
    (hnames : ∀ a ∈ namesBelow H e, a ∉ namesUnder H shared) : ¬ Beneath H shared e := by
  intro he
  obtain ⟨hne, hsub⟩ := h.names_of_beneath inj he
  obtain ⟨a, ha⟩ := List.exists_mem_of_ne_nil _ hne
  exact hnames a ha (hsub a ha)

/-- The root is not beneath its own references. -/
theorem Begins.not_beneath (inj : Function.Injective H) (h : Begins H d shared) :
    ¬ Beneath H shared d := by
  obtain ⟨n, hn⟩ := h.node
  rintro ⟨s, hs, hleads⟩
  exact (h.honest.tree inj).not_leads_back inj hn (h.mem_refs inj hn hs) hleads

theorem Begins.disjoint (inj : Function.Injective H) (h : Begins H d shared) (hn : Denotes H d n) :
    ∀ a ∈ (n.items.drop shared.length).flatMap (Item.row (namesBelow H)),
      a ∉ namesUnder H shared := by
  obtain ⟨rest, hrow, hrest⟩ := h.row inj hn
  have hordered := hrow ▸ h.honest.ordered inj
  intro a ha hshared
  exact lt_irrefl a ((List.pairwise_append.mp hordered).2.2 a hshared a (hrest ▸ ha))

/-- Of the references of the root, none but the first ones is beneath them. -/
theorem Begins.mem_of_beneath (inj : Function.Injective H) (h : Begins H d shared)
    (hn : Denotes H d n) (he : e ∈ n.refs) (hbeneath : Beneath H shared e) : e ∈ shared := by
  obtain ⟨rest, hitems⟩ := h.items inj hn
  have hmem := Node.mem_refs.mp he
  rw [hitems] at hmem
  rcases List.mem_append.mp hmem with hmem | hmem
  · simpa using hmem
  · refine absurd hbeneath (h.not_beneath_of_disjoint inj ?_)
    intro a ha
    refine h.disjoint inj hn a (List.mem_flatMap.mpr ⟨.ref e, ?_, ha⟩)
    rwa [hitems, List.drop_left' (by simp)]

/-! ## One side -/

/-- A side that stands in the root of its tree and has passed so many items. -/
inductive AtRoot (H : Hashing) (d : Digest) (k : Nat) : List Frame → Prop
  | mk {f : Frame} (digest : f.digest = d) (position : f.position = k) (sound : f.Sound H) :
      AtRoot H d k [f]

/-- A side that has left the names below the references behind. Its frames stand in the root, or in
trees without such names. -/
structure Beyond (H : Hashing) (d : Digest) (shared : List Digest) (fs : List Frame) : Prop where
  sound : ∀ f ∈ fs, f.Sound H
  rest : ∀ a ∈ rest H fs, a ∉ namesUnder H shared
  frames : ∀ f ∈ fs, f.digest = d ∨ ∀ a ∈ namesBelow H f.digest, a ∉ namesUnder H shared

/-- What a frame has left are the names of the items from its position on, even if its node is yet to
come. -/
theorem Frame.Sound.rest_eq_drop (inj : Function.Injective H) (hf : f.Sound H)
    (hn : Denotes H f.digest n) :
    f.rest H = (n.items.drop f.position).flatMap (Item.row (namesBelow H)) := by
  cases hnode : f.node with
  | none =>
      rw [Frame.rest_eq_of_position_eq_zero inj hf (hf.start hnode), hf.start hnode,
        hf.honest.names inj hn]
      rfl
  | some m =>
      obtain rfl := (hf.denotes m hnode).unique inj hn
      simp only [Frame.rest, hnode]

theorem atRoot_start (hd : Honest H d) : AtRoot H d 0 [.start d] :=
  .mk rfl rfl (Frame.sound_start hd)

/-- A side that has passed all of the references is beyond them. -/
theorem AtRoot.beyond (inj : Function.Injective H) (h : Begins H d shared)
    (hroot : AtRoot H d shared.length fs) : Beyond H d shared fs := by
  obtain ⟨n, hn⟩ := h.node
  cases hroot with
  | @mk f digest position sound =>
      refine ⟨?_, ?_, ?_⟩
      · exact fun g hg => List.mem_singleton.mp hg ▸ sound
      · have hrest := sound.rest_eq_drop inj (digest ▸ hn)
        rw [position] at hrest
        rw [rest_cons, rest_nil, List.append_nil, hrest]
        exact h.disjoint inj hn
      · exact fun g hg => .inl (List.mem_singleton.mp hg ▸ digest)

namespace Beyond

theorem leave (h : Beyond H d shared (f :: fs)) : Beyond H d shared fs where
  sound g hg := h.sound g (List.mem_cons_of_mem f hg)
  rest a ha := h.rest a (List.mem_append_right _ ha)
  frames g hg := h.frames g (List.mem_cons_of_mem f hg)

/-- Whatever is passed, the names left are among those left before. -/
theorem passes {row : List Name} {last : Option Name} (h : Beyond H d shared fs)
    (hp : Passing H fs none row fs' last)
    (hframes : ∀ f ∈ fs', f.digest = d ∨ ∀ a ∈ namesBelow H f.digest, a ∉ namesUnder H shared) :
    Beyond H d shared fs' where
  sound := hp.sound h.sound
  rest a ha := h.rest a (hp.mem.mpr (.inr ha))
  frames := hframes

theorem resolve (inj : Function.Injective H) (h : Beyond H d shared (f :: fs)) (hnone : f.node = none)
    (hn : Denotes H f.digest n) : Beyond H d shared (f.resolve n :: fs) := by
  refine h.passes (passing_resolve inj hnone (h.sound f List.mem_cons_self) hn) ?_
  exact List.forall_mem_cons.mpr ⟨h.frames f List.mem_cons_self, h.leave.frames⟩

theorem advance (h : Beyond H d shared (f :: fs)) (hf : f.At n i) :
    Beyond H d shared (f.advance :: fs) := by
  refine h.passes (passing_advance hf) ?_
  exact List.forall_mem_cons.mpr ⟨h.frames f List.mem_cons_self, h.leave.frames⟩

/-- A reference is entered whose names were still to come. -/
theorem enter (inj : Function.Injective H) (h : Beyond H d shared (f :: fs))
    (hf : f.At n (.ref e)) : Beyond H d shared (.start e :: f.advance :: fs) := by
  refine h.passes (passing_enter inj hf) ?_
  refine List.forall_mem_cons.mpr ⟨.inr ?_, (h.advance hf).frames⟩
  intro a ha
  exact h.rest a (Traversal.mem_rest_of_row hf ha)

theorem shift (inj : Function.Injective H) (h : Beyond H d shared fs)
    (hs : Traversal.Shift fs i fs') : Beyond H d shared fs' := by
  cases hs with
  | pass position => exact h.advance position
  | enter position => exact h.enter inj position

theorem not_beneath (inj : Function.Injective H) (hd : Begins H d shared) (h : Beyond H d shared fs)
    (hf : f ∈ fs) : ¬ Beneath H shared f.digest := by
  rcases h.frames f hf with hroot | hnames
  · rw [hroot]
    exact hd.not_beneath inj
  · exact hd.not_beneath_of_disjoint inj hnames

end Beyond

theorem AtRoot.not_beneath (inj : Function.Injective H) (hd : Begins H d shared)
    (h : AtRoot H d k fs) (hf : f ∈ fs) : ¬ Beneath H shared f.digest := by
  cases h with
  | mk digest =>
      rw [List.mem_singleton.mp hf, digest]
      exact hd.not_beneath inj

theorem AtRoot.resolve (h : AtRoot H d k (f :: fs)) (hn : Denotes H f.digest n) :
    AtRoot H d k (f.resolve n :: fs) := by
  cases h with
  | mk digest position sound => exact .mk digest position (sound.resolve hn)

theorem AtRoot.advance (h : AtRoot H d k (f :: fs)) (hf : f.At n i) :
    AtRoot H d (k + 1) (f.advance :: fs) := by
  cases h with
  | mk digest position sound =>
      exact .mk digest (congrArg (· + 1) position) (sound.advance (by simp [hf.node]))

/-- Among the references the root is not through. -/
theorem AtRoot.not_isThrough (inj : Function.Injective H) (hd : Begins H d shared)
    (h : AtRoot H d k (f :: fs)) (hk : k < shared.length) (hn : f.node = some n) :
    f.isThrough = false := by
  cases h with
  | mk digest position sound =>
      obtain ⟨rest, hitems⟩ := hd.items inj (digest ▸ sound.denotes n hn)
      simp only [Frame.isThrough, hn, Option.any_some, Node.size, hitems, position]
      simp
      omega

/-- Among the references the side is at one of them. -/
theorem AtRoot.exists_at (inj : Function.Injective H) (hd : Begins H d shared)
    (h : AtRoot H d k fs) (hk : k < shared.length) (hready : Traversal.Ready fs) :
    ∃ f n, fs = [f] ∧ f.At n (.ref shared[k]) := by
  cases h with
  | @mk f digest position sound =>
      obtain ⟨hnode, hleft⟩ := hready f rfl
      obtain ⟨n, i, hn, hi⟩ := Frame.exists_item hnode hleft
      subst position
      obtain rfl := hd.item_of_lt inj (digest ▸ sound.denotes n hn) ⟨hn, hi⟩ hk
      exact ⟨f, n, rfl, hn, hi⟩

/-- If no more is known than the references before, the next of them is not. -/
theorem Begins.unknown_of_passed (inj : Function.Injective H) (hd : Begins H d shared)
    (hk : k < shared.length) {known : Digest → Bool}
    (passed : ∀ e, known e = true → e ∈ shared.take k) : known shared[k] = false := by
  refine Bool.eq_false_iff.mpr (fun hknown => ?_)
  have hnodup := (List.take_sublist (k + 1) shared).nodup (hd.nodup inj)
  rw [← List.take_append_getElem hk] at hnodup
  exact List.disjoint_of_nodup_append hnodup (passed _ hknown) (List.mem_singleton_self _)

/-! ## Both sides -/

namespace Traversal

/-- A traversal that keeps clear of what the roots of `x` and `y` both begin with. While it passes
these references, nothing else is known. -/
inductive Clears (H : Hashing) (x y : Digest) (shared : List Digest) (known : Digest → Bool)
    (w : Traversal) : Prop
  | abreast {k : Nat} (lt : k < shared.length) (next : AtRoot H y k w.next)
      (current : AtRoot H x k w.current) (passed : ∀ d, known d = true → d ∈ shared.take k) :
      Clears H x y shared known w
  | beyond (next : Beyond H y shared w.next) (current : Beyond H x shared w.current) :
      Clears H x y shared known w

variable {c c' : Cache} {w : Traversal} {j : Item} {known known' : Digest → Bool} {move : Move}

/-- The same reference at both positions is shared, unless it is known. -/
theorem plan_share {g : Frame} {gs : List Frame} (hnext : w.next = f :: fs) (hf : f.At n (.ref d))
    (hcurrent : w.current = g :: gs) (hg : g.At m (.ref d)) (hd : c.known d = false) :
    plan H c w = (c, .ok (.share d)) := by
  simp [plan, hnext, hcurrent, top_of_at .next hf, top_of_at .current hg, isKnown, hd, checkItem,
    compare]

section Clears

variable (inj : Function.Injective H)

include inj

theorem clears_of_atRoot (hx : Begins H x shared) (hy : Begins H y shared)
    (hk : k ≤ shared.length) (next : AtRoot H y k w.next) (current : AtRoot H x k w.current)
    (passed : ∀ d, known d = true → d ∈ shared.take k) : Clears H x y shared known w := by
  rcases Nat.lt_or_eq_of_le hk with hlt | rfl
  · exact .abreast hlt next current passed
  · exact .beyond (next.beyond inj hy) (current.beyond inj hx)

theorem clears_begin (hx : Begins H x shared) (hy : Begins H y shared)
    (hknown : ∀ d, known d = false) : Clears H x y shared known (begin (some x) y) := by
  refine clears_of_atRoot inj hx hy (Nat.zero_le _) (atRoot_start hy.honest)
    (atRoot_start hx.honest) ?_
  intro d hd
  cases (hknown d).symm.trans hd

namespace Clears

theorem not_beneath (hx : Begins H x shared) (hy : Begins H y shared)
    (h : Clears H x y shared known w) (hf : f ∈ w.next ∨ f ∈ w.current) :
    ¬ Beneath H shared f.digest := by
  cases h with
  | abreast lt next current passed =>
      exact hf.elim (next.not_beneath inj hy) (current.not_beneath inj hx)
  | beyond next current => exact hf.elim (next.not_beneath inj hy) (current.not_beneath inj hx)

/-- The node of the next side comes. -/
theorem resolveNext (h : Clears H x y shared known w) (hnext : w.next = f :: fs)
    (hnone : f.node = none) (hn : Denotes H f.digest n) :
    Clears H x y shared known { w with next := f.resolve n :: fs } := by
  cases h with
  | abreast lt next current passed => exact .abreast lt ((hnext ▸ next).resolve hn) current passed
  | beyond next current => exact .beyond ((hnext ▸ next).resolve inj hnone hn) current

theorem resolveCurrent (h : Clears H x y shared known w) (hcurrent : w.current = f :: fs)
    (hnone : f.node = none) (hn : Denotes H f.digest n) :
    Clears H x y shared known { w with current := f.resolve n :: fs } := by
  cases h with
  | abreast lt next current passed =>
      exact .abreast lt next ((hcurrent ▸ current).resolve hn) passed
  | beyond next current => exact .beyond next ((hcurrent ▸ current).resolve inj hnone hn)

/-- A node of the next side is left that is through. -/
theorem leaveNext (hy : Begins H y shared) (h : Clears H x y shared known w) (hnext : w.next = f :: fs)
    (hn : f.node = some n) (hthrough : f.isThrough = true) :
    Clears H x y shared known' { w with next := fs } := by
  cases h with
  | abreast lt next current passed =>
      cases ((hnext ▸ next).not_isThrough inj hy lt hn).symm.trans hthrough
  | beyond next current => exact .beyond (hnext ▸ next).leave current

theorem leaveCurrent (hx : Begins H x shared) (h : Clears H x y shared known w)
    (hcurrent : w.current = f :: fs)
    (hn : f.node = some n) (hthrough : f.isThrough = true) :
    Clears H x y shared known { w with current := fs } := by
  cases h with
  | abreast lt next current passed =>
      cases ((hcurrent ▸ current).not_isThrough inj hx lt hn).symm.trans hthrough
  | beyond next current => exact .beyond next (hcurrent ▸ current).leave

/-- A tree that is known in full is passed. It is not the next root. -/
theorem passKnown (hy : Begins H y shared) (h : Clears H x y shared known w) (hnext : w.next = f :: fs)
    (hknown : known f.digest = true) : Clears H x y shared known { w with next := fs } := by
  cases h with
  | abreast lt next current passed =>
      have hbeneath : Beneath H shared f.digest :=
        ⟨f.digest, List.mem_of_mem_take (passed _ hknown), .refl _⟩
      exact absurd hbeneath (next.not_beneath inj hy (hnext ▸ List.mem_cons_self))
  | beyond next current => exact .beyond (hnext ▸ next).leave current

/-- Abreast, both sides pass the next of the references, which is known from then on. -/
theorem perform_abreast (hx : Begins H x shared) (hy : Begins H y shared) (hk : k < shared.length)
    (next : AtRoot H y k w.next) (current : AtRoot H x k w.current)
    (passed : ∀ d, c.known d = true → d ∈ shared.take k) (hmeets : w.Meets) :
    plan H c w = (c, .ok (.share shared[k])) ∧
      ∀ known', (∀ e, known' e = true → e = shared[k] ∨ c.known e = true) →
        Clears H x y shared known' (w.perform (.share shared[k])) := by
  obtain ⟨f, n, hnext, hf⟩ := next.exists_at inj hy hk hmeets.next
  obtain ⟨g, m, hcurrent, hg⟩ := current.exists_at inj hx hk hmeets.current
  refine ⟨plan_share hnext hf hcurrent hg (hy.unknown_of_passed inj hk passed), ?_⟩
  intro known' hknown'
  refine clears_of_atRoot inj hx hy (k := k + 1) hk ?_ ?_ ?_
  · rw [Traversal.perform, next_advanceNext ((next_advanceCurrent w).trans hnext)]
    exact (hnext ▸ next).advance hf
  · rw [Traversal.perform, current_advanceNext, current_advanceCurrent hcurrent]
    exact (hcurrent ▸ current).advance hg
  · intro e he
    rw [← List.take_append_getElem hk]
    rcases hknown' e he with rfl | he
    · exact List.mem_append_right _ (List.mem_singleton_self _)
    · exact List.mem_append_left _ (passed e he)

/-- A move either shares the next of the references, or was made beyond them all. -/
theorem perform (hx : Begins H x shared) (hy : Begins H y shared)
    (h : Clears H x y shared c.known w) (hplan : plan H c w = (c', .ok move))
    (hp : Planned H c w move f fs n j) (hmeets : w.Meets) :
    (∃ d, move = .share d ∧ c' = c ∧
      ∀ known', (∀ e, known' e = true → e = d ∨ c.known e = true) →
        Clears H x y shared known' (w.perform move)) ∨
      ∀ known', Clears H x y shared known' (w.perform move) := by
  cases h with
  | @abreast k lt next current passed =>
      obtain ⟨hshare, hclears⟩ := perform_abreast inj hx hy lt next current passed hmeets
      obtain ⟨rfl, hmove⟩ := Prod.mk.inj (hplan.symm.trans hshare)
      obtain rfl := Except.ok.inj hmove
      exact .inl ⟨shared[k], rfl, rfl, hclears⟩
  | beyond next current =>
      refine .inr (fun known' => ?_)
      cases hp.moved with
      | next hnext hcurrent => exact .beyond (next.shift inj hnext) (hcurrent ▸ current)
      | current hnext hcurrent => exact .beyond (hnext ▸ next) (current.shift inj hcurrent)
      | both hnext hcurrent => exact .beyond (next.shift inj hnext) (current.shift inj hcurrent)
      | left hnext hcurrent hrest =>
          exact .beyond (hnext ▸ next) (hrest ▸ (hcurrent ▸ current).leave)

end Clears

end Clears

end Traversal

end Reconcile

import Mathlib.Data.List.Nodup
import Reconcile.Proofs.Traversal.Plan

/-! # A traversal loses no name on its way

Of every name of the next tree, a traversal under way can tell that it is accounted for, or has it
still to come: in the row before it or in a branch that was put aside. No name comes twice. -/

namespace Reconcile.Traversal

variable {H : Hashing}

/-- The names that are still to come. -/
noncomputable def pending (H : Hashing) (w : Traversal) : List Name :=
  rest H w.next ++ w.aside.flatMap (namesBelow H)

/-- A traversal of the tree `y` beside one with the names `X`. Names that satisfy `A` are accounted
for; `found` are those found new so far. -/
structure Underway (H : Hashing) (X : List Name) (A : Name → Prop) (found : List Name) (y : Digest)
    (w : Traversal) : Prop where
  walk : Walk H X w
  aside : ∀ d ∈ w.aside, Honest H d
  mem : ∀ a ∈ w.pending H, a ∈ namesBelow H y
  nodup : (w.pending H).Nodup
  covered : ∀ a ∈ namesBelow H y, A a ∨ a ∈ w.pending H
  settled : Settled H A [] w.next
  found : ∀ a ∈ found, a ∉ w.pending H

variable {X : List Name} {A A' : Name → Prop} {found found' : List Name} {y : Digest}
  {w w' : Traversal} {p q : List Name}

theorem Passes.pending_eq (h : Passes H w w' p q) : w.pending H = p ++ w'.pending H := by
  rw [pending, pending, h.next.rest_eq, h.aside, List.append_assoc]

/-- Passing names that are accounted for. -/
theorem Underway.passes (h : Underway H X A found y w) (hp : Passes H w w' p q)
    (hA : ∀ a, A a → A' a) (hpA : ∀ a ∈ p, A' a) (hfound : ∀ a ∈ found', a ∈ found ∨ a ∈ p) :
    Underway H X A' found' y w' := by
  have hpending := hp.pending_eq
  have hnodup := hpending ▸ h.nodup
  refine ⟨h.walk.passes hp, hp.aside ▸ h.aside, ?_, hnodup.of_append_right, ?_, ?_, ?_⟩
  · intro a ha
    exact h.mem a (hpending ▸ List.mem_append_right p ha)
  · intro a ha
    rcases h.covered a ha with ha | ha
    · exact .inl (hA a ha)
    · rcases List.mem_append.mp (hpending ▸ ha) with ha | ha
      · exact .inl (hpA a ha)
      · exact .inr ha
  · exact hp.next.settled A' (h.settled.mono hA (fun a ha => nomatch ha)) hpA
  · intro a ha ha'
    rcases hfound a ha with ha | ha
    · exact h.found a ha (hpending ▸ List.mem_append_right p ha')
    · exact List.disjoint_of_nodup_append hnodup ha ha'

/-- Passing nothing, or only what was accounted for before. -/
theorem Underway.passes_same (h : Underway H X A found y w) (hp : Passes H w w' p q)
    (hpA : ∀ a ∈ p, A a) : Underway H X A found y w' :=
  h.passes hp (fun _ => id) hpA (fun _ => .inl)

/-- When nothing is left, every name is accounted for. -/
theorem Underway.accounted (h : Underway H X A found y w) (hnext : w.next = [])
    (haside : w.aside = []) : ∀ a ∈ namesBelow H y, A a := by
  intro a ha
  rcases h.covered a ha with ha | ha
  · exact ha
  · simp [pending, hnext, haside] at ha

/-- A traversal of an honest tree begins with all its names still to come. -/
theorem underway_begin (inj : Function.Injective H) {baseline : Option Digest} {y : Digest}
    (A : Name → Prop) (hbaseline : ∀ d ∈ baseline, Honest H d) (hy : Honest H y) :
    Underway H (heldNames H baseline) A [] y (begin baseline y) := by
  have hnext : rest H (begin baseline y).next = namesBelow H y := by simp [begin]
  have hcurrent : rest H (begin baseline y).current = heldNames H baseline := by
    cases baseline <;> simp [begin]
  have hpending : (begin baseline y).pending H = namesBelow H y := by
    rw [pending, hnext]
    exact List.append_nil _
  have hheld : (heldNames H baseline).Pairwise (· < ·) := by
    cases baseline with
    | none => exact .nil
    | some d => exact (hbaseline d rfl).ordered inj
  refine ⟨⟨⟨?_, ?_, ?_⟩, ⟨?_, ?_, ?_⟩, ?_, ?_⟩, ?_, ?_, ?_, ?_, ?_, ?_⟩
  · intro f hf
    obtain rfl := List.mem_singleton.mp hf
    exact Frame.sound_start hy
  · exact hnext ▸ hy.ordered inj
  · intro a ha
    cases ha
  · intro f hf
    cases baseline with
    | none => cases hf
    | some d =>
        obtain rfl := List.mem_singleton.mp hf
        exact Frame.sound_start (hbaseline d rfl)
  · exact hcurrent ▸ hheld
  · intro a ha
    cases ha
  · exact fun a ha => hcurrent ▸ ha
  · exact fun a _ hX => hcurrent ▸ hX
  · intro d hd
    cases hd
  · exact fun a ha => hpending ▸ ha
  · exact hpending ▸ (hy.ordered inj).imp ne_of_lt
  · exact fun a ha => .inr (hpending ▸ ha)
  · exact ⟨fun _ a ha => .inr ha, trivial⟩
  · intro a ha
    cases ha

/-! ## Steps that stay where they are -/

section Steps

variable {f : Frame} {above : List Frame} {n : Node}

theorem Underway.resolveNext (inj : Function.Injective H) (h : Underway H X A found y w)
    (hnext : w.next = f :: above) (hnone : f.node = none) (hn : Denotes H f.digest n) :
    Underway H X A found y { w with next := f.resolve n :: above } := by
  have hsound : f.Sound H := h.walk.next.sound f (hnext ▸ List.mem_cons_self)
  refine h.passes_same (p := []) (q := []) ⟨?_, .refl _ _, rfl, by simp⟩ (by simp)
  rw [hnext]
  exact passing_resolve inj hnone hsound hn

theorem Underway.resolveCurrent (inj : Function.Injective H) (h : Underway H X A found y w)
    (hcurrent : w.current = f :: above) (hnone : f.node = none) (hn : Denotes H f.digest n) :
    Underway H X A found y { w with current := f.resolve n :: above } := by
  have hsound : f.Sound H := h.walk.current.sound f (hcurrent ▸ List.mem_cons_self)
  refine h.passes_same (p := []) (q := []) ⟨.refl _ _, ?_, rfl, by simp⟩ (by simp)
  rw [hcurrent]
  exact passing_resolve inj hnone hsound hn

theorem Underway.leaveCurrent (h : Underway H X A found y w) (hcurrent : w.current = f :: above)
    (hthrough : f.isThrough = true) : Underway H X A found y { w with current := above } := by
  have hrest : f.rest H = [] := Frame.rest_of_isThrough hthrough
  refine h.passes_same (p := []) (q := f.rest H) ⟨.refl _ _, ?_, rfl, by simp [hrest]⟩ (by simp)
  rw [hcurrent]
  exact passing_leave

/-- All that is left of the innermost node of the next tree is accounted for. -/
theorem Underway.leaveNext (h : Underway H X A found y w) (hnext : w.next = f :: above)
    (hf : ∀ a ∈ f.rest H, A a) : Underway H X A found y { w with next := above } := by
  refine h.passes_same (p := f.rest H) (q := []) ⟨?_, .refl _ _, rfl, by simp⟩ hf
  rw [hnext]
  exact passing_leave

/-- A node that is through without a branch put aside has only names that are accounted for. -/
theorem Underway.accounted_of_isThrough (h : Underway H X A found y w)
    (hnext : w.next = f :: above) (hthrough : f.isThrough = true)
    (hcomplete : f.incomplete = false) : ∀ a ∈ namesBelow H f.digest, A a := by
  have hsettled : Settled H A [] (f :: above) := hnext ▸ h.settled
  intro a ha
  rcases hsettled.1 hcomplete a ha with ha | ha
  · exact ha
  · simp [Frame.rest_of_isThrough hthrough] at ha

end Steps

/-! ## Branches that are put aside -/

section Aside

variable {f : Frame} {above : List Frame}

theorem next_putAside (hnext : w.next = f :: above) (branch : Digest) :
    (w.putAside branch).next = above.map Frame.markIncomplete := by
  rw [putAside, hnext, List.tail_cons]

theorem mem_aside_putAside {d branch : Digest} :
    d ∈ (w.putAside branch).aside ↔ d ∈ w.aside ∨ d = branch := by
  simp only [putAside]
  split
  · rename_i hcontains
    have hbranch : branch ∈ w.aside := by simpa using hcontains
    constructor
    · exact .inl
    · rintro (hd | rfl)
      · exact hd
      · exact hbranch
  · rw [List.mem_append, List.mem_singleton]

/-- The names of a branch that is put aside move to the end of those to come, where they may stand
already. -/
theorem pending_putAside (inj : Function.Injective H) (hnext : w.next = f :: above)
    (hsound : f.Sound H) (hnone : f.node = none) :
    (∀ a, a ∈ (w.putAside f.digest).pending H ↔ a ∈ w.pending H) ∧
      ((w.pending H).Nodup → ((w.putAside f.digest).pending H).Nodup) := by
  have hrest : f.rest H = namesBelow H f.digest :=
    Frame.rest_eq_of_position_eq_zero inj hsound (hsound.start hnone)
  have hpending : w.pending H =
      namesBelow H f.digest ++ (rest H above ++ w.aside.flatMap (namesBelow H)) := by
    rw [pending, hnext, rest_cons, hrest, List.append_assoc]
  have hpending' : (w.putAside f.digest).pending H =
      rest H above ++ (w.putAside f.digest).aside.flatMap (namesBelow H) := by
    rw [pending, next_putAside hnext, rest_markIncomplete]
  constructor
  · intro a
    simp only [hpending, hpending', List.mem_append, List.mem_flatMap, mem_aside_putAside]
    constructor
    · rintro (ha | ⟨d, hd | rfl, ha⟩)
      · exact .inr (.inl ha)
      · exact .inr (.inr ⟨d, hd, ha⟩)
      · exact .inl ha
    · rintro (ha | ha | ⟨d, hd, ha⟩)
      · exact .inr ⟨f.digest, .inr rfl, ha⟩
      · exact .inl ha
      · exact .inr ⟨d, .inl hd, ha⟩
  · intro hnodup
    rw [hpending] at hnodup
    rw [hpending', putAside]
    dsimp only
    split
    · exact hnodup.of_append_right
    · rw [List.flatMap_append, List.flatMap_singleton, ← List.append_assoc]
      exact List.perm_append_comm.nodup hnodup

/-- Putting a branch aside keeps its names to come, but what is left of the nodes above it cannot
account for all of their names any more. -/
theorem Underway.putAside (inj : Function.Injective H) (h : Underway H X A found y w)
    (hnext : w.next = f :: above) (hnone : f.node = none) :
    Underway H X A found y (w.putAside f.digest) := by
  have hsound : f.Sound H := h.walk.next.sound f (hnext ▸ List.mem_cons_self)
  obtain ⟨hmem, hnodup⟩ := pending_putAside inj hnext hsound hnone
  have hleft : Walk H X { w with next := above } := by
    refine h.walk.passes (p := f.rest H) (q := []) ⟨?_, .refl _ _, rfl, by simp⟩
    rw [hnext]
    exact passing_leave
  have hnext' := next_putAside hnext f.digest
  have hrest' : rest H (w.putAside f.digest).next = rest H above := by
    rw [hnext', rest_markIncomplete]
  have hpath : Path H (w.putAside f.digest).next (w.putAside f.digest).lastNext := by
    refine ⟨?_, hrest' ▸ hleft.next.ordered, fun a ha b hb => ?_⟩
    · intro g hg
      rw [hnext'] at hg
      obtain ⟨g', hg', rfl⟩ := List.mem_map.mp hg
      exact (hleft.next.sound g' hg').markIncomplete
    · exact hleft.next.last_lt a ha b (hrest' ▸ hb)
  have hwalk : Walk H X (w.putAside f.digest) :=
    ⟨hpath, hleft.current, hleft.held, fun a ha => hleft.synced a (hrest' ▸ ha)⟩
  refine ⟨hwalk, ?_, ?_, hnodup h.nodup, ?_, ?_, ?_⟩
  · intro d hd
    rcases mem_aside_putAside.mp hd with hd | rfl
    · exact h.aside d hd
    · exact hsound.honest
  · intro a ha
    exact h.mem a ((hmem a).mp ha)
  · intro a ha
    exact (h.covered a ha).imp_right (hmem a).mpr
  · rw [hnext']
    exact settled_markIncomplete A [] above
  · intro a ha ha'
    exact h.found a ha ((hmem a).mp ha')

/-- Walking a branch that was put aside, from the start of the current tree. -/
theorem Underway.restart (inj : Function.Injective H) {baseline : Option Digest}
    (h : Underway H (heldNames H baseline) A found y w) (hbaseline : ∀ d ∈ baseline, Honest H d)
    (hnext : w.next = []) {d : Digest} (hd : d ∈ w.aside) :
    Underway H (heldNames H baseline) A found y (w.restart baseline d) := by
  have hbegin := underway_begin inj A hbaseline (h.aside d hd)
  have hperm : (w.pending H).Perm ((w.restart baseline d).pending H) := by
    have hstart : rest H (w.restart baseline d).next = namesBelow H d := by
      simp [Traversal.restart, begin]
    rw [pending, pending, hstart, hnext]
    exact (List.perm_cons_erase hd).flatMap_right (namesBelow H)
  have hwalk := hbegin.walk
  refine ⟨⟨hwalk.next, hwalk.current, hwalk.held, hwalk.synced⟩, ?_, ?_, hperm.nodup h.nodup, ?_,
    hbegin.settled, ?_⟩
  · intro e he
    exact h.aside e (List.mem_of_mem_erase he)
  · intro a ha
    exact h.mem a (hperm.mem_iff.mpr ha)
  · intro a ha
    exact (h.covered a ha).imp_right hperm.mem_iff.mp
  · intro a ha ha'
    exact h.found a ha (hperm.mem_iff.mpr ha')

end Aside

end Reconcile.Traversal

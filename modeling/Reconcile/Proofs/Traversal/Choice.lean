import Reconcile.Proofs.Traversal.Merge

/-! # What a plan can be

Nothing is assumed here of the trees: the cases of a plan, with all that it saw at the two innermost
positions and all that it checked. -/

namespace Reconcile.Traversal

variable {H : Hashing} {c c' : Cache} {w : Traversal} {m : Move} {j : Item}

/-- How a move comes from the item `j` of the next tree and the positions in the current one. -/
inductive Chosen (H : Hashing) (c : Cache) : List Frame → Item → Move → Prop
  | known {current : List Frame} {d : Digest} (known : c.known d = true) :
      Chosen H c current (.ref d) .skipNext
  | record {current : List Frame} {a : Name} : Chosen H c current (.leaf a) .record
  | enterNext {current : List Frame} {d : Digest} : Chosen H c current (.ref d) (.enterNext d)
  | same {g : Frame} {gs : List Frame} {n : Node} {a : Name} (position : g.At n (.leaf a)) :
      Chosen H c (g :: gs) (.leaf a) .skipBoth
  | least {g : Frame} {gs : List Frame} {n child : Node} {x : Digest}
      (position : g.At n (.ref x)) (node : (c.look H x).2 = .present child) :
      Chosen H c (g :: gs) (.leaf child.least) .skipNext
  | greatest {g : Frame} {gs : List Frame} {n child : Node} {x : Digest}
      (position : g.At n (.ref x)) (node : (c.look H x).2 = .present child) :
      Chosen H c (g :: gs) (.leaf child.greatest) .skipBoth
  | share {g : Frame} {gs : List Frame} {n : Node} {d : Digest} (position : g.At n (.ref d)) :
      Chosen H c (g :: gs) (.ref d) (.share d)
  | enterBoth {g : Frame} {gs : List Frame} {n : Node} {x y : Digest}
      (position : g.At n (.ref x)) : Chosen H c (g :: gs) (.ref y) (.enterBoth x y)
  | enterCurrent {g : Frame} {gs : List Frame} {n : Node} {x : Digest} {a : Name}
      (position : g.At n (.ref x)) : Chosen H c (g :: gs) (.leaf a) (.enterCurrent x)
  | skipCurrent {g : Frame} {gs : List Frame} {n : Node} {i j : Item} (position : g.At n i) :
      Chosen H c (g :: gs) j .skipCurrent
  | leaveCurrent {g : Frame} {gs : List Frame} {n : Node} {i : Item} {a : Name}
      (position : g.At n i) : Chosen H c (g :: gs) (.leaf a) .leaveCurrent

/-- The name of an item comes after the last one. -/
def Follows (last : Option Name) (i : Item) : Prop := ∀ a, i = .leaf a → ∀ b ∈ last, b < a

/-- A plan for the innermost frame `f` of the next tree, which is at the item `j` of the node `n`. -/
structure Planned (H : Hashing) (c : Cache) (w : Traversal) (m : Move) (f : Frame)
    (fs : List Frame) (n : Node) (j : Item) : Prop where
  next : w.next = f :: fs
  position : f.At n j
  follows : Follows w.lastNext j
  chosen : Chosen H c w.current j m

/-! ## Looking -/

/-- Planning changes the cache only by a look. -/
theorem plan_fst (H : Hashing) (c : Cache) (w : Traversal) :
    (plan H c w).1 = c ∨ ∃ d, (plan H c w).1 = (c.look H d).1 := by
  have hnode : ∀ d, (nodeOf H c d).1 = (c.look H d).1 := by
    intro d
    unfold nodeOf
    split <;> rename_i h <;> rw [h]
  have hcompare : ∀ position n i j, (compare H c position n i j).1 = c ∨
      ∃ d, (compare H c position n i j).1 = (c.look H d).1 := by
    intro position n i j
    cases i with
    | ref x =>
        cases j with
        | ref y => exact .inl rfl
        | leaf a => exact .inr ⟨x, hnode x⟩
    | leaf a =>
        cases j with
        | leaf b => exact .inl rfl
        | ref y =>
            refine .inr ⟨y, ?_⟩
            have hy := hnode y
            simp only [compare]
            split <;> rename_i h <;> rw [h] at hy <;> exact hy
  unfold plan
  split
  · exact .inl rfl
  · split
    · exact .inl rfl
    · split_ifs
      · exact .inl rfl
      · split
        · exact .inl rfl
        · split
          · exact .inl rfl
          · split
            · exact .inl rfl
            · split
              · exact .inl rfl
              · exact hcompare _ _ _ _

theorem keeps_plan (H : Hashing) (c : Cache) (w : Traversal) : Cache.Keeps H c (plan H c w).1 := by
  rcases plan_fst H c w with hplan | ⟨d, hplan⟩
  · rw [hplan]
    exact .refl c
  · rw [hplan]
    exact Cache.keeps_look c d

theorem keeps_of_plan {result : Except Fault Move} (h : plan H c w = (c', result)) :
    Cache.Keeps H c c' := by
  have hkeeps := keeps_plan H c w
  rwa [h] at hkeeps

theorem look_of_nodeOf {d : Digest} {n : Node} (h : (nodeOf H c d).2 = some n) :
    (c.look H d).2 = .present n := by
  unfold nodeOf at h
  split at h
  · rename_i c' node hlook
    obtain rfl := Option.some.inj h
    rw [hlook]
  · cases h

/-! ## The cases -/

theorem chosen_alone (current : List Frame) (j : Item) : Chosen H c current j (alone j) := by
  cases j with
  | leaf a => exact .record
  | ref d => exact .enterNext

theorem chosen_againstRange {g : Frame} {gs : List Frame} {n : Node} {x : Digest} {a : Name}
    (position : g.At n (.ref x)) {child : Option Node}
    (hchild : ∀ node ∈ child, (c.look H x).2 = .present node) :
    Chosen H c (g :: gs) (.leaf a) (againstRange x a child) := by
  cases child with
  | none => exact .enterCurrent position
  | some node =>
      have hnode := hchild node rfl
      simp only [againstRange]
      split_ifs with hbefore hleast hafter hgreatest
      · exact .record
      · exact hleast ▸ .least position hnode
      · exact .skipCurrent position
      · exact hgreatest ▸ .greatest position hnode
      · exact .enterCurrent position

theorem chosen_betweenLeaves {g : Frame} {gs : List Frame} {n : Node} {a b : Name}
    (position : g.At n (.leaf a)) :
    Chosen H c (g :: gs) (.leaf b) (betweenLeaves g.position n a b) := by
  unfold betweenLeaves
  split_ifs with hleave heq hlt
  · exact .leaveCurrent position
  · exact heq ▸ .same position
  · exact .record
  · exact .skipCurrent position

theorem chosen_compare {g : Frame} {gs : List Frame} {n : Node} {i : Item}
    (position : g.At n i) (j : Item) :
    Chosen H c (g :: gs) j (compare H c g.position n i j).2 := by
  cases i with
  | ref x =>
      cases j with
      | leaf b => exact chosen_againstRange position (fun node hnode => look_of_nodeOf hnode)
      | ref y =>
          simp only [compare]
          split_ifs with hxy
          · exact .share (hxy ▸ position)
          · exact .enterBoth position
  | leaf a =>
      cases j with
      | leaf b => exact chosen_betweenLeaves position
      | ref y =>
          simp only [compare]
          split
          · dsimp only
            split_ifs
            · exact .skipCurrent position
            · exact .enterNext
          · exact .enterNext

theorem at_of_top {side : Side} {f : Frame} {n : Node} {i : Item} (h : top side f = .ok (n, i)) :
    f.At n i := by
  unfold top at h
  split at h
  · cases h
  · cases h
  · rename_i node item hnode hitem
    obtain ⟨rfl, rfl⟩ := Prod.mk.inj (Except.ok.inj h)
    exact ⟨hnode, hitem⟩

theorem follows_of_checkItem {side : Side} {n : Node} {last : Option Name} {i : Item}
    (h : checkItem side n last i = .ok ()) : Follows last i := by
  rintro a rfl b hb
  obtain rfl : last = some b := hb
  simp only [checkItem, checkName] at h
  split at h
  · cases h
  · split at h
    · cases h
    · rename_i hlast
      simpa using hlast

/-- A plan that does not fail is one of the cases. -/
theorem planned_of_plan (h : plan H c w = (c', .ok m)) :
    ∃ f fs n j, Planned H c w m f fs n j := by
  unfold plan at h
  split at h
  · cases h
  · rename_i f fs hnext
    split at h
    · cases h
    · rename_i n j htop
      have hf := at_of_top htop
      split at h
      · rename_i hknown
        obtain rfl : Move.skipNext = m := Except.ok.inj (Prod.mk.inj h).2
        cases j with
        | leaf a => cases hknown
        | ref d =>
            refine ⟨f, fs, n, .ref d, hnext, hf, ?_, .known hknown⟩
            intro a ha
            cases ha
      · split at h
        · cases h
        · rename_i hcheck
          have hfollows := follows_of_checkItem hcheck
          split at h
          · obtain rfl : alone j = m := Except.ok.inj (Prod.mk.inj h).2
            exact ⟨f, fs, n, j, hnext, hf, hfollows, chosen_alone _ j⟩
          · rename_i g gs hcurrent
            split at h
            · cases h
            · rename_i n' i htop'
              have hg := at_of_top htop'
              split at h
              · cases h
              · obtain rfl : (compare H c g.position n' i j).2 = m :=
                  Except.ok.inj (Prod.mk.inj h).2
                exact ⟨f, fs, n, j, hnext, hf, hfollows, hcurrent ▸ chosen_compare hg j⟩

/-! ## What a move does -/

section Moves

variable {f g : Frame} {fs gs : List Frame} {n : Node} {i : Item}

theorem next_advanceNext (hnext : w.next = f :: fs) :
    w.advanceNext.next = f.advance :: fs := by
  simp only [advanceNext, hnext]

theorem current_advanceNext (w : Traversal) : w.advanceNext.current = w.current := by
  unfold advanceNext
  split <;> rfl

theorem aside_advanceNext (w : Traversal) : w.advanceNext.aside = w.aside := by
  unfold advanceNext
  split <;> rfl

theorem next_advanceCurrent (w : Traversal) : w.advanceCurrent.next = w.next := by
  unfold advanceCurrent
  split <;> rfl

theorem aside_advanceCurrent (w : Traversal) : w.advanceCurrent.aside = w.aside := by
  unfold advanceCurrent
  split <;> rfl

theorem current_advanceCurrent (hcurrent : w.current = g :: gs) :
    w.advanceCurrent.current = g.advance :: gs := by
  simp only [advanceCurrent, hcurrent]

theorem aside_perform (w : Traversal) (m : Move) : (w.perform m).aside = w.aside := by
  cases m with
  | record => exact aside_advanceNext w
  | skipNext => exact aside_advanceNext w
  | skipCurrent => exact aside_advanceCurrent w
  | skipBoth => exact (aside_advanceNext _).trans (aside_advanceCurrent w)
  | share d => exact (aside_advanceNext _).trans (aside_advanceCurrent w)
  | enterNext d => exact aside_advanceNext w
  | enterCurrent d => exact aside_advanceCurrent w
  | enterBoth d e => exact (aside_advanceNext _).trans (aside_advanceCurrent w)
  | leaveCurrent => rfl

/-- The item at the innermost position is passed, and its node is entered or not. -/
inductive Shift : List Frame → Item → List Frame → Prop
  | pass {f : Frame} {fs : List Frame} {n : Node} {i : Item} (position : f.At n i) :
      Shift (f :: fs) i (f.advance :: fs)
  | enter {f : Frame} {fs : List Frame} {n : Node} {d : Digest} (position : f.At n (.ref d)) :
      Shift (f :: fs) (.ref d) (.start d :: f.advance :: fs)

/-- What a planned move does to the positions: it passes the item `j` of the next tree, or an item of
the current tree, or both, or it leaves a node of the current tree. -/
inductive Moved (w : Traversal) (m : Move) (j : Item) : Prop
  | next (next : Shift w.next j (w.perform m).next) (current : (w.perform m).current = w.current)
  | current {i : Item} (next : (w.perform m).next = w.next)
      (current : Shift w.current i (w.perform m).current)
  | both {i : Item} (next : Shift w.next j (w.perform m).next)
      (current : Shift w.current i (w.perform m).current)
  | left {g : Frame} {gs : List Frame} (next : (w.perform m).next = w.next)
      (current : w.current = g :: gs) (rest : (w.perform m).current = gs)

theorem Planned.moved (h : Planned H c w m f fs n j) : Moved w m j := by
  obtain ⟨hnext, hf, -, hchosen⟩ := h
  have hadvance : ∀ w' : Traversal, w'.next = w.next → Shift w.next j w'.advanceNext.next := by
    intro w' hw'
    rw [next_advanceNext (hw'.trans hnext), hnext]
    exact .pass hf
  have henter : ∀ (w' : Traversal) {d}, w'.next = w.next → j = .ref d →
      Shift w.next j (.start d :: w'.advanceNext.next) := by
    rintro w' d hw' rfl
    rw [next_advanceNext (hw'.trans hnext), hnext]
    exact .enter hf
  have hcurrent : ∀ {g gs n i}, w.current = g :: gs → g.At n i →
      Shift w.current i w.advanceCurrent.current := by
    intro g gs n i hw hg
    rw [current_advanceCurrent hw, hw]
    exact .pass hg
  have hboth : ∀ {g gs n i}, w.current = g :: gs → g.At n i →
      Shift w.current i w.advanceCurrent.advanceNext.current := by
    intro g gs n i hw hg
    rw [current_advanceNext]
    exact hcurrent hw hg
  have hsame := next_advanceCurrent w
  generalize hw : w.current = current at hchosen
  cases hchosen with
  | known => exact .next (hadvance w rfl) (current_advanceNext w)
  | record => exact .next (hadvance w rfl) (current_advanceNext w)
  | least => exact .next (hadvance w rfl) (current_advanceNext w)
  | enterNext => exact .next (henter w rfl rfl) (current_advanceNext w)
  | same position => exact .both (hadvance _ hsame) (hboth hw position)
  | greatest position => exact .both (hadvance _ hsame) (hboth hw position)
  | share position => exact .both (hadvance _ hsame) (hboth hw position)
  | @enterBoth g gs n' d e position =>
      refine .both (henter _ hsame rfl) (i := .ref d) ?_
      have hpush : (w.perform (.enterBoth d e)).current =
          .start d :: w.advanceCurrent.advanceNext.current := rfl
      rw [hpush, current_advanceNext, current_advanceCurrent hw, hw]
      exact .enter position
  | @enterCurrent g gs n' d a position =>
      refine .current hsame (i := .ref d) ?_
      have hpush : (w.perform (.enterCurrent d)).current = .start d :: w.advanceCurrent.current := rfl
      rw [hpush, current_advanceCurrent hw, hw]
      exact .enter position
  | skipCurrent position => exact .current hsame (hcurrent hw position)
  | @leaveCurrent g gs =>
      refine .left rfl hw ?_
      rw [perform, hw, List.tail_cons]

end Moves

end Reconcile.Traversal

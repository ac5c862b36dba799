import Reconcile.Proofs.Traversal.Merge

/-! # What is done with two items is right

A plan for the innermost items of a traversal over honest trees never fails. It records only a name
that the current tree does not hold, and passes over only names that it holds or that are known. -/

namespace Reconcile.Traversal

variable {H : Hashing}

/-- What becomes of the names `p` that a move takes from the next tree. -/
def Sorts (H : Hashing) (X : List Name) (known : Digest → Bool) (w : Traversal) (p : List Name) :
    Move → Prop
  | .record => ∃ a, w.next.head?.bind leafAt = some a ∧ p = [a] ∧ a ∉ X
  | .share d => Honest H d ∧ p = namesBelow H d ∧ ∀ a ∈ p, a ∈ X
  | _ => ∀ a ∈ p, a ∈ X ∨ ∃ d, known d = true ∧ a ∈ namesBelow H d

/-- A move passes the names `p` of the next tree and `q` of the current one, and does right by
them. -/
structure Advances (H : Hashing) (X : List Name) (known : Digest → Bool) (w : Traversal) (m : Move)
    (p q : List Name) : Prop extends Passes H w (w.perform m) p q where
  sorts : Sorts H X known w p m

/-! ## Single moves -/

section Moves

variable {X : List Name} {known : Digest → Bool} {f g : Frame} {fs gs current : List Frame}
  {aside : List Digest} {lc ln : Option Name} {n m : Node} {a b : Name} {x y : Digest} {i j : Item}

theorem advances_record (hf : f.At n (.leaf a)) (ha : a ∉ X) :
    Advances H X known ⟨current, f :: fs, aside, lc, ln⟩ .record [a] [] where
  next := passing_advance hf
  current := .refl current lc
  aside := rfl
  clear := by simp
  sorts := ⟨a, leafAt_leaf hf, rfl, ha⟩

theorem advances_skipNext (hf : f.At n j)
    (hj : ∀ a ∈ j.row (namesBelow H), a ∈ X ∨ ∃ d, known d = true ∧ a ∈ namesBelow H d) :
    Advances H X known ⟨current, f :: fs, aside, lc, ln⟩ .skipNext (j.row (namesBelow H)) [] where
  next := passing_advance hf
  current := .refl current lc
  aside := rfl
  clear := by simp
  sorts := hj

theorem advances_enterNext (inj : Function.Injective H) (hf : f.At n (.ref y)) :
    Advances H X known ⟨current, f :: fs, aside, lc, ln⟩ (.enterNext y) [] [] where
  next := passing_enter inj hf
  current := .refl current lc
  aside := rfl
  clear := by simp
  sorts := by simp [Sorts]

theorem advances_skipCurrent (hg : g.At m i)
    (hi : ∀ a ∈ i.row (namesBelow H), a ∉ rest H (f :: fs)) :
    Advances H X known ⟨g :: gs, f :: fs, aside, lc, ln⟩ .skipCurrent []
      (i.row (namesBelow H)) where
  next := .refl (f :: fs) ln
  current := passing_advance hg
  aside := rfl
  clear := hi
  sorts := by simp [Sorts]

theorem advances_enterCurrent (inj : Function.Injective H) (hg : g.At m (.ref x)) :
    Advances H X known ⟨g :: gs, f :: fs, aside, lc, ln⟩ (.enterCurrent x) [] [] where
  next := .refl (f :: fs) ln
  current := passing_enter inj hg
  aside := rfl
  clear := by simp
  sorts := by simp [Sorts]

theorem advances_leaveCurrent (hg : ∀ a ∈ g.rest H, a ∉ rest H (f :: fs)) :
    Advances H X known ⟨g :: gs, f :: fs, aside, lc, ln⟩ .leaveCurrent [] (g.rest H) where
  next := .refl (f :: fs) ln
  current := passing_leave
  aside := rfl
  clear := hg
  sorts := by simp [Sorts]

theorem advances_enterBoth (inj : Function.Injective H) (hg : g.At m (.ref x))
    (hf : f.At n (.ref y)) :
    Advances H X known ⟨g :: gs, f :: fs, aside, lc, ln⟩ (.enterBoth x y) [] [] where
  next := passing_enter inj hf
  current := passing_enter inj hg
  aside := rfl
  clear := by simp
  sorts := by simp [Sorts]

theorem advances_skipBoth (hg : g.At m i) (hf : f.At n (.leaf a)) (ha : a ∈ X)
    (hi : ∀ b ∈ i.row (namesBelow H), b ∉ rest H (f.advance :: fs)) :
    Advances H X known ⟨g :: gs, f :: fs, aside, lc, ln⟩ .skipBoth [a]
      (i.row (namesBelow H)) where
  next := passing_advance hf
  current := passing_advance hg
  aside := rfl
  clear := hi
  sorts := by
    intro b hb
    exact .inl (List.mem_singleton.mp hb ▸ ha)

theorem advances_share (hy : Honest H y) (hg : g.At m (.ref y)) (hf : f.At n (.ref y))
    (hX : ∀ a ∈ namesBelow H y, a ∈ X)
    (hclear : ∀ a ∈ namesBelow H y, a ∉ rest H (f.advance :: fs)) :
    Advances H X known ⟨g :: gs, f :: fs, aside, lc, ln⟩ (.share y) (namesBelow H y)
      (namesBelow H y) where
  next := passing_advance hf
  current := passing_advance hg
  aside := rfl
  clear := hclear
  sorts := ⟨hy, rfl, hX⟩

end Moves

/-! ## The choice of a move -/

section Choice

variable {X : List Name} {known : Digest → Bool} {f g : Frame} {fs gs : List Frame}
  {aside : List Digest} {lc ln : Option Name} {n m : Node} {a b : Name} {x y : Digest} {i j : Item}

/-- A name that is still to come but comes before the whole current tree is not in it. -/
theorem Walk.not_held {w : Traversal} (h : Walk H X w) (ha : a ∈ rest H w.next)
    (hlt : ∀ b ∈ rest H w.current, a < b) : a ∉ X := by
  intro hX
  exact lt_irrefl a (hlt a (h.synced a ha hX))

/-- All names from a leaf on are its own or come after it. -/
theorem leaf_le {frames : List Frame} {last : Option Name} (h : Path H (f :: frames) last)
    (hf : f.At n (.leaf a)) : ∀ b ∈ rest H (f :: frames), a ≤ b := by
  refine h.first_le hf ?_ (List.cons_ne_nil a [])
  intro b hb
  exact ge_of_eq (List.mem_singleton.mp hb)

/-- No name from a reference on comes before the range of its node. -/
theorem least_le (inj : Function.Injective H) {frames : List Frame} {last : Option Name}
    (h : Path H (f :: frames) last) (hf : f.At n (.ref y)) {child : Node}
    (hchild : Denotes H y child) : ∀ b ∈ rest H (f :: frames), child.least ≤ b := by
  have hsound := h.sound f List.mem_cons_self
  exact h.first_le hf ((hf.honest inj hsound).least_le inj hchild) (hf.row_ne_nil inj hsound)

theorem mem_rest_of_row {frames : List Frame} (hf : f.At n i)
    (ha : a ∈ i.row (namesBelow H)) : a ∈ rest H (f :: frames) := by
  rw [rest_at hf]
  exact List.mem_append_left _ ha

theorem not_mem_of_lt {frames : List Frame} {last : Option Name} (h : Path H (f :: frames) last)
    (hf : f.At n (.leaf a)) (hlt : b < a) : b ∉ rest H (f :: frames) := by
  intro hb
  exact absurd (leaf_le h hf b hb) (not_le_of_gt hlt)

theorem advances_againstRange (inj : Function.Injective H)
    (h : Walk H X ⟨g :: gs, f :: fs, aside, lc, ln⟩) (hg : g.At m (.ref x))
    (hf : f.At n (.leaf a)) {child : Option Node} (hchild : ∀ c ∈ child, Denotes H x c) :
    ∃ p q, Advances H X known ⟨g :: gs, f :: fs, aside, lc, ln⟩ (againstRange x a child) p q := by
  cases child with
  | none => exact ⟨_, _, advances_enterCurrent inj hg⟩
  | some node =>
      have hnode : Denotes H x node := hchild node rfl
      have hsound : g.Sound H := h.current.sound g List.mem_cons_self
      have hx : Honest H x := hg.honest inj hsound
      have hne : namesBelow H x ≠ [] := hg.row_ne_nil inj hsound
      have hcome : a ∈ rest H (f :: fs) := mem_rest_of_row hf (List.mem_singleton_self a)
      simp only [againstRange]
      split_ifs with hbefore hleast hafter hgreatest
      · refine ⟨_, _, advances_record hf (h.not_held hcome ?_)⟩
        intro b hb
        exact lt_of_lt_of_le hbefore (least_le inj h.current hg hnode b hb)
      · refine ⟨_, _, advances_skipNext hf ?_⟩
        intro b hb
        have hX : a ∈ X := h.held a (mem_rest_of_row hg (hleast ▸ hx.least_mem inj hnode hne))
        exact .inl (List.mem_singleton.mp hb ▸ hX)
      · refine ⟨_, _, advances_skipCurrent hg ?_⟩
        intro b hb
        exact not_mem_of_lt h.next hf (lt_of_le_of_lt (hx.le_greatest inj hnode b hb) hafter)
      · have hX : a ∈ X := h.held a (mem_rest_of_row hg (hgreatest ▸ hx.greatest_mem inj hnode hne))
        refine ⟨_, _, advances_skipBoth hg hf hX ?_⟩
        intro b hb hb'
        have hlt : a < b := by
          have hordered := rest_at hf fs ▸ h.next.ordered
          exact List.rel_of_pairwise_cons hordered hb'
        exact absurd (hgreatest ▸ hx.le_greatest inj hnode b hb) (not_le_of_gt hlt)
      · exact ⟨_, _, advances_enterCurrent inj hg⟩

theorem advances_betweenLeaves (inj : Function.Injective H)
    (h : Walk H X ⟨g :: gs, f :: fs, aside, lc, ln⟩) (hg : g.At m (.leaf a))
    (hf : f.At n (.leaf b)) :
    ∃ p q, Advances H X known ⟨g :: gs, f :: fs, aside, lc, ln⟩
      (betweenLeaves g.position m a b) p q := by
  have hsound : g.Sound H := h.current.sound g List.mem_cons_self
  have hcome : b ∈ rest H (f :: fs) := mem_rest_of_row hf (List.mem_singleton_self b)
  unfold betweenLeaves
  split_ifs with hleave heq hlt
  · refine ⟨_, _, advances_leaveCurrent ?_⟩
    intro c hc
    have hle : c ≤ m.greatest :=
      hsound.honest.le_greatest inj (hsound.denotes m hg.node) c (Frame.rest_subset inj hsound hc)
    exact not_mem_of_lt h.next hf (lt_of_le_of_lt hle hleave.2)
  · subst heq
    have hX : a ∈ X := h.held a (mem_rest_of_row hg (List.mem_singleton_self a))
    refine ⟨_, _, advances_skipBoth hg hf hX ?_⟩
    intro c hc
    obtain rfl := List.mem_singleton.mp hc
    exact h.next.not_mem_of_passed (passing_advance hf) (List.mem_singleton_self _)
  · refine ⟨_, _, advances_record hf (h.not_held hcome ?_)⟩
    intro c hc
    exact lt_of_lt_of_le hlt (leaf_le h.current hg c hc)
  · refine ⟨_, _, advances_skipCurrent hg ?_⟩
    intro c hc
    have hab : a < b := lt_of_le_of_ne (le_of_not_gt hlt) heq
    exact not_mem_of_lt h.next hf (List.mem_singleton.mp hc ▸ hab)

theorem nodeOf_spec {c : Cache} (hc : c.Genuine H) (d : Digest) :
    Cache.Keeps H c (nodeOf H c d).1 ∧ ∀ child ∈ (nodeOf H c d).2, Denotes H d child := by
  have hkeeps := Cache.keeps_look (H := H) c d
  unfold nodeOf
  split
  · rename_i c' node hlook
    rw [hlook] at hkeeps
    refine ⟨hkeeps, ?_⟩
    intro child hchild
    obtain rfl := Option.some.inj hchild
    exact Cache.denotes_of_look hc (by rw [hlook])
  · rename_i c' finding hlook
    rw [hlook] at hkeeps
    exact ⟨hkeeps, fun child hchild => nomatch hchild⟩

theorem advances_compare (inj : Function.Injective H) {c : Cache} (hc : c.Genuine H)
    (h : Walk H X ⟨g :: gs, f :: fs, aside, lc, ln⟩) (hg : g.At m i) (hf : f.At n j) :
    Cache.Keeps H c (compare H c g.position m i j).1 ∧
      ∃ p q, Advances H X known ⟨g :: gs, f :: fs, aside, lc, ln⟩
        (compare H c g.position m i j).2 p q := by
  cases i with
  | ref x =>
      cases j with
      | leaf b =>
          obtain ⟨hkeeps, hchild⟩ := nodeOf_spec hc x
          exact ⟨hkeeps, advances_againstRange inj h hg hf hchild⟩
      | ref y =>
          refine ⟨.refl c, ?_⟩
          simp only [compare]
          split_ifs with hxy
          · subst hxy
            have hx : Honest H x := hg.honest inj (h.current.sound g List.mem_cons_self)
            refine ⟨_, _, advances_share hx hg hf ?_ ?_⟩
            · intro a ha
              exact h.held a (mem_rest_of_row hg ha)
            · intro a ha
              exact h.next.not_mem_of_passed (passing_advance hf) ha
          · exact ⟨_, _, advances_enterBoth inj hg hf⟩
  | leaf a =>
      cases j with
      | leaf b => exact ⟨.refl c, advances_betweenLeaves inj h hg hf⟩
      | ref y =>
          obtain ⟨hkeeps, hchild⟩ := nodeOf_spec hc y
          simp only [compare]
          split
          · rename_i c' child hnode
            rw [hnode] at hkeeps hchild
            refine ⟨hkeeps, ?_⟩
            split_ifs with hlt
            · refine ⟨_, _, advances_skipCurrent hg ?_⟩
              intro b hb hb'
              have hle := least_le inj h.next hf (hchild child rfl) b hb'
              exact absurd (List.mem_singleton.mp hb ▸ hle) (not_le_of_gt hlt)
            · exact ⟨_, _, advances_enterNext inj hf⟩
          · rename_i c' hnode
            rw [hnode] at hkeeps
            exact ⟨hkeeps, _, _, advances_enterNext inj hf⟩

/-! ## The plan -/

theorem top_of_at (side : Side) (hf : f.At n i) : top side f = .ok (n, i) := by
  simp [top, hf.node, hf.item]

theorem checkItem_of_at (inj : Function.Injective H) (side : Side) {frames : List Frame}
    {last : Option Name} (h : Path H (f :: frames) last) (hf : f.At n i) :
    checkItem side n last i = .ok () := by
  cases i with
  | ref d => rfl
  | leaf name =>
      have hsound : f.Sound H := h.sound f List.mem_cons_self
      have hname : name ∈ Item.row (namesBelow H) (.leaf name) := List.mem_singleton_self name
      have hspans : n.spans name = true :=
        hsound.honest.spans inj (hsound.denotes n hf.node) (hf.row_subset inj hsound name hname)
      have hlast : last.any (fun a => decide (name ≤ a)) = false := by
        cases last with
        | none => rfl
        | some a =>
            have hlt : a < name := h.last_lt a rfl name (mem_rest_of_row hf hname)
            exact decide_eq_false (not_le_of_gt hlt)
      simp only [checkItem, checkName, hspans, hlast]
      rfl

theorem advances_alone (inj : Function.Injective H) (h : Walk H X ⟨[], f :: fs, aside, lc, ln⟩)
    (hf : f.At n i) :
    ∃ p q, Advances H X known ⟨[], f :: fs, aside, lc, ln⟩ (alone i) p q := by
  cases i with
  | leaf a =>
      have hcome : a ∈ rest H (f :: fs) := mem_rest_of_row hf (List.mem_singleton_self a)
      refine ⟨_, _, advances_record hf (h.not_held hcome ?_)⟩
      intro b hb
      cases hb
  | ref d => exact ⟨_, _, advances_enterNext inj hf⟩

end Choice

/-- A traversal that is at an item has a plan, and the plan is right. -/
theorem plan_spec (inj : Function.Injective H) {c : Cache} (hc : c.Genuine H) {X : List Name}
    {w : Traversal} (h : Walk H X w) (hmeets : w.Meets) :
    Cache.Keeps H c (plan H c w).1 ∧
      ∃ m p q, (plan H c w).2 = .ok m ∧ Advances H X c.known w m p q := by
  obtain ⟨current, next, aside, lc, ln⟩ := w
  obtain ⟨hne, hnext, hcurrent⟩ := hmeets
  cases next with
  | nil => exact absurd rfl hne
  | cons f fs =>
      obtain ⟨n, j, hnode, hitem⟩ := Frame.exists_item (hnext f rfl).1 (hnext f rfl).2
      have hf : f.At n j := ⟨hnode, hitem⟩
      simp only [plan, top_of_at .next hf]
      by_cases hknown : isKnown c j = true
      · rw [if_pos hknown]
        refine ⟨.refl c, .skipNext, _, _, rfl, advances_skipNext hf ?_⟩
        intro a ha
        cases j with
        | leaf name => cases hknown
        | ref d => exact .inr ⟨d, hknown, ha⟩
      · rw [if_neg hknown]
        simp only [checkItem_of_at inj .next h.next hf]
        cases current with
        | nil =>
            obtain ⟨p, q, hmove⟩ := advances_alone inj h hf
            exact ⟨.refl c, _, p, q, rfl, hmove⟩
        | cons g gs =>
            obtain ⟨m, i, hnode', hitem'⟩ := Frame.exists_item (hcurrent g rfl).1 (hcurrent g rfl).2
            have hg : g.At m i := ⟨hnode', hitem'⟩
            simp only [top_of_at .current hg, checkItem_of_at inj .current h.current hg]
            obtain ⟨hkeeps, p, q, hmove⟩ := advances_compare inj hc h hg hf
            exact ⟨hkeeps, _, p, q, rfl, hmove⟩

end Reconcile.Traversal

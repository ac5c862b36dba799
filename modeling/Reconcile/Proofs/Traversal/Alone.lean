import Reconcile.Proofs.Traversal.Effort
import Reconcile.Proofs.Traversal.Reading
import Reconcile.Proofs.Traversal.Refusal

/-! # A traversal of one tree alone

Without a current tree, a traversal reads the next one as it stands: it passes the row of the tree from
the front, entry by entry, and the subtrees that are known are those read to their ends. It is refused
the first entry that is out of order, and none before. -/

namespace Reconcile.Traversal

variable {H : Hashing} {c c' : Cache} {w : Traversal} {m : Move} {e : Fault} {f : Frame}
  {fs : List Frame} {n : Node} {i : Item} {y : Digest} {row passed : List Entry}
  {known : Digest → Bool}

/-- The plan at an item of the next tree when nothing stands beside it. -/
theorem plan_of_alone (hcurrent : w.current = []) (hnext : w.next = f :: fs) (hf : f.At n i) :
    plan H c w = (c,
      if isKnown c i then .ok .skipNext
      else (checkItem .next n w.lastNext i).map (fun _ => alone i)) := by
  simp only [plan, hnext, top_of_at .next hf]
  split_ifs with hknown
  · rfl
  · cases hcheck : checkItem .next n w.lastNext i with
    | error e => rfl
    | ok u => simp only [hcurrent, Except.map]

/-- The traversal after an item was passed. -/
theorem advanceNext_eq (hnext : w.next = f :: fs) :
    w.advanceNext = { w with next := f.advance :: fs, lastNext := (leafAt f).or w.lastNext } := by
  simp only [advanceNext, hnext]

/-- A traversal that has passed the first entries of the row of a tree. All the rest of the row is still
to be read. -/
structure Partway (H : Hashing) (y : Digest) (row passed : List Entry) (known : Digest → Bool)
    (w : Traversal) : Prop where
  current : w.current = []
  aside : w.aside = []
  frames : ∀ f ∈ w.next, f.Within H (fun _ => False) y ∧ f.incomplete = false
  inOrder : InOrder passed
  last : w.lastNext = (passed.map Entry.name).getLast?
  rest : ∃ done rest, row = passed ++ rest ∧ (∀ d, known d = true ↔ d ∈ done) ∧
    ReadsOn H done w.next rest

theorem partway_begin (h : Reading H y row) (hknown : ∀ d, known d = false) :
    Partway H y row [] known (begin none y) where
  current := rfl
  aside := rfl
  frames _ hf := List.mem_singleton.mp hf ▸ ⟨Frame.within_start (.refl _), rfl⟩
  inOrder := inOrder_nil
  last := rfl
  rest := ⟨[], row, rfl, by simp [hknown], h.readsOn⟩

/-- What a move does that a traversal plans: it skips or enters a subtree, or passes an entry. -/
inductive Takes (H : Hashing) (y : Digest) (row passed : List Entry) (known : Digest → Bool)
    (w : Traversal) : Move → Prop
  | skips (partway : Partway H y row passed known (w.perform .skipNext)) :
      Takes H y row passed known w .skipNext
  | enters {d : Digest} (partway : Partway H y row passed known (w.perform (.enterNext d))) :
      Takes H y row passed known w (.enterNext d)
  | passes {e : Entry} (name : w.next.head?.bind leafAt = some e.name)
      (partway : Partway H y row (passed ++ [e]) known (w.perform .record)) :
      Takes H y row passed known w .record

namespace Partway

theorem eq_of_next (h : Partway H y row passed known w) (hnext : w.next = []) : passed = row := by
  obtain ⟨done, rest, rfl, -, hreads⟩ := h.rest
  rw [hnext] at hreads
  rw [hreads.eq_nil, List.append_nil]

/-- A subtree that is about to be read was not read before. -/
theorem unknown (h : Partway H y row passed known w) (hnext : w.next = f :: fs)
    (hnone : f.node = none) : known f.digest = false := by
  obtain ⟨done, rest, -, hdone, hreads⟩ := h.rest
  rw [hnext] at hreads
  rw [← Bool.not_eq_true, hdone]
  exact hreads.unread hnone

theorem resolve (inj : Function.Injective H) (h : Partway H y row passed known w)
    (hnext : w.next = f :: fs) (hnone : f.node = none) (hn : Denotes H f.digest n) :
    Partway H y row passed known { w with next := f.resolve n :: fs } := by
  obtain ⟨done, rest, hrow, hdone, hreads⟩ := h.rest
  have hframes := h.frames
  rw [hnext] at hreads hframes
  obtain ⟨⟨hwithin, hcomplete⟩, habove⟩ := List.forall_mem_cons.mp hframes
  exact { h with
    frames := List.forall_mem_cons.mpr ⟨⟨hwithin.resolve hn id, hcomplete⟩, habove⟩
    rest := ⟨done, rest, hrow, hdone, hreads.resolve inj hnone (hwithin.start hnone) hn⟩ }

/-- A node that is through is left, and its subtree is known from then on. -/
theorem leave (h : Partway H y row passed c.known w) (hnext : w.next = f :: fs)
    (hn : f.node = some n) (hthrough : f.isThrough = true) :
    Partway H y row passed (c.markKnown f.digest).known { w with next := fs } := by
  obtain ⟨done, rest, hrow, hdone, hreads⟩ := h.rest
  have hframes := h.frames
  rw [hnext] at hreads hframes
  refine { h with
    frames := (List.forall_mem_cons.mp hframes).2
    rest := ⟨f.digest :: done, rest, hrow, ?_, hreads.leave hn hthrough⟩ }
  intro d
  rw [Cache.known_markKnown, Bool.or_eq_true, decide_eq_true_eq, hdone, List.mem_cons, eq_comm]

/-- The frames after an item was passed. -/
theorem frames_advance (h : Partway H y row passed known w) (hnext : w.next = f :: fs)
    (hf : f.At n i) :
    ∀ g ∈ f.advance :: fs, g.Within H (fun _ => False) y ∧ g.incomplete = false := by
  have hframes := h.frames
  rw [hnext] at hframes
  obtain ⟨⟨hwithin, hcomplete⟩, habove⟩ := List.forall_mem_cons.mp hframes
  exact List.forall_mem_cons.mpr ⟨⟨hwithin.advance hf.node, hcomplete⟩, habove⟩

/-- A reference to a known subtree is skipped. -/
theorem skip (h : Partway H y row passed known w) (hnext : w.next = f :: fs) {d : Digest}
    (hf : f.At n (.ref d)) (hd : known d = true) :
    Partway H y row passed known w.advanceNext := by
  obtain ⟨done, rest, hrow, hdone, hreads⟩ := h.rest
  rw [hnext] at hreads
  rw [advanceNext_eq hnext, leafAt_ref hf]
  exact { h with
    frames := h.frames_advance hnext hf
    rest := ⟨done, rest, hrow, hdone, hreads.again hf ((hdone d).mp hd)⟩ }

/-- A reference to any other subtree is followed. -/
theorem enter (h : Partway H y row passed known w) (hnext : w.next = f :: fs) {d : Digest}
    (hf : f.At n (.ref d)) (hd : known d = false) :
    Partway H y row passed known (w.advanceNext.pushNext d) := by
  obtain ⟨done, rest, hrow, hdone, hreads⟩ := h.rest
  have hunread : d ∉ done := by
    rw [← hdone, hd]
    exact Bool.false_ne_true
  have hleads : Leads H (fun _ => False) (.ref y) (.ref d) :=
    (h.frames f (hnext ▸ List.mem_cons_self)).1.item hf
  rw [hnext] at hreads
  rw [advanceNext_eq hnext, leafAt_ref hf]
  exact { h with
    frames := List.forall_mem_cons.mpr
      ⟨⟨Frame.within_start hleads, rfl⟩, h.frames_advance hnext hf⟩
    rest := ⟨done, rest, hrow, hdone, hreads.enter hf hunread⟩ }

/-- The entry at a name, which comes next in the row. -/
theorem entry (h : Partway H y row passed known w) (hnext : w.next = f :: fs) {a : Name}
    (hf : f.At n (.leaf a)) : ∃ done rest, row = passed ++ ⟨n, a⟩ :: rest ∧
      (∀ d, known d = true ↔ d ∈ done) ∧ ReadsOn H done (f.advance :: fs) rest := by
  obtain ⟨done, rest, hrow, hdone, hreads⟩ := h.rest
  rw [hnext] at hreads
  obtain ⟨rest', rfl, hreads'⟩ := hreads.leaf hf
  exact ⟨done, rest', hrow, hdone, hreads'⟩

/-- A name passes its check just when it keeps the row in order. -/
theorem checkName_iff (h : Partway H y row passed known w) {a : Name} :
    checkName .next n w.lastNext a = .ok () ↔ InOrder (passed ++ [⟨n, a⟩]) := by
  rw [checkName_eq_ok_iff, inOrder_concat_iff, h.last, and_iff_right h.inOrder]

theorem pass (h : Partway H y row passed known w) (hnext : w.next = f :: fs) {a : Name}
    (hf : f.At n (.leaf a)) (hcheck : checkName .next n w.lastNext a = .ok ()) :
    Partway H y row (passed ++ [⟨n, a⟩]) known w.advanceNext := by
  obtain ⟨done, rest, hrow, hdone, hreads⟩ := h.entry hnext hf
  rw [advanceNext_eq hnext, leafAt_leaf hf]
  exact { h with
    frames := h.frames_advance hnext hf
    inOrder := h.checkName_iff.mp hcheck
    last := by simp
    rest := ⟨done, rest, by rw [hrow, List.append_assoc]; rfl, hdone, hreads⟩ }

/-! ## Acting on an item -/

/-- What is planned keeps the traversal on its way. -/
theorem takes (h : Partway H y row passed c.known w) (hmeets : w.Meets)
    (hplan : plan H c w = (c', .ok m)) : c' = c ∧ Takes H y row passed c.known w m := by
  obtain ⟨f, fs, hnext⟩ := List.exists_cons_of_ne_nil hmeets.left
  obtain ⟨n, i, hf⟩ := Ready.at (hnext ▸ hmeets.next)
  rw [plan_of_alone h.current hnext hf] at hplan
  obtain ⟨rfl, hmove⟩ := Prod.mk.inj hplan
  refine ⟨rfl, ?_⟩
  cases i with
  | ref d =>
      cases hd : c.known d with
      | true =>
          obtain rfl : Move.skipNext = m := by simpa [isKnown, hd] using hmove
          exact .skips (h.skip hnext hf hd)
      | false =>
          obtain rfl : Move.enterNext d = m := by
            simpa [isKnown, hd, checkItem, Except.map, alone] using hmove
          exact .enters (h.enter hnext hf hd)
  | leaf a =>
      cases hcheck : checkName .next n w.lastNext a with
      | error e => simp [isKnown, checkItem, hcheck, Except.map] at hmove
      | ok u =>
          obtain rfl : Move.record = m := by
            simpa [isKnown, checkItem, hcheck, Except.map, alone] using hmove
          refine .passes (e := ⟨n, a⟩) ?_ (h.pass hnext hf hcheck)
          rw [hnext]
          exact leafAt_leaf hf

/-- A plan that fails has come upon the first entry that is out of order. -/
theorem refuses (h : Partway H y row passed c.known w) (hmeets : w.Meets)
    (hplan : plan H c w = (c', .error e)) : Front passed row ∧ passed ≠ row := by
  rcases refused_of_plan hmeets (congrArg Prod.snd hplan) with hrefused | ⟨-, hrefused⟩
  · obtain ⟨f, fs, n, a, hnext, hf, hcheck⟩ := hrefused
    obtain ⟨done, rest, rfl, -⟩ := h.entry hnext hf
    refine ⟨front_of_refused h.inOrder ?_, by simp⟩
    rw [← h.checkName_iff, hcheck]
    exact nofun
  · obtain ⟨g, gs, n, a, hg, -⟩ := hrefused
    cases h.current.symm.trans hg

/-- Every move makes what is left smaller. -/
theorem stackCost_lt (h : Partway H y row passed known w) {j : Item} (hmoved : Moved w m j) :
    stackCost H 0 (w.perform m).next < stackCost H 0 w.next := by
  have hnone : ∀ {i fs'}, ¬ Shift w.current i fs' := by
    intro i fs' hs
    rw [h.current] at hs
    cases hs
  cases hmoved with
  | next next current => exact next.stackCost_lt
  | current next current => exact absurd current hnone
  | both next current => exact absurd current hnone
  | left next current rest => cases h.current.symm.trans current

end Partway

end Reconcile.Traversal

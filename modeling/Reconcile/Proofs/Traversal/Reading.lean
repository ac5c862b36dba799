import Mathlib.Data.List.Chain
import Mathlib.Data.List.Induction
import Reconcile.Proofs.Traversal.Merge
import Reconcile.Proofs.Tree.Ordered

/-! # The row in which a tree is read

A tree is read depth first, and a reference to a subtree that was read to its end before is skipped.
What comes up is a row of names, each with the node that lists it. Nothing is assumed of their order, of
the ranges that the nodes state, or of which subtrees are shared. A stack of frames stands for the part
of the row that is still to be read. -/

namespace Reconcile

variable {H : Hashing} {P : Node → (Digest → List Name) → Prop} {done done' : List Digest}
  {d y : Digest} {n : Node} {items : List Item}

/-! ## Rows in order -/

/-- A name, with the node that lists it. -/
structure Entry where
  node : Node
  name : Name
deriving DecidableEq

variable {e : Entry} {row row' front front' : List Entry}

/-- Every name lies in the range of its node and comes after the name before it. -/
structure InOrder (row : List Entry) : Prop where
  spans : ∀ e ∈ row, e.node.spans e.name = true
  ascending : (row.map Entry.name).IsChain (· < ·)

theorem inOrder_nil : InOrder [] := ⟨by simp, .nil⟩

theorem InOrder.of_append (h : InOrder (row ++ row')) : InOrder row where
  spans e he := h.spans e (List.mem_append_left row' he)
  ascending := by
    have hascending := h.ascending
    rw [List.map_append] at hascending
    exact hascending.left_of_append

theorem inOrder_concat_iff : InOrder (row ++ [e]) ↔
    InOrder row ∧ e.node.spans e.name = true ∧
      ∀ b ∈ (row.map Entry.name).getLast?, b < e.name := by
  constructor
  · intro h
    have hascending := h.ascending
    rw [List.map_append, List.isChain_append] at hascending
    exact ⟨h.of_append, h.spans e (by simp), fun b hb => hascending.2.2 b hb e.name rfl⟩
  · rintro ⟨hrow, hspans, hlast⟩
    refine ⟨?_, ?_⟩
    · intro e' he'
      rcases List.mem_append.mp he' with he' | he'
      · exact hrow.spans e' he'
      · exact List.mem_singleton.mp he' ▸ hspans
    · rw [List.map_append, List.isChain_append]
      refine ⟨hrow.ascending, .singleton _, ?_⟩
      intro b hb a ha
      obtain rfl : e.name = a := Option.some.inj ha
      exact hlast b hb

/-- The longest front of a row that is in order. -/
structure Front (front row : List Entry) : Prop where
  begins : front <+: row
  inOrder : InOrder front
  longest : ∀ l, l <+: row → InOrder l → l <+: front

theorem Front.unique (h : Front front row) (h' : Front front' row) : front = front' := by
  have hle := h'.longest front h.begins h.inOrder
  have hge := h.longest front' h'.begins h'.inOrder
  exact hle.eq_of_length (Nat.le_antisymm hle.length_le hge.length_le)

theorem front_of_inOrder (h : InOrder row) : Front row row :=
  ⟨List.prefix_rfl, h, fun _ hl _ => hl⟩

/-- The front ends before the first entry that is out of order. -/
theorem front_of_refused (h : InOrder front) (hrefused : ¬ InOrder (front ++ [e])) :
    Front front (front ++ e :: row) := by
  refine ⟨List.prefix_append front _, h, ?_⟩
  intro l hl horder
  rcases Nat.lt_or_ge front.length l.length with hlt | hle
  · have hlonger : front ++ [e] <+: l := by
      refine List.prefix_of_prefix_length_le ?_ hl (by rwa [List.length_append])
      exact ⟨row, by simp⟩
    obtain ⟨more, rfl⟩ := hlonger
    exact absurd horder.of_append hrefused
  · exact List.prefix_of_prefix_length_le hl (List.prefix_append front _) hle

theorem exists_front (row : List Entry) : ∃ front, Front front row := by
  induction row using List.reverseRecOn with
  | nil => exact ⟨[], front_of_inOrder inOrder_nil⟩
  | append_singleton row e ih =>
      by_cases horder : InOrder (row ++ [e])
      · exact ⟨_, front_of_inOrder horder⟩
      · obtain ⟨front, begins, inOrder, longest⟩ := ih
        refine ⟨front, begins.trans (List.prefix_append row [e]), inOrder, ?_⟩
        intro l hl hl'
        rcases List.prefix_concat_iff.mp hl with rfl | hl
        · exact absurd hl' horder
        · exact longest l hl hl'

/-! ## Reading -/

/-- Reading items of the node `n` one after another. Of the digests in `done` the subtrees were read to
their ends before; afterwards those of `done'` are. -/
inductive Reads (H : Hashing) :
    List Digest → Node → List Item → List Entry → List Digest → Prop
  | nil {done : List Digest} {n : Node} : Reads H done n [] [] done
  | leaf {done done' : List Digest} {n : Node} {a : Name} {items : List Item} {row : List Entry}
      (rest : Reads H done n items row done') :
      Reads H done n (.leaf a :: items) (⟨n, a⟩ :: row) done'
  | again {done done' : List Digest} {n : Node} {d : Digest} {items : List Item} {row : List Entry}
      (finished : d ∈ done) (rest : Reads H done n items row done') :
      Reads H done n (.ref d :: items) row done'
  | enter {done done₁ done' : List Digest} {n m : Node} {d : Digest} {items : List Item}
      {inner row : List Entry} (unread : d ∉ done) (denotes : Denotes H d m)
      (inside : Reads H done m m.items inner done₁)
      (rest : Reads H (d :: done₁) n items row done') :
      Reads H done n (.ref d :: items) (inner ++ row) done'

/-- A row is what the tree under a digest reads as. -/
def Reading (H : Hashing) (y : Digest) (row : List Entry) : Prop :=
  ∃ n done, Denotes H y n ∧ Reads H [] n n.items row done

/-- Items read in one way only. -/
theorem Reads.unique (inj : Function.Injective H) {done'' : List Digest}
    (h : Reads H done n items row done') (h' : Reads H done n items row' done'') :
    row = row' ∧ done' = done'' := by
  induction h generalizing row' done'' with
  | nil =>
      cases h'
      exact ⟨rfl, rfl⟩
  | leaf rest ih =>
      cases h' with
      | leaf rest' =>
          obtain ⟨rfl, rfl⟩ := ih rest'
          exact ⟨rfl, rfl⟩
  | again finished rest ih =>
      cases h' with
      | again finished' rest' => exact ih rest'
      | enter unread => exact absurd finished unread
  | enter unread denotes inside rest ihInside ihRest =>
      cases h' with
      | again finished => exact absurd finished unread
      | enter unread' denotes' inside' rest' =>
          obtain rfl := denotes.unique inj denotes'
          obtain ⟨rfl, rfl⟩ := ihInside inside'
          obtain ⟨rfl, rfl⟩ := ihRest rest'
          exact ⟨rfl, rfl⟩

theorem Reading.unique (inj : Function.Injective H) (h : Reading H y row)
    (h' : Reading H y row') : row = row' := by
  obtain ⟨n, done, hn, hreads⟩ := h
  obtain ⟨n', done', hn', hreads'⟩ := h'
  obtain rfl := hn.unique inj hn'
  exact (hreads.unique inj hreads').1

/-- Items read somehow if the subtrees that they refer to do. -/
theorem exists_reads (n : Node)
    (hrefs : ∀ d, .ref d ∈ items → ∀ done, ∃ m row done',
      Denotes H d m ∧ Reads H done m m.items row done') (done : List Digest) :
    ∃ row done', Reads H done n items row done' := by
  induction items generalizing done with
  | nil => exact ⟨[], done, .nil⟩
  | cons i items ih =>
      have hrest := ih (fun d hd => hrefs d (List.mem_cons_of_mem i hd))
      cases i with
      | leaf a =>
          obtain ⟨row, done', hreads⟩ := hrest done
          exact ⟨_, _, .leaf hreads⟩
      | ref d =>
          by_cases hd : d ∈ done
          · obtain ⟨row, done', hreads⟩ := hrest done
            exact ⟨_, _, .again hd hreads⟩
          · obtain ⟨m, inner, done₁, hm, hinside⟩ := hrefs d List.mem_cons_self done
            obtain ⟨row, done', hreads⟩ := hrest (d :: done₁)
            exact ⟨_, _, .enter hd hm hinside hreads⟩

theorem Tree.exists_reads {l : List Name} (h : Tree H P d l) (done : List Digest) :
    ∃ m row done', Denotes H d m ∧ Reads H done m m.items row done' := by
  induction h generalizing done with
  | @node d n below denotes branches sound ih =>
      obtain ⟨row, done', hreads⟩ := Reconcile.exists_reads n
        (fun e he done => ih e (Node.mem_refs.mpr he) done) done
      exact ⟨n, row, done', denotes, hreads⟩

/-- Every tree reads as some row. -/
theorem Whole.exists_reading (h : Whole H y) : ∃ row, Reading H y row := by
  obtain ⟨l, hl⟩ := h
  obtain ⟨n, row, done, hn, hreads⟩ := hl.exists_reads []
  exact ⟨row, n, done, hn, hreads⟩

/-! ## Reading on from a stack -/

/-- What is read from a stack of frames on. The subtree of a frame is read to its end when the frame is
left. -/
inductive ReadsOn (H : Hashing) : List Digest → List Frame → List Entry → Prop
  | nil {done : List Digest} : ReadsOn H done [] []
  | before {done done' : List Digest} {f : Frame} {fs : List Frame} {n : Node}
      {inner row : List Entry} (unresolved : f.node = none) (unread : f.digest ∉ done)
      (denotes : Denotes H f.digest n) (inside : Reads H done n n.items inner done')
      (rest : ReadsOn H (f.digest :: done') fs row) : ReadsOn H done (f :: fs) (inner ++ row)
  | within {done done' : List Digest} {f : Frame} {fs : List Frame} {n : Node}
      {inner row : List Entry} (resolved : f.node = some n)
      (inside : Reads H done n (n.items.drop f.position) inner done')
      (rest : ReadsOn H (f.digest :: done') fs row) : ReadsOn H done (f :: fs) (inner ++ row)

theorem Reading.readsOn (h : Reading H y row) : ReadsOn H [] [.start y] row := by
  obtain ⟨n, done, hn, hreads⟩ := h
  have hon : ReadsOn H [] [.start y] (row ++ []) := .before rfl List.not_mem_nil hn hreads .nil
  rwa [List.append_nil] at hon

namespace ReadsOn

variable {f : Frame} {fs : List Frame} {a : Name}

theorem eq_nil (h : ReadsOn H done [] row) : row = [] := by
  cases h
  rfl

theorem unread (h : ReadsOn H done (f :: fs) row) (hnone : f.node = none) : f.digest ∉ done := by
  cases h with
  | before unresolved unread denotes inside rest => exact unread
  | within resolved inside rest => cases hnone.symm.trans resolved

/-- A frame is given its node. -/
theorem resolve (inj : Function.Injective H) (h : ReadsOn H done (f :: fs) row)
    (hnone : f.node = none) (hstart : f.position = 0) (hn : Denotes H f.digest n) :
    ReadsOn H done (f.resolve n :: fs) row := by
  cases h with
  | before unresolved unread denotes inside rest =>
      obtain rfl := hn.unique inj denotes
      refine .within (f := f.resolve n) rfl ?_ rest
      have hposition : (f.resolve n).position = 0 := hstart
      rwa [hposition, List.drop_zero]
  | within resolved inside rest => cases hnone.symm.trans resolved

/-- A node that is through is left, and its subtree is read to its end. -/
theorem leave (h : ReadsOn H done (f :: fs) row) (hn : f.node = some n)
    (hthrough : f.isThrough = true) : ReadsOn H (f.digest :: done) fs row := by
  cases h with
  | before unresolved => cases unresolved.symm.trans hn
  | within resolved inside rest =>
      simp only [Frame.isThrough, resolved, Option.any_some, Node.size] at hthrough
      rw [List.drop_eq_nil_of_le (of_decide_eq_true hthrough)] at inside
      cases inside
      exact rest

/-- A name is passed. -/
theorem leaf (h : ReadsOn H done (f :: fs) row) (hf : f.At n (.leaf a)) :
    ∃ row', row = ⟨n, a⟩ :: row' ∧ ReadsOn H done (f.advance :: fs) row' := by
  cases h with
  | before unresolved => cases unresolved.symm.trans hf.node
  | within resolved inside rest =>
      obtain rfl := Option.some.inj (resolved.symm.trans hf.node)
      rw [hf.drop_eq] at inside
      cases inside with
      | leaf inside => exact ⟨_, rfl, .within (f := f.advance) resolved inside rest⟩

/-- A reference to a subtree that was read before is skipped. -/
theorem again (h : ReadsOn H done (f :: fs) row) (hf : f.At n (.ref d)) (hd : d ∈ done) :
    ReadsOn H done (f.advance :: fs) row := by
  cases h with
  | before unresolved => cases unresolved.symm.trans hf.node
  | within resolved inside rest =>
      obtain rfl := Option.some.inj (resolved.symm.trans hf.node)
      rw [hf.drop_eq] at inside
      cases inside with
      | again finished inside => exact .within (f := f.advance) resolved inside rest
      | enter unread => exact absurd hd unread

/-- Any other is followed. -/
theorem enter (h : ReadsOn H done (f :: fs) row) (hf : f.At n (.ref d)) (hd : d ∉ done) :
    ReadsOn H done (.start d :: f.advance :: fs) row := by
  cases h with
  | before unresolved => cases unresolved.symm.trans hf.node
  | within resolved inside rest =>
      obtain rfl := Option.some.inj (resolved.symm.trans hf.node)
      rw [hf.drop_eq] at inside
      cases inside with
      | again finished => exact absurd finished hd
      | enter unread denotes inner inside =>
          rw [List.append_assoc]
          exact .before (f := .start d) rfl unread denotes inner
            (.within (f := f.advance) resolved inside rest)

end ReadsOn

end Reconcile

import Reconcile.Proofs.Cache.Shown
import Reconcile.Proofs.History
import Reconcile.Proofs.Traversal.Outlook
import Reconcile.Proofs.Tree.Ordered

/-! # What a search answers

A search has three answers, and what it looks at is only the nodes at hand. So it answers what a search
without a cache answers that is given these nodes. An answer that is definite is right about the whole
tree, at hand or not, and stays when more nodes come. Sifting asks for each name and sorts it by its
answer. -/

namespace Reconcile

variable {H : Hashing} {name : Name} {shown shown' : Digest → Option Node} {depth depth' : Nat}
  {c c' : Cache} {d e : Digest} {n : Node} {v : Bool}

/-- One of a row of answers is yes, or all are no. An unknown one hides no later yes. -/
def anyOf (answers : List (Option Bool)) : Option Bool :=
  if some true ∈ answers then some true else if none ∈ answers then none else some false

section AnyOf

variable {answers : List (Option Bool)}

theorem anyOf_eq_true_iff : anyOf answers = some true ↔ some true ∈ answers := by
  unfold anyOf
  split
  · rename_i h
    simp [h]
  · rename_i h
    split <;> simp [h]

theorem anyOf_eq_none_iff : anyOf answers = none ↔ some true ∉ answers ∧ none ∈ answers := by
  unfold anyOf
  split
  · rename_i h
    simp [h]
  · rename_i h
    split <;> simp_all

theorem anyOf_eq_false_iff : anyOf answers = some false ↔ ∀ a ∈ answers, a = some false := by
  constructor
  · intro h a ha
    cases a with
    | none =>
        by_cases htrue : some true ∈ answers
        · cases (anyOf_eq_true_iff.mpr htrue).symm.trans h
        · cases (anyOf_eq_none_iff.mpr ⟨htrue, ha⟩).symm.trans h
    | some v =>
        cases v with
        | false => rfl
        | true => cases (anyOf_eq_true_iff.mpr ha).symm.trans h
  · intro h
    have htrue : some true ∉ answers := fun htrue => nomatch h _ htrue
    have hnone : none ∉ answers := fun hnone => nomatch h _ hnone
    rw [anyOf, if_neg htrue, if_neg hnone]

/-- Answers that become definite change no answer that is definite already. -/
theorem anyOf_mono {α : Type} {f g : α → Option Bool} {as : List α}
    (hfg : ∀ a ∈ as, ∀ v, f a = some v → g a = some v) (h : anyOf (as.map f) = some v) :
    anyOf (as.map g) = some v := by
  cases v with
  | true =>
      obtain ⟨a, ha, hf⟩ := List.mem_map.mp (anyOf_eq_true_iff.mp h)
      exact anyOf_eq_true_iff.mpr (List.mem_map.mpr ⟨a, ha, hfg a ha true hf⟩)
  | false =>
      refine anyOf_eq_false_iff.mpr ?_
      intro b hb
      obtain ⟨a, ha, rfl⟩ := List.mem_map.mp hb
      exact hfg a ha false (anyOf_eq_false_iff.mp h _ (List.mem_map_of_mem ha))

end AnyOf

/-- Whether an item is the name or leads to it, given the answers for the references. -/
def Item.holds (below : Digest → Option Bool) (name : Name) : Item → Option Bool
  | .leaf a => some (a = name)
  | .ref d => below d

/-- What a search answers that is given the nodes at hand. -/
def verdict (shown : Digest → Option Node) (name : Name) : Nat → Digest → Option Bool
  | 0, _ => none
  | depth + 1, d =>
    match shown d with
    | none => none
    | some node =>
      if node.spans name then anyOf (node.items.map (Item.holds (verdict shown name depth) name))
      else some false

theorem verdict_of_missing (h : shown d = none) : verdict shown name (depth + 1) d = none := by
  rw [verdict, h]

theorem verdict_of_spans (hn : shown d = some n) (hspans : n.spans name = true) :
    verdict shown name (depth + 1) d =
      anyOf (n.items.map (Item.holds (verdict shown name depth) name)) := by
  rw [verdict, hn]
  exact if_pos hspans

theorem verdict_of_not_spans (hn : shown d = some n) (hspans : n.spans name ≠ true) :
    verdict shown name (depth + 1) d = some false := by
  rw [verdict, hn]
  exact if_neg hspans

/-! ## Definite answers -/

/-- A definite answer stays when more nodes come, and when the search may look deeper. -/
theorem verdict_mono (hshown : ∀ e n, shown e = some n → shown' e = some n) (hdepth : depth ≤ depth')
    (h : verdict shown name depth d = some v) : verdict shown' name depth' d = some v := by
  induction depth generalizing depth' d v with
  | zero => cases h
  | succ depth ih =>
      obtain ⟨depth', rfl⟩ : ∃ k, depth' = k + 1 := ⟨depth' - 1, by omega⟩
      cases hn : shown d with
      | none => cases (verdict_of_missing hn).symm.trans h
      | some n =>
          by_cases hspans : n.spans name = true
          · rw [verdict_of_spans hn hspans] at h
            rw [verdict_of_spans (hshown d n hn) hspans]
            refine anyOf_mono ?_ h
            intro i hi v hv
            cases i with
            | leaf leaf => exact hv
            | ref e => exact ih (Nat.le_of_succ_le_succ hdepth) hv
          · rw [verdict_of_not_spans hn hspans] at h
            rw [verdict_of_not_spans (hshown d n hn) hspans]
            exact h

/-- The nodes at hand are those that their digests denote. -/
def Truly (H : Hashing) (shown : Digest → Option Node) : Prop := ∀ d n, shown d = some n → Denotes H d n

/-- A name that is found is below the digest. -/
theorem leads_of_verdict (htruly : Truly H shown) (h : verdict shown name depth d = some true) :
    Leads H (fun _ => False) (.ref d) (.leaf name) := by
  induction depth generalizing d with
  | zero => cases h
  | succ depth ih =>
      cases hn : shown d with
      | none => cases (verdict_of_missing hn).symm.trans h
      | some n =>
          by_cases hspans : n.spans name = true
          · rw [verdict_of_spans hn hspans] at h
            obtain ⟨i, hi, hholds⟩ := List.mem_map.mp (anyOf_eq_true_iff.mp h)
            refine .into id (htruly d n hn) hi ?_
            cases i with
            | leaf leaf =>
                obtain rfl : leaf = name := by simpa [Item.holds] using hholds
                exact .refl _
            | ref e => exact ih hholds
          · cases (verdict_of_not_spans hn hspans).symm.trans h

/-- Each name below a node that the digest leads to lies in the range that the node states. -/
def Spanned (H : Hashing) (d : Digest) : Prop :=
  ∀ e n, Leads H (fun _ => False) (.ref d) (.ref e) → Denotes H e n →
    ∀ a, Leads H (fun _ => False) (.ref e) (.leaf a) → n.spans a = true

theorem Spanned.of_mem (h : Spanned H d) (hn : Denotes H d n) (he : .ref e ∈ n.items) :
    Spanned H e :=
  fun _ _ hk => h _ _ (.into id hn he hk)

/-- A name that is excluded is not below the digest, if the ranges are wide enough. -/
theorem not_leads_of_verdict (inj : Function.Injective H) (htruly : Truly H shown)
    (hspanned : Spanned H d) (h : verdict shown name depth d = some false) :
    ¬ Leads H (fun _ => False) (.ref d) (.leaf name) := by
  induction depth generalizing d with
  | zero => cases h
  | succ depth ih =>
      intro hleads
      cases hn : shown d with
      | none => cases (verdict_of_missing hn).symm.trans h
      | some n =>
          have hdenotes := htruly d n hn
          rw [verdict_of_spans hn (hspanned d n (.refl _) hdenotes name hleads)] at h
          rcases hleads.cases_node inj hdenotes with hleaf | ⟨i, hi, hleads⟩
          · cases hleaf
          · have hholds := anyOf_eq_false_iff.mp h _ (List.mem_map_of_mem hi)
            cases i with
            | leaf leaf =>
                obtain rfl := Item.leaf.inj hleads.of_leaf
                simp [Item.holds] at hholds
            | ref e => exact ih (hspanned.of_mem hdenotes hi) hholds hleads

/-! ## Searches that look deep enough -/

/-- Below a digest, the ranks fall along the references of the nodes at hand. -/
def Falls (H : Hashing) (shown : Digest → Option Node) (rank : Digest → Nat) (d : Digest) : Prop :=
  ∀ e n, Leads H (fun _ => False) (.ref d) (.ref e) → shown e = some n → ∀ k ∈ n.refs, rank k < rank e

variable {rank : Digest → Nat}

theorem Falls.of_mem (h : Falls H shown rank d) (hn : Denotes H d n) (he : .ref e ∈ n.items) :
    Falls H shown rank e :=
  fun _ _ hk => h _ _ (.into id hn he hk)

/-- With every node at hand, a search that may look deep enough has a definite answer. -/
theorem verdict_ne_none (htruly : Truly H shown) (hrank : Falls H shown rank d)
    (hall : ∀ e, Leads H (fun _ => False) (.ref d) (.ref e) → ∃ n, shown e = some n)
    (hdepth : rank d < depth) : verdict shown name depth d ≠ none := by
  induction depth generalizing d with
  | zero => cases hdepth
  | succ depth ih =>
      obtain ⟨n, hn⟩ := hall d (.refl _)
      have hdenotes := htruly d n hn
      by_cases hspans : n.spans name = true
      · rw [verdict_of_spans hn hspans]
        intro hnone
        obtain ⟨i, hi, hholds⟩ := List.mem_map.mp (anyOf_eq_none_iff.mp hnone).2
        cases i with
        | leaf leaf => cases hholds
        | ref e =>
            have hlt := hrank d n (.refl _) hn e (Node.mem_refs.mpr hi)
            exact ih (hrank.of_mem hdenotes hi) (fun k hk => hall k (.into id hdenotes hi hk))
              (by omega) hholds
      · rw [verdict_of_not_spans hn hspans]
        exact Option.some_ne_none false

/-- Looking deeper than the rank of the digest makes no difference. -/
theorem verdict_of_rank_lt (htruly : Truly H shown) (hrank : Falls H shown rank d)
    (hdepth : rank d < depth) (hdepth' : rank d < depth') :
    verdict shown name depth d = verdict shown name depth' d := by
  induction depth generalizing depth' d with
  | zero => cases hdepth
  | succ depth ih =>
      obtain ⟨depth', rfl⟩ : ∃ k, depth' = k + 1 := ⟨depth' - 1, by omega⟩
      cases hn : shown d with
      | none => rw [verdict_of_missing hn, verdict_of_missing hn]
      | some n =>
          have hdenotes := htruly d n hn
          by_cases hspans : n.spans name = true
          · rw [verdict_of_spans hn hspans, verdict_of_spans hn hspans]
            refine congrArg anyOf (List.map_congr_left ?_)
            intro i hi
            cases i with
            | leaf leaf => rfl
            | ref e =>
                have hlt := hrank d n (.refl _) hn e (Node.mem_refs.mpr hi)
                exact ih (hrank.of_mem hdenotes hi) (by omega) (by omega)
          · rw [verdict_of_not_spans hn hspans, verdict_of_not_spans hn hspans]

namespace Cache

/-! ## Searching a cache -/

/-- Searching a row of items answers for all of them and for those before, one of which may be
unknown. -/
theorem searchItems_snd {P : Cache → Prop} {below : Cache → Digest → Cache × Option Bool}
    {answer : Digest → Option Bool} (hbelow : ∀ c d, P c → P (below c d).1 ∧ (below c d).2 = answer d)
    (hc : P c) (unknown : Bool) (items : List Item) :
    (searchItems below name c unknown items).2 =
      anyOf ((if unknown then [none] else []) ++ items.map (Item.holds answer name)) := by
  induction items generalizing c unknown with
  | nil => cases unknown <;> rfl
  | cons i rest ih =>
      cases i with
      | leaf leaf =>
          simp only [searchItems]
          split
          · rename_i hleaf
            refine (anyOf_eq_true_iff.mpr ?_).symm
            simp [Item.holds, hleaf]
          · rename_i hleaf
            rw [ih hc]
            cases unknown <;> simp [anyOf, Item.holds, hleaf]
      | ref d =>
          obtain ⟨hkept, hanswer⟩ := hbelow c d hc
          simp only [searchItems]
          split
          · rename_i c' h
            rw [h] at hanswer
            refine (anyOf_eq_true_iff.mpr ?_).symm
            simp [Item.holds, ← hanswer]
          · rename_i c' h
            rw [h] at hkept hanswer
            rw [ih hkept]
            cases unknown <;> simp [anyOf, Item.holds, ← hanswer]
          · rename_i c' h
            rw [h] at hkept hanswer
            rw [ih hkept]
            cases unknown <;> simp [anyOf, Item.holds, ← hanswer]

theorem look_of_shown (h : c.shown H d = some n) : (c.look H d).2 = .present n :=
  look_eq_present_iff.mpr h

/-- What a search answers is a matter of the nodes at hand. -/
theorem searchTree_snd (c : Cache) (d : Digest) :
    (searchTree H name depth c d).2 = verdict (c.shown H) name depth d := by
  induction depth generalizing c d with
  | zero => rfl
  | succ depth ih =>
      have hlook := shown_look (H := H) c d
      simp only [searchTree]
      split
      · rename_i c' node h
        have hnode : c.shown H d = some node := shown_of_look (congrArg Prod.snd h)
        rw [h] at hlook
        split
        · rename_i hspans
          rw [verdict_of_spans hnode hspans]
          refine searchItems_snd (P := fun c' => c'.shown H = c.shown H) ?_ hlook false node.items
          intro c' e hc'
          exact ⟨(looks_searchTree name depth c' e).shown.trans hc', hc' ▸ ih c' e⟩
        · rename_i hspans
          exact (verdict_of_not_spans hnode hspans).symm
      · rename_i c' finding hmissing h
        refine (verdict_of_missing ?_).symm
        refine Option.eq_none_iff_forall_ne_some.mpr ?_
        intro node hnode
        exact hmissing node ((congrArg Prod.snd h).symm.trans (look_of_shown hnode))

theorem Genuine.truly (hc : c.Genuine H) : Truly H (c.shown H) :=
  fun _ _ h => denotes_of_look hc (look_of_shown h)

end Cache

/-! ## Trees without a cycle -/

/-- No node that the digest leads to leads back to itself. -/
def Acyclic (H : Hashing) (d : Digest) : Prop :=
  ∀ e, Leads H (fun _ => False) (.ref d) (.ref e) → ¬ Relation.TransGen (Refers H) e e

/-- Where a tree stands, all ways down come to an end. -/
theorem Tree.acc {P : Node → (Digest → List Name) → Prop} {l : List Name}
    (inj : Function.Injective H) (h : Tree H P d l) : Acc (Function.swap (Refers H)) d := by
  induction h with
  | @node d n below denotes branches sound ih =>
      refine .intro d ?_
      rintro e ⟨m, hm, he⟩
      obtain rfl := hm.unique inj denotes
      exact ih e he

/-- In a tree in order, the ranges are wide enough. -/
theorem Ordered.spanned (inj : Function.Injective H) (h : Ordered H d) : Spanned H d := by
  intro e n he hn a ha
  obtain ⟨l, hl⟩ := h
  obtain ⟨l', he⟩ := hl.of_leads inj he
  have hmem := (he.mem_iff inj).mpr ha
  cases he with
  | node denotes branches sound =>
      obtain rfl := hn.unique inj denotes
      exact sound.spans a hmem

theorem not_rel_self_of_acc {α : Type} {rel : α → α → Prop} {a : α} (h : Acc rel a) : ¬ rel a a := by
  induction h with
  | intro a _ ih => exact fun ha => ih a ha ha

theorem Whole.acyclic (inj : Function.Injective H) (h : Whole H d) : Acyclic H d := by
  intro e he hback
  obtain ⟨l, hl⟩ := h
  obtain ⟨l', he⟩ := hl.of_leads inj he
  exact not_rel_self_of_acc (he.acc inj).transGen (Relation.transGen_swap.mpr hback)

namespace Cache

theorem falls_rank (hc : c.Genuine H) (acyclic : Acyclic H d) :
    Falls H (c.shown H) (c.rank H) d := by
  intro e n he hn k hk
  refine rank_lt ⟨n, hn, hk⟩ ?_
  intro hback
  refine acyclic e he (Relation.TransGen.mono ?_ e e hback)
  rintro _ _ ⟨m, hm, hl⟩
  exact ⟨m, hc.truly _ _ hm, hl⟩

/-- The depth of a search is enough for every tree without a cycle, and so is any greater depth. -/
theorem search_snd (hc : c.Genuine H) (acyclic : Acyclic H d) (hdepth : c.size < depth) :
    (c.search H d name).2 = verdict (c.shown H) name depth d := by
  have hle := c.rank_le (H := H) d
  exact (searchTree_snd c d).trans
    (verdict_of_rank_lt hc.truly (falls_rank hc acyclic) (by omega) (by omega))

/-- A definite answer stays when more nodes come. Both searches are brought to a depth that is enough for
either. -/
theorem search_mono (hc : c.Genuine H) (hc' : c'.Genuine H) (acyclic : Acyclic H d)
    (hshown : ∀ e n, c.shown H e = some n → c'.shown H e = some n)
    (h : (c.search H d name).2 = some v) : (c'.search H d name).2 = some v := by
  have hdepth : c.size < c.size + c'.size + 1 := by omega
  have hdepth' : c'.size < c.size + c'.size + 1 := by omega
  rw [search_snd hc acyclic hdepth] at h
  rw [search_snd hc' acyclic hdepth']
  exact verdict_mono hshown le_rfl h

/-- Looking changes no answer. -/
theorem search_looks (hc : c.Genuine H) (acyclic : Acyclic H d) (h : Looks H c c') :
    (c'.search H d name).2 = (c.search H d name).2 := by
  have hdepth : c.size < c.size + c'.size + 1 := by omega
  have hdepth' : c'.size < c.size + c'.size + 1 := by omega
  rw [search_snd hc acyclic hdepth, search_snd (h.keeps.genuine hc) acyclic hdepth', h.shown]

/-! ## Sifting -/

/-- The names that are left over are those that were not found. -/
theorem unheld_snd (hc : c.Genuine H) (acyclic : Acyclic H d) (h : Looks H c c')
    (names : List Name) : (unheld H d c' names).2 =
      names.filter (fun a => (c.search H d a).2 ≠ some true) := by
  induction names generalizing c' with
  | nil => rfl
  | cons name rest ih =>
      have hlooks : Looks H c (c'.search H d name).1 := h.trans (looks_searchTree name _ c' d)
      have hanswer : (c'.search H d name).2 = (c.search H d name).2 := search_looks hc acyclic h
      simp only [unheld]
      split
      · rename_i c'' hsearch
        rw [hsearch] at hlooks hanswer
        rw [ih hlooks, List.filter_cons_of_neg (by simp [← hanswer])]
      · rename_i c'' answer hnot hsearch
        rw [hsearch] at hlooks hanswer
        have hunheld : (c.search H d name).2 ≠ some true := hanswer ▸ hnot
        rw [List.filter_cons_of_pos (by simpa using hunheld)]
        exact congrArg (name :: ·) (ih hlooks)

/-- A node that is put in is shown under its digest. -/
theorem look_putNode (inj : Function.Injective H) (hc : c.Genuine H) (n : Node) :
    ((c.putNode H n).1.look H (n.digest H)).2 = .present n := by
  rw [look_eq_present_iff]
  unfold putNode
  dsimp only
  rw [slot_modify, if_pos rfl]
  split
  · rename_i m hm
    rw [Slot.look_look, hm, (hc _).look m hm |>.unique inj (denotes_digest H n)]
  · rfl

/-- What sifting comes to: the names that were not found go into a stand-in, in order, which a look
finds under its digest, and the others are counted. Names count once. -/
structure Separated (H : Hashing) (c : Cache) (d : Digest) (names kept : List Name)
    (sifted : Cache × Residue) : Prop where
  ordered : kept.Pairwise (· < ·)
  mem : ∀ a, a ∈ kept ↔ a ∈ names ∧ (c.search H d a).2 ≠ some true
  none_left : kept = [] → sifted.2.remainder = none
  standIn : kept ≠ [] → ∃ n : Node, sifted.2.remainder = some (n.digest H, n) ∧
    n.items = kept.map .leaf ∧ (sifted.1.look H (n.digest H)).2 = .present n
  known : sifted.2.known = (ascending names).countP (fun a => (c.search H d a).2 = some true)

theorem separated_sift (inj : Function.Injective H) (hc : c.Genuine H) (acyclic : Acyclic H d)
    (names : List Name) :
    ∃ kept, Separated H c d names kept (c.sift H (some d) names) := by
  have hlooks := (leftOver_sub (H := H) c (some d) (ascending names)).1
  have hkept : (c.leftOver H (some d) (ascending names)).2 =
      (ascending names).filter (fun a => (c.search H d a).2 ≠ some true) :=
    unheld_snd hc acyclic .refl (ascending names)
  have hordered := (pairwise_ascending names).filter (fun a => (c.search H d a).2 ≠ some true)
  rw [← hkept] at hordered
  refine ⟨_, hordered, ?_, ?_, ?_, ?_⟩
  · intro a
    rw [hkept]
    simp
  · intro hnil
    rw [sift_eq, hnil]
    rfl
  · intro hne
    have hsome : ¬ (c.leftOver H (some d) (ascending names)).2.isEmpty := by simpa using hne
    rw [sift_eq, if_neg hsome]
    refine ⟨Node.ofNames (c.leftOver H (some d) (ascending names)).2, ?_, ?_, ?_⟩
    · rw [Cache.standIn, if_neg hsome]
    · simp [Node.ofNames, ascending_eq_self hordered]
    · exact look_putNode inj (hlooks.keeps.genuine hc) _
  · rw [sift_eq, hkept, ← List.countP_eq_length_filter, List.length_eq_countP_add_countP
      (fun a => decide ((c.search H d a).2 = some true))]
    simp

open Sample in
/-- The tree consists of its root and the branch `{2}`. -/
theorem leads_branching (h : Leads Digest.mk (fun _ => False) (.ref (root branching)) (.ref e)) :
    e = root branching ∨ e = root (flat [2]) := by
  rcases h.cases_node injective_mk (denotes_digest _ branching) with h | ⟨i, hi, h⟩
  · exact .inl (Item.ref.inj h)
  · have hi : i = .leaf (Sample.name 1) ∨ i = .ref (root (flat [2])) := by simpa [branching] using hi
    rcases hi with rfl | rfl
    · cases h.of_leaf
    · rcases h.cases_node injective_mk (denotes_digest _ (flat [2])) with h | ⟨j, hj, h⟩
      · exact .inr (Item.ref.inj h)
      · obtain ⟨a, -, rfl⟩ := List.mem_map.mp hj
        cases h.of_leaf

/-- Over a tree without a cycle, whatever part of it is at hand: a name that a search finds is below
the root. If the ranges are wide enough, a name that it excludes is not. With all nodes at hand the
search decides. A decision stays when more nodes come. So sifting puts just those names into its
stand-in that the search does not find, and counts the others. -/
theorem search_sound_and_lasting (inj : Function.Injective H) (hc : c.Genuine H)
    (acyclic : Acyclic H d) :
    (∀ a, (c.search H d a).2 = some true → Leads H (fun _ => False) (.ref d) (.leaf a)) ∧
      (Spanned H d → ∀ a, (c.search H d a).2 = some false →
        ¬ Leads H (fun _ => False) (.ref d) (.leaf a)) ∧
      ((∀ e, Leads H (fun _ => False) (.ref d) (.ref e) → ∃ n, (c.look H e).2 = .present n) →
        ∀ a, (c.search H d a).2 ≠ none) ∧
      (∀ c' : Cache, c'.Genuine H →
        (∀ e n, (c.look H e).2 = .present n → (c'.look H e).2 = .present n) →
        ∀ a v, (c.search H d a).2 = some v → (c'.search H d a).2 = some v) ∧
      ∀ names, ∃ kept, Separated H c d names kept (c.sift H (some d) names) := by
  have hanswer : ∀ a, (c.search H d a).2 = verdict (c.shown H) a (c.size + 1) d :=
    fun a => searchTree_snd c d
  refine ⟨?_, ?_, ?_, ?_, separated_sift inj hc acyclic⟩
  · intro a ha
    exact leads_of_verdict hc.truly ((hanswer a).symm.trans ha)
  · intro hspanned a ha
    exact not_leads_of_verdict inj hc.truly hspanned ((hanswer a).symm.trans ha)
  · intro hall a
    rw [hanswer]
    refine verdict_ne_none hc.truly (falls_rank hc acyclic) ?_ (Nat.lt_succ_of_le (c.rank_le d))
    intro e he
    obtain ⟨n, hn⟩ := hall e he
    exact ⟨n, shown_of_look hn⟩
  · intro c' hc' hmore a v ha
    refine search_mono hc hc' acyclic ?_ ha
    exact fun e n hn => shown_of_look (hmore e n (look_of_shown hn))

open Sample in
/-- While the branch `{2}` is not at hand, `1` is found, `3` is excluded and `2` is neither, so that `2`
and `3` are left over. With the branch, `2` is decided and `3` is excluded as before. -/
theorem search_sound_and_lasting_branching :
    let c := ((ofAttempts 3).putNode Digest.mk branching).1
    let d := root branching
    let more := (c.putNode Digest.mk (flat [2])).1
    Leads Digest.mk (fun _ => False) (.ref d) (.leaf (Sample.name 1)) ∧
      ¬ Leads Digest.mk (fun _ => False) (.ref d) (.leaf (Sample.name 3)) ∧
      (c.search Digest.mk d (Sample.name 2)).2 = none ∧
      (more.search Digest.mk d (Sample.name 2)).2 ≠ none ∧
      (more.search Digest.mk d (Sample.name 3)).2 = some false ∧
      ∃ kept, Separated Digest.mk c d ([3, 2, 1, 2].map Sample.name) kept
        (c.sift Digest.mk (some d) ([3, 2, 1, 2].map Sample.name)) := by
  intro c d more
  have hc : c.Genuine Digest.mk := (keeps_putNode _ _).genuine (genuine_ofAttempts 3)
  have hmore : more.Genuine Digest.mk := (keeps_putNode _ _).genuine hc
  have hordered := ordered_of_honest injective_mk ⟨_, honestTree_branching⟩
  have hacyclic := hordered.whole.acyclic injective_mk
  have hthree : (c.search Digest.mk d (Sample.name 3)).2 = some false := by decide +kernel
  have hlater : ∀ e n, (c.look Digest.mk e).2 = .present n → (more.look Digest.mk e).2 = .present n :=
    fun e n hn => present_after hn [.putNode (flat [2])]
  have hall : ∀ e, Leads Digest.mk (fun _ => False) (.ref d) (.ref e) →
      ∃ n, (more.look Digest.mk e).2 = .present n := by
    intro e he
    rcases leads_branching he with rfl | rfl
    · exact ⟨branching, hlater _ _ (look_putNode injective_mk (genuine_ofAttempts 3) branching)⟩
    · exact ⟨flat [2], look_putNode injective_mk hc (flat [2])⟩
  obtain ⟨hfound, hexcluded, -, hlasting, hsifted⟩ :=
    search_sound_and_lasting injective_mk hc hacyclic
  obtain ⟨-, -, hdecided, -⟩ := search_sound_and_lasting injective_mk hmore hacyclic
  exact ⟨hfound _ (by decide +kernel), hexcluded (hordered.spanned injective_mk) _ hthree,
    by decide +kernel, hdecided hall _, hlasting more hmore hlater _ _ hthree, hsifted _⟩

end Cache

end Reconcile

import Mathlib.Data.Finset.Card
import Mathlib.Logic.Relation
import Reconcile.Proofs.Cache.Obscured
import Reconcile.Proofs.Cache.Sifting

/-! # The nodes that a cache shows

Looking, asking and marking change nothing about the nodes that a cache shows. These refer to one
another. As long as the references go round in no circle, every node has a rank below that of the nodes
that refer to it, no greater than the number of slots. So a search is never cut short. -/

namespace Reconcile

variable {H : Hashing} {c c' : Cache} {d e : Digest} {n : Node} {name : Name}

theorem Catalog.length_entries {κ α : Type} (t : Catalog κ α) : t.entries.length = t.size := by
  have hfoldr : ∀ rest : List (κ × α), (t.foldr (fun k v rest => (k, v) :: rest) rest).length =
      t.foldr (fun _ _ n => n + 1) rest.length := by
    induction t with
    | empty => exact fun _ => rfl
    | node left key value right ihl ihr =>
      intro rest
      cases value with
      | none => simp [Catalog.foldr, ihl, ihr]
      | some v => simp [Catalog.foldr, ihl, ihr]
  exact hfoldr []

namespace Cache

/-- The node that a look at a digest would find. -/
def shown (H : Hashing) (c : Cache) (d : Digest) : Option Node := ((c.slot d).look H d).node?

theorem shown_of_look (h : (c.look H d).2 = .present n) : c.shown H d = some n :=
  look_eq_present_iff.mp h

theorem shown_congr (h : ∀ d, (c'.slot d).body = (c.slot d).body) : c'.shown H = c.shown H := by
  funext d
  exact Slot.node?_look_congr (h d)

theorem shown_look (c : Cache) (d : Digest) : (c.look H d).1.shown H = c.shown H := by
  funext e
  rw [shown, slot_look]
  split
  · rw [Slot.look_look, shown]
  · rfl

theorem shown_request (c : Cache) (d : Digest) (refusal : Option FetchFailure) :
    (c.request d refusal).1.shown H = c.shown H :=
  shown_congr (body_request c d refusal)

theorem shown_markKnown (c : Cache) (d : Digest) : (c.markKnown d).shown H = c.shown H := by
  refine shown_congr ?_
  intro e
  rw [markKnown, slot_modify]
  split
  · rename_i hde
    rw [hde]
    rfl
  · rfl

theorem Looks.shown (h : Looks H c c') : c'.shown H = c.shown H := by
  induction h with
  | refl => rfl
  | look _ d ih => exact (shown_look _ d).trans ih

/-- Of handed-in bytes nothing is shown but the node that they are. -/
theorem shown_putBytes {bytes : Bytes} (h : (c.putBytes H bytes).1.shown H d = some n) :
    c.shown H d = some n ∨ Node.decodeAs H d bytes = .ok n := by
  rw [putBytes_fst, shown, slot_modify] at h
  split at h
  · rename_i hd
    subst hd
    have htwice : (c.taken H bytes).look H (H bytes) = c.taken H bytes := Slot.look_look H _ _
    rw [htwice, taken] at h
    split at h
    · exact .inl h
    · rename_i hfilled
      rw [Slot.holdBytes_of_unfilled (by simpa using hfilled), Slot.look] at h
      dsimp only at h
      split at h
      · rename_i m hm
        obtain rfl := Option.some.inj h
        exact .inr hm
      · cases h
  · exact .inl h

theorem shown_putNode {m : Node} (h : (c.putNode H m).1.shown H d = some n) :
    c.shown H d = some n ∨ n = m := by
  unfold putNode at h
  dsimp only at h
  rw [shown, slot_modify] at h
  split at h
  · rename_i hd
    subst hd
    split at h
    · rw [Slot.look_look] at h
      exact .inl h
    · exact .inr (Option.some.inj h).symm
  · exact .inl h

/-- Sifting adds nothing but a stand-in, which refers to no other node. -/
theorem shown_sift {baseline : Option Digest} {names : List Name}
    (h : (c.sift H baseline names).1.shown H d = some n) : c.shown H d = some n ∨ n.refs = [] := by
  obtain ⟨hleft, -⟩ := leftOver_sub (H := H) c baseline (ascending names)
  rw [← hleft.shown]
  obtain ⟨hsift | ⟨kept, hsift⟩, -⟩ := sift_cases (H := H) c baseline names
  · rw [hsift] at h
    exact .inl h
  · rw [hsift] at h
    refine (shown_putNode h).imp_right ?_
    rintro rfl
    exact Node.refs_ofNames kept

/-! ## References -/

/-- The node that the cache shows for one digest lists the other. -/
def Links (H : Hashing) (c : Cache) (d e : Digest) : Prop := ∃ n, c.shown H d = some n ∧ e ∈ n.refs

/-- The digests that the cache has a slot for. -/
def mentioned (c : Cache) : List Digest := c.slots.entries.map Prod.fst

theorem mem_mentioned_of_shown (h : c.shown H d = some n) : d ∈ c.mentioned := by
  cases hget : c.slots.get? d with
  | none =>
      rw [shown, slot, hget] at h
      cases h
  | some s => exact List.mem_map.mpr ⟨(d, s), Catalog.mem_entries_of_get? hget, rfl⟩

theorem length_mentioned (c : Cache) : c.mentioned.length = c.size := by
  rw [mentioned, List.length_map, size]
  exact Catalog.length_entries c.slots

/-- The ranks fall along the references. -/
def Ranked (shown : Digest → Option Node) (rank : Digest → Nat) : Prop :=
  ∀ d n, shown d = some n → ∀ e ∈ n.refs, rank e < rank d

open Classical in
/-- How many of the mentioned digests the references of the nodes at hand lead to. -/
noncomputable def rank (H : Hashing) (c : Cache) (d : Digest) : Nat :=
  (c.mentioned.toFinset.filter (Relation.ReflTransGen (c.Links H) d)).card

theorem rank_le (c : Cache) (d : Digest) : c.rank H d ≤ c.size := by
  classical
  rw [← length_mentioned]
  exact (Finset.card_filter_le _ _).trans (List.toFinset_card_le _)

/-- A node that does not lead back to itself has a greater rank than those it refers to. -/
theorem rank_lt (hlink : c.Links H d e) (acyclic : ¬ Relation.TransGen (c.Links H) d d) :
    c.rank H e < c.rank H d := by
  classical
  have ⟨n, hn, _⟩ := hlink
  refine Finset.card_lt_card ⟨?_, ?_⟩
  · intro k hk
    obtain ⟨hk, hpath⟩ := Finset.mem_filter.mp hk
    exact Finset.mem_filter.mpr ⟨hk, hpath.head hlink⟩
  · intro hsub
    have hd : d ∈ c.mentioned.toFinset.filter (Relation.ReflTransGen (c.Links H) d) :=
      Finset.mem_filter.mpr ⟨List.mem_toFinset.mpr (mem_mentioned_of_shown hn), .refl⟩
    obtain ⟨-, hback⟩ := Finset.mem_filter.mp (hsub hd)
    exact acyclic (.head' hlink hback)

/-- References that go round in no circle give every node a rank. -/
theorem exists_rank (acyclic : ∀ d, ¬ Relation.TransGen (c.Links H) d d) :
    ∃ rank, Ranked (c.shown H) rank ∧ ∀ d, rank d ≤ c.size :=
  ⟨c.rank H, fun d n hn _ he => rank_lt ⟨n, hn, he⟩ (acyclic d), c.rank_le⟩

/-! ## Searching -/

theorem searchItems_congr {P : Cache → Prop} {below below' : Cache → Digest → Cache × Option Bool}
    {items : List Item} (hbelow : ∀ c d, P c → .ref d ∈ items → below c d = below' c d)
    (hkeeps : ∀ c d, P c → P (below' c d).1) (hc : P c) (unknown : Bool) :
    searchItems below name c unknown items = searchItems below' name c unknown items := by
  induction items generalizing c unknown with
  | nil => rfl
  | cons i rest ih =>
      have ih := fun c hc => ih (c := c) (fun c d h hd => hbelow c d h (List.mem_cons_of_mem i hd)) hc
      cases i with
      | leaf leaf =>
          simp only [searchItems]
          split
          · rfl
          · exact ih c hc unknown
      | ref d =>
          have hd := hkeeps c d hc
          simp only [searchItems]
          rw [hbelow c d hc List.mem_cons_self]
          split
          · rfl
          · rename_i c' h
            rw [h] at hd
            exact ih c' hd unknown
          · rename_i c' h
            rw [h] at hd
            exact ih c' hd true

/-- From the rank of a node on, the depth of a search in it makes no difference. -/
theorem searchTree_of_rank_lt {shown : Digest → Option Node} {rank : Digest → Nat}
    (hrank : Ranked shown rank) {depth depth' : Nat} (hc : c.shown H = shown) (hd : rank d < depth)
    (hd' : rank d < depth') : searchTree H name depth c d = searchTree H name depth' c d := by
  induction depth generalizing depth' c d with
  | zero => cases hd
  | succ depth ih =>
      cases depth' with
      | zero => cases hd'
      | succ depth' =>
          have hlook := shown_look (H := H) c d
          simp only [searchTree]
          split
          · rename_i c' node h
            have hnode : shown d = some node := hc ▸ shown_of_look (congrArg Prod.snd h)
            rw [h, hc] at hlook
            split
            · refine searchItems_congr (P := fun c => c.shown H = shown) ?_ ?_ hlook false
              · intro c e hc he
                have hlt := hrank d node hnode e (Node.mem_refs.mpr he)
                exact ih hc (Nat.lt_of_lt_of_le hlt (Nat.le_of_lt_succ hd))
                  (Nat.lt_of_lt_of_le hlt (Nat.le_of_lt_succ hd'))
              · intro c e hc
                exact (looks_searchTree name depth' c e).shown.trans hc
            · rfl
          · rfl

/-- A search is never cut short, if the references of the nodes at hand go round in no circle. -/
theorem search_eq (acyclic : ∀ d, ¬ Relation.TransGen (c.Links H) d d) (more : Nat) :
    searchTree H name (c.size + 1 + more) c d = c.search H d name := by
  obtain ⟨rank, hrank, hle⟩ := exists_rank acyclic
  have hd := hle d
  exact searchTree_of_rank_lt hrank rfl (by omega) (by omega)

end Cache

end Reconcile

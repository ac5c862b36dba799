import Reconcile.Cache.Search
import Reconcile.Proofs.Cache.Genuine
import Reconcile.Proofs.Tree

/-! # Sifting loses no name

A search that finds a name is right. So every name that is sifted either lies below the baseline or
is listed by the stand-in node. -/

namespace Reconcile

variable {H : Hashing}

/-- The names below a baseline, if there is one. -/
noncomputable def heldNames (H : Hashing) (baseline : Option Digest) : List Name :=
  (baseline.map (namesBelow H)).getD []

@[simp] theorem heldNames_none : heldNames H none = [] := rfl

@[simp] theorem heldNames_some (d : Digest) : heldNames H (some d) = namesBelow H d := rfl

namespace Cache

/-! ## Searching -/

theorem looks_searchItems {below : Cache → Digest → Cache × Option Bool} {name : Name}
    (hbelow : ∀ c d, Looks H c (below c d).1) (c : Cache) (unknown : Bool) (items : List Item) :
    Looks H c (searchItems below name c unknown items).1 := by
  induction items generalizing c unknown with
  | nil => exact .refl
  | cons i rest ih =>
      cases i with
      | leaf leaf =>
          simp only [searchItems]
          split
          · exact .refl
          · exact ih c unknown
      | ref d =>
          have hd := hbelow c d
          simp only [searchItems]
          split
          · rename_i h
            simpa only [h] using hd
          · rename_i c' h
            rw [h] at hd
            exact hd.trans (ih c' unknown)
          · rename_i c' h
            rw [h] at hd
            exact hd.trans (ih c' true)

theorem looks_searchTree (name : Name) (depth : Nat) (c : Cache) (d : Digest) :
    Looks H c (searchTree H name depth c d).1 := by
  induction depth generalizing c d with
  | zero => exact .refl
  | succ depth ih =>
      have hlook : Looks H c (c.look H d).1 := .look .refl d
      simp only [searchTree]
      split
      · rename_i c' node h
        rw [h] at hlook
        split
        · exact hlook.trans (looks_searchItems ih c' false node.items)
        · exact hlook
      · rename_i h
        simpa only [h] using hlook

theorem mem_of_searchItems {below : Cache → Digest → Cache × Option Bool} {name : Name}
    (hkeeps : ∀ c d, Keeps H c (below c d).1) {items : List Item}
    (hbelow : ∀ c d, .ref d ∈ items → c.Genuine H → (below c d).2 = some true →
      name ∈ namesBelow H d) {c : Cache} (hc : c.Genuine H) {unknown : Bool}
    (h : (searchItems below name c unknown items).2 = some true) :
    name ∈ items.flatMap (Item.row (namesBelow H)) := by
  induction items generalizing c unknown with
  | nil => cases unknown <;> simp [searchItems] at h
  | cons i rest ih =>
      have hrest := fun c d hd => hbelow c d (List.mem_cons_of_mem i hd)
      rw [List.flatMap_cons]
      refine List.mem_append.mpr ?_
      cases i with
      | leaf leaf =>
          simp only [searchItems] at h
          split at h
          · rename_i hleaf
            exact .inl (List.mem_singleton.mpr hleaf.symm)
          · exact .inr (ih hrest hc h)
      | ref d =>
          have hkeep := hkeeps c d
          simp only [searchItems] at h
          split at h
          · rename_i hd
            exact .inl (hbelow c d List.mem_cons_self hc (by rw [hd]))
          · rename_i c' hd
            rw [hd] at hkeep
            exact .inr (ih hrest (hkeep.genuine hc) h)
          · rename_i c' hd
            rw [hd] at hkeep
            exact .inr (ih hrest (hkeep.genuine hc) h)

theorem mem_of_searchTree (inj : Function.Injective H) {name : Name} {depth : Nat} {c : Cache}
    (hc : c.Genuine H) {d : Digest} (hd : Honest H d)
    (h : (searchTree H name depth c d).2 = some true) : name ∈ namesBelow H d := by
  induction depth generalizing c d with
  | zero => cases h
  | succ depth ih =>
      simp only [searchTree] at h
      split at h
      · rename_i c' node hlook
        have hnode : Denotes H d node := denotes_of_look hc (by rw [hlook])
        have hkeep := keeps_look (H := H) c d
        rw [hlook] at hkeep
        split at h
        · rw [hd.names inj hnode]
          refine mem_of_searchItems (fun c d => (looks_searchTree name depth c d).keeps) ?_
            (hkeep.genuine hc) h
          intro c e he hc h
          exact ih hc (hd.branch inj hnode (Node.mem_refs.mpr he)) h
        · cases h
      · cases h

/-! ## Sifting -/

/-- What is left over of a row of names was in it. -/
theorem unheld_sub (root : Digest) (c : Cache) (names : List Name) :
    Looks H c (unheld H root c names).1 ∧ ∀ a ∈ (unheld H root c names).2, a ∈ names := by
  induction names generalizing c with
  | nil => exact ⟨.refl, by simp [unheld]⟩
  | cons name rest ih =>
      have hlook : Looks H c (c.search H root name).1 := looks_searchTree name _ c root
      simp only [unheld]
      split
      · rename_i c' hsearch
        rw [hsearch] at hlook
        obtain ⟨hlooks, hsub⟩ := ih c'
        exact ⟨hlook.trans hlooks, fun a ha => List.mem_cons_of_mem _ (hsub a ha)⟩
      · rename_i c' answer _ hsearch
        rw [hsearch] at hlook
        obtain ⟨hlooks, hsub⟩ := ih c'
        refine ⟨hlook.trans hlooks, ?_⟩
        intro a ha
        rcases List.mem_cons.mp ha with rfl | ha
        · exact List.mem_cons_self
        · exact List.mem_cons_of_mem _ (hsub a ha)

/-- What is not left over of a row of names lies below the baseline. -/
theorem unheld_all (inj : Function.Injective H) {root : Digest} (hroot : Honest H root)
    {c : Cache} (hc : c.Genuine H) (names : List Name) :
    ∀ a ∈ names, a ∈ (unheld H root c names).2 ∨ a ∈ namesBelow H root := by
  induction names generalizing c with
  | nil => simp
  | cons name rest ih =>
      have hkeep : Keeps H c (c.search H root name).1 := (looks_searchTree name _ c root).keeps
      simp only [unheld]
      split
      · rename_i c' hsearch
        have hfound : (searchTree H name (c.size + 1) c root).2 = some true :=
          congrArg Prod.snd hsearch
        have hname : name ∈ namesBelow H root := mem_of_searchTree inj hc hroot hfound
        rw [hsearch] at hkeep
        intro a ha
        rcases List.mem_cons.mp ha with rfl | ha
        · exact .inr hname
        · exact ih (hkeep.genuine hc) a ha
      · rename_i c' answer _ hsearch
        rw [hsearch] at hkeep
        intro a ha
        rcases List.mem_cons.mp ha with rfl | ha
        · exact .inl List.mem_cons_self
        · exact (ih (hkeep.genuine hc) a ha).imp_left (List.mem_cons_of_mem _)

/-- The stand-in for a row of names, if there are any. -/
def standIn (H : Hashing) (kept : List Name) : Option (Digest × Node) :=
  if kept.isEmpty then none else some ((Node.ofNames kept).digest H, Node.ofNames kept)

theorem mem_leaves_standIn {kept : List Name} {a : Name} :
    (∃ n ∈ (standIn H kept).map Prod.snd, a ∈ n.leaves) ↔ a ∈ kept := by
  cases kept with
  | nil => simp [standIn]
  | cons b rest => simp [standIn]

/-- The tree of a stand-in is honest and holds the names it stands for. -/
theorem honest_standIn (inj : Function.Injective H) {kept : List Name} {d : Digest}
    (hd : d ∈ (standIn H kept).map Prod.fst) :
    Honest H d ∧ namesBelow H d = ascending kept := by
  cases kept with
  | nil => cases hd
  | cons b rest =>
      obtain rfl : (Node.ofNames (b :: rest)).digest H = d := Option.some.inj hd
      have htree := honestTree_ofNames H (b :: rest)
      exact ⟨⟨_, htree⟩, htree.namesBelow_eq inj⟩

theorem mem_heldNames_standIn (inj : Function.Injective H) {kept : List Name} {a : Name}
    (ha : a ∈ kept) : a ∈ heldNames H ((standIn H kept).map Prod.fst) := by
  cases kept with
  | nil => cases ha
  | cons b rest =>
      have hd : (Node.ofNames (b :: rest)).digest H ∈ (standIn H (b :: rest)).map Prod.fst := rfl
      have hnames := (honest_standIn inj hd).2
      rw [show heldNames H ((standIn H (b :: rest)).map Prod.fst) = _ from hnames]
      exact mem_ascending.mpr ha

/-- The stand-in lists only names that were sifted, and every name that was sifted is listed by it or
lies below the baseline. -/
structure Sifted (H : Hashing) (baseline : Option Digest) (names : List Name)
    (remainder : Option (Digest × Node)) (kept : List Name) : Prop where
  remainder_eq : remainder = standIn H kept
  sub : ∀ a ∈ kept, a ∈ names
  all : ∀ a ∈ names, a ∈ kept ∨ a ∈ heldNames H baseline

/-- The names that are left over when those below a baseline are taken away. -/
def leftOver (H : Hashing) (c : Cache) : Option Digest → List Name → Cache × List Name
  | none, names => (c, names)
  | some root, names => unheld H root c names

theorem leftOver_sub (c : Cache) (baseline : Option Digest) (names : List Name) :
    Looks H c (c.leftOver H baseline names).1 ∧
      ∀ a ∈ (c.leftOver H baseline names).2, a ∈ names := by
  cases baseline with
  | none => exact ⟨.refl, fun a ha => ha⟩
  | some root => exact unheld_sub root c names

theorem leftOver_all (inj : Function.Injective H) {c : Cache} (hc : c.Genuine H)
    {baseline : Option Digest} (hbaseline : ∀ d ∈ baseline, Honest H d) (names : List Name) :
    ∀ a ∈ names, a ∈ (c.leftOver H baseline names).2 ∨ a ∈ heldNames H baseline := by
  cases baseline with
  | none => exact fun a ha => .inl ha
  | some root => exact unheld_all inj (hbaseline root rfl) hc names

/-- The names that are left over get a stand-in, which is put into the cache; the others are counted. -/
theorem sift_eq (c : Cache) (baseline : Option Digest) (names : List Name) :
    c.sift H baseline names =
      (if (c.leftOver H baseline (ascending names)).2.isEmpty then
          (c.leftOver H baseline (ascending names)).1
        else ((c.leftOver H baseline (ascending names)).1.putNode H
          (Node.ofNames (c.leftOver H baseline (ascending names)).2)).1,
        ⟨standIn H (c.leftOver H baseline (ascending names)).2,
          (ascending names).length - (c.leftOver H baseline (ascending names)).2.length⟩) := by
  have hsift : c.sift H baseline names =
      if (c.leftOver H baseline (ascending names)).2.isEmpty then
        ((c.leftOver H baseline (ascending names)).1,
          ⟨none, (ascending names).length - (c.leftOver H baseline (ascending names)).2.length⟩)
      else
        (((c.leftOver H baseline (ascending names)).1.putNode H
            (Node.ofNames (c.leftOver H baseline (ascending names)).2)).1,
          ⟨some ((Node.ofNames (c.leftOver H baseline (ascending names)).2).digest H,
              Node.ofNames (c.leftOver H baseline (ascending names)).2),
            (ascending names).length -
              (c.leftOver H baseline (ascending names)).2.length⟩) := by
    cases baseline <;> rfl
  rw [hsift]
  unfold standIn
  split <;> rfl

/-- What sifting makes of the cache, and the stand-in. -/
theorem sift_cases (c : Cache) (baseline : Option Digest) (names : List Name) :
    ((c.sift H baseline names).1 = (c.leftOver H baseline (ascending names)).1 ∨
      ∃ kept, (c.sift H baseline names).1 =
        ((c.leftOver H baseline (ascending names)).1.putNode H (Node.ofNames kept)).1) ∧
      (c.sift H baseline names).2.remainder =
        standIn H (c.leftOver H baseline (ascending names)).2 := by
  rw [sift_eq]
  refine ⟨?_, rfl⟩
  dsimp only
  split
  · exact .inl rfl
  · exact .inr ⟨_, rfl⟩

/-- The stand-in lists only names that were sifted. -/
theorem sift_sub (c : Cache) (baseline : Option Digest) (names : List Name) :
    Keeps H c (c.sift H baseline names).1 ∧
      (c.sift H baseline names).2.remainder =
        standIn H (c.leftOver H baseline (ascending names)).2 ∧
      ∀ a ∈ (c.leftOver H baseline (ascending names)).2, a ∈ names := by
  obtain ⟨hleft, hsub⟩ := leftOver_sub (H := H) c baseline (ascending names)
  obtain ⟨hsift, hremainder⟩ := sift_cases (H := H) c baseline names
  refine ⟨hleft.keeps.trans ?_, hremainder, fun a ha => mem_ascending.mp (hsub a ha)⟩
  rcases hsift with hsift | ⟨kept, hsift⟩
  · rw [hsift]
    exact .refl _
  · rw [hsift]
    exact keeps_putNode _ _

theorem sift_spec (inj : Function.Injective H) {c : Cache} (hc : c.Genuine H)
    {baseline : Option Digest} (hbaseline : ∀ d ∈ baseline, Honest H d) (names : List Name) :
    Keeps H c (c.sift H baseline names).1 ∧
      ∃ kept, Sifted H baseline names (c.sift H baseline names).2.remainder kept := by
  obtain ⟨hkeeps, hremainder, hsub⟩ := sift_sub (H := H) c baseline names
  refine ⟨hkeeps, _, hremainder, hsub, ?_⟩
  intro a ha
  exact leftOver_all inj hc hbaseline (ascending names) a (mem_ascending.mpr ha)

end Cache

end Reconcile

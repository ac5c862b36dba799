import Reconcile.Publish.Shape
import Reconcile.Proofs.Node.Readable
import Reconcile.Proofs.Traversal.Outlook

/-! # Trees that are built are honest

Whatever its shape, a tree that is built over some names lists these names, and every node that its
root leads to is among those published. Each level of the tree covers the names of the level below, and
has fewer parts until one is left. Every node that is stored on the way states the range and the number
of its names, and holds no more parts than the shape allows. -/

namespace Reconcile

/-- Apart from its references, nothing in the node is too long. -/
structure Node.Sized (n : Node) : Prop where
  length : n.items.length < UInt64.size
  leaves : ∀ a ∈ n.leaves, a.Fits
  least : n.least.Fits
  greatest : n.greatest.Fits

theorem Node.Sized.fits {n : Node} (h : n.Sized) (hrefs : ∀ d ∈ n.refs, d.Fits) : n.Fits where
  length := h.length
  items i hi := by
    cases i with
    | leaf a => exact h.leaves a (List.mem_filterMap.mpr ⟨.leaf a, hi, rfl⟩)
    | ref d => exact hrefs d (Node.mem_refs.mpr hi)
  least := h.least
  greatest := h.greatest

theorem Name.fits_root : Name.root.Fits :=
  ⟨by decide, fun _ hc => nomatch hc⟩

theorem Node.sized_ofNames {names : List Name} (hordered : names.Pairwise (· < ·))
    (hlength : names.length < UInt64.size) (hfits : ∀ a ∈ names, a.Fits) :
    (Node.ofNames names).Sized := by
  have hrow : ascending names = names := ascending_eq_self hordered
  have hgetD : ∀ a : Option Name, (∀ b ∈ a, b.Fits) → (a.getD .root).Fits := by
    intro a ha
    cases a with
    | none => exact Name.fits_root
    | some b => exact ha b rfl
  refine ⟨?_, ?_, hgetD _ (fun b hb => ?_), hgetD _ (fun b hb => ?_)⟩
  · simpa [ofNames, hrow] using hlength
  · rw [leaves_ofNames, hrow]
    exact hfits
  · exact hfits b (hrow ▸ List.mem_of_mem_head? hb)
  · exact hfits b (hrow ▸ List.mem_of_mem_getLast? hb)

namespace Publication

variable {H : Hashing} {width : Nat} {nodes nodes' nodes'' : Catalog Digest Bytes} {n : Node} {d : Digest}

/-! ## Nodes that are stored -/

/-- The node that the digest names is stored under it. -/
def Holds (H : Hashing) (nodes : Catalog Digest Bytes) (d : Digest) : Prop :=
  ∃ n : Node, n.digest H = d ∧ nodes.get? d = some n.encode ∧ n.Sized

theorem Holds.isSome (h : Holds H nodes d) : (nodes.get? d).isSome := by
  obtain ⟨n, -, hget, -⟩ := h
  simp [hget]

theorem holds_store (nodes : Catalog Digest Bytes) (hn : n.Sized) :
    Holds H (store H nodes n).1 (n.digest H) :=
  ⟨n, rfl, by simp [store], hn⟩

theorem Holds.store (h : Holds H nodes d) (hn : n.Sized) :
    Holds H (Publication.store H nodes n).1 d := by
  by_cases hnd : n.digest H = d
  · exact hnd ▸ holds_store nodes hn
  · obtain ⟨m, hm, hget, hsized⟩ := h
    exact ⟨m, hm, by simpa [Publication.store, hnd] using hget, hsized⟩

/-- A node states the range and the number of the names below it, and has no more than `width` items
if it is not a leaf node. Without names its range is the root name. -/
structure Exact (H : Hashing) (width : Nat) (n : Node) : Prop where
  honest : Honest H (n.digest H)
  least : n.least = (namesBelow H (n.digest H)).head?.getD .root
  greatest : n.greatest = (namesBelow H (n.digest H)).getLast?.getD .root
  count : n.count.toNat = (namesBelow H (n.digest H)).length
  narrow : n.refs ≠ [] → n.items.length ≤ width

/-- All that is stored are exact nodes under their own digests, and what they refer to is stored. -/
def Stocked (H : Hashing) (width : Nat) (nodes : Catalog Digest Bytes) : Prop :=
  ∀ d bytes, nodes.get? d = some bytes → ∃ n : Node, n.digest H = d ∧ bytes = n.encode ∧ n.Sized ∧
    Exact H width n ∧ ∀ e ∈ n.refs, (nodes.get? e).isSome

theorem stocked_empty (width : Nat) : Stocked H width .empty := fun _ _ h => nomatch h

theorem Stocked.store (h : Stocked H width nodes) (hsized : n.Sized) (hexact : Exact H width n)
    (hrefs : ∀ e ∈ n.refs, Holds H nodes e) : Stocked H width (Publication.store H nodes n).1 := by
  have hmore : ∀ e, (nodes.get? e).isSome → ((nodes.insert (n.digest H) n.encode).get? e).isSome := by
    intro e he
    rw [Catalog.get?_insert]
    split
    · rfl
    · exact he
  intro d bytes hget
  simp only [Publication.store, Catalog.get?_insert] at hget
  split at hget
  · rename_i hd
    exact ⟨n, hd, (Option.some.inj hget).symm, hsized, hexact, fun e he => hmore e (hrefs e he).isSome⟩
  · obtain ⟨m, hm, hbytes, hsized', hexact', hrefs'⟩ := h d bytes hget
    exact ⟨m, hm, hbytes, hsized', hexact', fun e he => hmore e (hrefs' e he)⟩

/-- Storing more nodes loses none, and the nodes that are stored are as they should be. -/
structure Extends (H : Hashing) (width : Nat) (nodes nodes' : Catalog Digest Bytes) : Prop where
  holds : ∀ d, Holds H nodes d → Holds H nodes' d
  stocked : Stocked H width nodes → Stocked H width nodes'

theorem Extends.refl (nodes : Catalog Digest Bytes) : Extends H width nodes nodes :=
  ⟨fun _ => id, id⟩

theorem Extends.trans (h : Extends H width nodes nodes') (h' : Extends H width nodes' nodes'') :
    Extends H width nodes nodes'' :=
  ⟨fun d hd => h'.holds d (h.holds d hd), fun hs => h'.stocked (h.stocked hs)⟩

theorem extends_store (hsized : n.Sized) (hexact : Exact H width n)
    (hrefs : ∀ e ∈ n.refs, Holds H nodes e) : Extends H width nodes (store H nodes n).1 :=
  ⟨fun _ hd => hd.store hsized, fun hs => hs.store hsized hexact hrefs⟩

/-- A leaf node is exact. -/
theorem exact_ofNames (inj : Function.Injective H) (width : Nat) {names : List Name}
    (hordered : names.Pairwise (· < ·)) (hlength : names.length < UInt64.size) :
    namesBelow H ((Node.ofNames names).digest H) = names ∧ Exact H width (Node.ofNames names) := by
  have hrow : ascending names = names := ascending_eq_self hordered
  have htree : HonestTree H ((Node.ofNames names).digest H) names := by
    have htree := honestTree_ofNames H names
    rwa [hrow] at htree
  have hnames := htree.namesBelow_eq inj
  refine ⟨hnames, ⟨_, htree⟩, ?_, ?_, ?_, ?_⟩
  · rw [hnames, Node.ofNames, hrow]
  · rw [hnames, Node.ofNames, hrow]
  · rw [hnames, Node.ofNames, hrow]
    exact UInt64.toNat_ofNat_of_lt' hlength
  · simp [Node.refs_ofNames]

/-! ## Pieces -/

section Cut

variable {α : Type}

theorem flatten_cut (sizes left : List Nat) (l : List α) : (cut sizes left l).flatten = l := by
  fun_induction cut sizes left l with
  | case1 => rfl
  | case2 a rest => simp
  | case3 a rest n left hsizes ih =>
      subst hsizes
      simp [ih]
  | case4 n left a rest ih => simp [ih]

theorem ne_nil_of_mem_cut {sizes left : List Nat} {l piece : List α}
    (h : piece ∈ cut sizes left l) : piece ≠ [] := by
  fun_induction cut sizes left l with
  | case1 => cases h
  | case2 a rest =>
      obtain rfl := List.mem_singleton.mp h
      exact List.cons_ne_nil a rest
  | case3 a rest n left hsizes ih =>
      subst hsizes
      rcases List.mem_cons.mp h with rfl | h
      · exact List.cons_ne_nil _ _
      · exact ih h
  | case4 n left a rest ih =>
      rcases List.mem_cons.mp h with rfl | h
      · exact List.cons_ne_nil _ _
      · exact ih h

theorem length_cut_le (sizes left : List Nat) (l : List α) :
    (cut sizes left l).length ≤ l.length := by
  fun_induction cut sizes left l with
  | case1 => exact le_refl _
  | case2 a rest => simp
  | case3 a rest n left hsizes ih =>
      subst hsizes
      rw [List.length_drop] at ih
      simp only [List.length_cons]
      omega
  | case4 n left a rest ih =>
      rw [List.length_drop] at ih
      simp only [List.length_cons]
      omega

/-- No piece is longer than the greatest size. -/
theorem length_le_of_mem_cut {width : Nat} (hwidth : 0 < width) {sizes left : List Nat}
    {l piece : List α} (hne : sizes ≠ []) (hsizes : ∀ n ∈ sizes, n ≤ width)
    (hleft : ∀ n ∈ left, n ≤ width) (h : piece ∈ cut sizes left l) : piece.length ≤ width := by
  have hpiece : ∀ (a : α) (rest : List α) (n : Nat), n ≤ width →
      (a :: rest.take (n - 1)).length ≤ width := by
    intro a rest n hn
    simp only [List.length_cons, List.length_take]
    omega
  fun_induction cut sizes left l with
  | case1 => cases h
  | case2 a rest hnone => exact absurd hnone hne
  | case3 a rest n left hcons ih =>
      subst hcons
      rcases List.mem_cons.mp h with rfl | h
      · exact hpiece a rest n (hsizes n List.mem_cons_self)
      · exact ih (fun m hm => hsizes m (List.mem_cons_of_mem n hm)) h
  | case4 n left a rest ih =>
      rcases List.mem_cons.mp h with rfl | h
      · exact hpiece a rest n (hleft n List.mem_cons_self)
      · exact ih (fun m hm => hleft m (List.mem_cons_of_mem n hm)) h

/-- Where two or more make a piece, there are fewer pieces. -/
theorem length_cut_lt {width : Nat} (hwidth : 2 ≤ width) {l : List α} (hl : 2 ≤ l.length) :
    (cut [width] [] l).length < l.length := by
  obtain ⟨a, b, rest, rfl⟩ : ∃ a b rest, l = a :: b :: rest := by
    match l, hl with
    | a :: b :: rest, _ => exact ⟨a, b, rest, rfl⟩
  have hrest := length_cut_le [width] [] ((b :: rest).drop (width - 1))
  rw [cut]
  simp only [List.length_cons, List.length_drop] at hrest ⊢
  omega

end Cut

/-! ## Parts -/

namespace Part

variable {p : Part} {parts : List Part}

/-- The names that a part stands for. -/
noncomputable def names (H : Hashing) (p : Part) : List Name := p.item.row (namesBelow H)

/-- A part stands for some names, and states their range and number. All its nodes are stored. -/
structure Stands (H : Hashing) (nodes : Catalog Digest Bytes) (p : Part) : Prop where
  honest : ∀ d, p.item = .ref d → Honest H d
  held : ∀ d, Leads H (fun _ => False) p.item (.ref d) → Holds H nodes d
  least : (p.names H).head? = some p.least
  greatest : (p.names H).getLast? = some p.greatest
  count : p.count = UInt64.ofNat (p.names H).length
  fits : ∀ a ∈ p.names H, a.Fits

theorem Stands.mono (h : p.Stands H nodes) (hextends : Extends H width nodes nodes') :
    p.Stands H nodes' :=
  { h with held := fun d hd => hextends.holds d (h.held d hd) }

theorem Stands.ne_nil (h : p.Stands H nodes) : p.names H ≠ [] := by
  intro hnil
  have hleast := h.least
  rw [hnil] at hleast
  cases hleast

theorem stands_ofName (nodes : Catalog Digest Bytes) {a : Name} (ha : a.Fits) :
    (ofName a).Stands H nodes where
  honest _ hd := nomatch hd
  held _ hd := nomatch hd.of_leaf
  least := rfl
  greatest := rfl
  count := rfl
  fits _ hb := List.mem_singleton.mp hb ▸ ha

/-- Once it is stored, an exact node with some names makes a part. -/
theorem stands_ofNode (inj : Function.Injective H) (hexact : Exact H width n) (hsized : n.Sized)
    (hne : namesBelow H (n.digest H) ≠ [])
    (hheld : ∀ e ∈ n.refs, ∀ d, Leads H (fun _ => False) (.ref e) (.ref d) → Holds H nodes d)
    (hfits : ∀ a ∈ namesBelow H (n.digest H), a.Fits) :
    Extends H width nodes (store H nodes n).1 ∧
      (ofNode (n.digest H) n).Stands H (store H nodes n).1 := by
  have hrefs : ∀ e ∈ n.refs, Holds H nodes e := fun e he => hheld e he e (.refl _)
  refine ⟨extends_store hsized hexact hrefs, ?_, ?_, ?_, ?_, ?_, hfits⟩
  · rintro d hd
    cases hd
    exact hexact.honest
  · intro d hd
    rcases hd.cases_node inj (denotes_digest H n) with hd | ⟨i, hi, hd⟩
    · cases hd
      exact holds_store nodes hsized
    · cases i with
      | leaf a => cases hd.of_leaf
      | ref e => exact (hheld e (Node.mem_refs.mpr hi) d hd).store hsized
  · have hhead := List.head?_eq_some_head hne
    have hleast := hexact.least
    rw [hhead] at hleast
    exact hhead.trans (congrArg some hleast.symm)
  · have hlast := List.getLast?_eq_some_getLast hne
    have hgreatest := hexact.greatest
    rw [hlast] at hgreatest
    exact hlast.trans (congrArg some hgreatest.symm)
  · exact (UInt64.ofNat_toNat (x := n.count)).symm.trans (congrArg UInt64.ofNat hexact.count)

/-- After some nodes, more are stored, and a part is made that stands for a row of names. -/
structure Makes (H : Hashing) (width : Nat) (nodes : Catalog Digest Bytes) (row : List Name)
    (made : Catalog Digest Bytes × Part) : Prop where
  grows : Extends H width nodes made.1
  stands : made.2.Stands H made.1
  names : made.2.names H = row

/-! ## Parts made of names -/

/-- A piece of a row of names becomes a part. -/
theorem makes_leafPart (inj : Function.Injective H) (inlined : Bool) (width : Nat)
    (nodes : Catalog Digest Bytes) {piece : List Name} (hne : piece ≠ [])
    (hordered : piece.Pairwise (· < ·)) (hlength : piece.length < UInt64.size)
    (hfits : ∀ a ∈ piece, a.Fits) :
    Makes H width nodes piece (leafPart H inlined nodes piece) := by
  unfold leafPart
  split
  · rename_i name
    exact ⟨.refl nodes, stands_ofName nodes (hfits name List.mem_cons_self), rfl⟩
  · obtain ⟨hnames, hexact⟩ := exact_ofNames inj width hordered hlength
    have hsized : (Node.ofNames piece).Sized := Node.sized_ofNames hordered hlength hfits
    have hheld : ∀ e ∈ (Node.ofNames piece).refs, ∀ d,
        Leads H (fun _ => False) (.ref e) (.ref d) → Holds H nodes d := by
      simp [Node.refs_ofNames]
    obtain ⟨hextends, hstands⟩ := stands_ofNode inj hexact hsized (by rwa [hnames]) hheld
      (by rwa [hnames])
    exact ⟨hextends, hstands, hnames⟩

/-! ## Parts made of parts -/

theorem row_above (parts : List Part) :
    (above parts).row (namesBelow H) = parts.flatMap (names H) := by
  simp only [Node.row, above, List.flatMap_map]
  rfl

theorem mem_refs_above {parts : List Part} {d : Digest} :
    d ∈ (above parts).refs ↔ ∃ p ∈ parts, p.item = .ref d := by
  rw [Node.mem_refs]
  exact List.mem_map

section Group

variable (hne : parts ≠ []) (hstands : ∀ p ∈ parts, p.Stands H nodes)

include hne hstands

/-- The node above some parts states their range. -/
theorem range_above : (parts.flatMap (names H)).head? = some (above parts).least ∧
    (parts.flatMap (names H)).getLast? = some (above parts).greatest := by
  constructor
  · obtain ⟨p, rest, rfl⟩ := List.exists_cons_of_ne_nil hne
    have hp := hstands p List.mem_cons_self
    rw [List.flatMap_cons, List.head?_append, hp.least]
    rfl
  · obtain ⟨front, p, rfl⟩ := (List.eq_nil_or_concat parts).resolve_left hne
    have hp := hstands p (by simp)
    simp only [List.concat_eq_append, List.flatMap_append, List.flatMap_singleton,
      List.getLast?_append, hp.greatest]
    simp [above]

theorem sized_above (hlength : parts.length < UInt64.size) : (above parts).Sized := by
  have hfits : ∀ a ∈ parts.flatMap (names H), a.Fits := by
    intro a ha
    obtain ⟨p, hp, ha⟩ := List.mem_flatMap.mp ha
    exact (hstands p hp).fits a ha
  obtain ⟨hleast, hgreatest⟩ := range_above hne hstands
  refine ⟨by simpa [above] using hlength, ?_, hfits _ (List.mem_of_mem_head? hleast),
    hfits _ (List.mem_of_mem_getLast? hgreatest)⟩
  intro a ha
  obtain ⟨i, hi, ha⟩ := List.mem_filterMap.mp ha
  obtain ⟨p, hp, rfl⟩ := List.mem_map.mp hi
  refine hfits a (List.mem_flatMap.mpr ⟨p, hp, ?_⟩)
  unfold names
  cases hitem : p.item with
  | ref d => simp [hitem, Item.leaf?] at ha
  | leaf b =>
      obtain rfl : b = a := by simpa [hitem, Item.leaf?] using ha
      exact List.mem_singleton_self b

theorem honestTree_above (inj : Function.Injective H)
    (hordered : (parts.flatMap (names H)).Pairwise (· < ·)) :
    HonestTree H ((above parts).digest H) (parts.flatMap (names H)) := by
  obtain ⟨hleast, hgreatest⟩ := range_above hne hstands
  rw [← row_above] at hordered hleast hgreatest ⊢
  refine .node (denotes_digest H _) ?_ ⟨?_, hordered, ?_, ?_⟩
  · intro e he
    obtain ⟨p, hp, hitem⟩ := mem_refs_above.mp he
    exact ((hstands p hp).honest e hitem).tree inj
  · intro e he
    obtain ⟨p, hp, hitem⟩ := mem_refs_above.mp he
    have hinhabited := (hstands p hp).ne_nil
    rwa [names, hitem] at hinhabited
  · intro a ha
    exact Option.some.inj (ha.symm.trans hleast)
  · intro a ha
    exact Option.some.inj (ha.symm.trans hgreatest)

omit hne in
theorem count_above : (above parts).count = UInt64.ofNat (parts.flatMap (names H)).length := by
  have hfoldl : ∀ count : UInt64, (parts.map Part.count).foldl (· + ·) count =
      count + UInt64.ofNat (parts.flatMap (names H)).length := by
    induction parts with
    | nil => exact fun count => (UInt64.add_zero count).symm
    | cons p rest ih =>
        intro count
        have hrest := ih (fun q hq => hstands q (List.mem_cons_of_mem p hq))
        rw [List.map_cons, List.foldl_cons, hrest, (hstands p List.mem_cons_self).count,
          List.flatMap_cons, List.length_append, UInt64.ofNat_add, UInt64.add_assoc]
  exact (hfoldl 0).trans (UInt64.zero_add _)

omit hne in
/-- There are no fewer names than parts. -/
theorem length_le_flatMap : parts.length ≤ (parts.flatMap (names H)).length := by
  induction parts with
  | nil => exact le_rfl
  | cons p rest ih =>
      have hrest := ih (fun q hq => hstands q (List.mem_cons_of_mem p hq))
      have hp := List.length_pos_iff.mpr (hstands p List.mem_cons_self).ne_nil
      rw [List.flatMap_cons, List.length_append, List.length_cons]
      omega

/-- A group of parts becomes a part. -/
theorem makes_groupPart (inj : Function.Injective H)
    (hordered : (parts.flatMap (names H)).Pairwise (· < ·))
    (hfew : (parts.flatMap (names H)).length < UInt64.size) (hnarrow : parts.length ≤ width) :
    Makes H width nodes (parts.flatMap (names H)) (groupPart H nodes parts) := by
  have htree := honestTree_above hne hstands inj hordered
  have hsized := sized_above hne hstands ((length_le_flatMap hstands).trans_lt hfew)
  have hnames := htree.namesBelow_eq inj
  obtain ⟨hleast, hgreatest⟩ := range_above hne hstands
  have hinhabited : parts.flatMap (names H) ≠ [] := by
    intro hnil
    rw [hnil] at hleast
    cases hleast
  have hexact : Exact H width (above parts) := by
    refine ⟨⟨_, htree⟩, ?_, ?_, ?_, ?_⟩
    · rw [hnames, hleast]
      rfl
    · rw [hnames, hgreatest]
      rfl
    · rw [hnames, count_above hstands]
      exact UInt64.toNat_ofNat_of_lt' hfew
    · intro _
      simpa [above] using hnarrow
  have hheld : ∀ e ∈ (above parts).refs, ∀ d, Leads H (fun _ => False) (.ref e) (.ref d) →
      Holds H nodes d := by
    intro e he
    obtain ⟨p, hp, hitem⟩ := mem_refs_above.mp he
    exact hitem ▸ (hstands p hp).held
  have hfits : ∀ a ∈ namesBelow H ((above parts).digest H), a.Fits := by
    rw [hnames]
    intro a ha
    obtain ⟨p, hp, ha⟩ := List.mem_flatMap.mp ha
    exact (hstands p hp).fits a ha
  obtain ⟨hextends, hpart⟩ := stands_ofNode inj hexact hsized (by rwa [hnames]) hheld hfits
  exact ⟨hextends, hpart, hnames⟩

end Group

end Part

/-! ## Levels -/

/-- After some nodes, more are stored, and a row of parts is made that stands for a row of names. -/
structure Makes (H : Hashing) (width : Nat) (nodes : Catalog Digest Bytes) (row : List Name)
    (made : Catalog Digest Bytes × List Part) : Prop where
  grows : Extends H width nodes made.1
  stands : ∀ p ∈ made.2, p.Stands H made.1
  names : made.2.flatMap (Part.names H) = row

section Levels

variable {row : List Name} {made made' : Catalog Digest Bytes × List Part}

theorem Makes.trans (h : Makes H width nodes row made) (h' : Makes H width made.1 row made') :
    Makes H width nodes row made' :=
  { h' with grows := h.grows.trans h'.grows }

theorem Makes.ne_nil (h : Makes H width nodes row made) (hrow : row ≠ []) : made.2 ≠ [] := by
  intro hnil
  rw [← h.names, hnil] at hrow
  exact hrow rfl

/-- Each of a row of pieces or groups becomes a part. -/
theorem makes_level {α : Type} {make : Catalog Digest Bytes → α → Catalog Digest Bytes × Part}
    {names : α → List Name} {as : List α}
    (hmake : ∀ nodes', Extends H width nodes nodes' → ∀ a ∈ as,
      Part.Makes H width nodes' (names a) (make nodes' a)) :
    Makes H width nodes (as.flatMap names) (level make nodes as) := by
  induction as generalizing nodes with
  | nil => exact ⟨.refl nodes, fun p hp => (nomatch hp), rfl⟩
  | cons a as ih =>
      have hfirst := hmake nodes (.refl nodes) a List.mem_cons_self
      have hrest := ih (fun nodes' h b hb =>
        hmake nodes' (hfirst.grows.trans h) b (List.mem_cons_of_mem a hb))
      refine ⟨hfirst.grows.trans hrest.grows, ?_, ?_⟩
      · intro p hp
        rcases List.mem_cons.mp hp with rfl | hp
        · exact hfirst.stands.mono hrest.grows
        · exact hrest.stands p hp
      · simp only [level, List.flatMap_cons, hfirst.names, hrest.names]

theorem length_level {α : Type} (make : Catalog Digest Bytes → α → Catalog Digest Bytes × Part)
    (nodes : Catalog Digest Bytes) (as : List α) : (level make nodes as).2.length = as.length := by
  induction as generalizing nodes with
  | nil => rfl
  | cons a as ih => simp only [level, List.length_cons, ih]

/-- The lowest level is made of pieces of the names. -/
theorem makes_leafParts (inj : Function.Injective H) (inlined : Bool) (sizes : List Nat)
    (hordered : row.Pairwise (· < ·)) (hlength : row.length < UInt64.size)
    (hfits : ∀ a ∈ row, a.Fits) :
    Makes H width nodes row (level (leafPart H inlined) nodes (cut sizes [] row)) := by
  have hpieces := flatten_cut sizes [] row
  have hlevel : Makes H width nodes ((cut sizes [] row).flatMap id)
      (level (leafPart H inlined) nodes (cut sizes [] row)) := by
    refine makes_level (fun nodes' _ piece hpiece => ?_)
    have hsub : piece.Sublist row := hpieces ▸ List.sublist_flatten_of_mem hpiece
    exact Part.makes_leafPart inj inlined width nodes' (ne_nil_of_mem_cut hpiece)
      (hordered.sublist hsub) (hsub.length_le.trans_lt hlength) (fun a ha => hfits a (hsub.subset ha))
  rwa [List.flatMap_id, hpieces] at hlevel

/-- What stands in a group stands there in a row. -/
theorem flatMap_flatten {α β : Type} (groups : List (List α)) (f : α → List β) :
    groups.flatten.flatMap f = groups.flatMap (fun group => group.flatMap f) := by
  rw [← List.flatMap_id, List.flatMap_assoc]
  rfl

theorem sublist_flatMap_of_mem {α β : Type} {groups : List (List α)} {group : List α}
    (h : group ∈ groups) (f : α → List β) :
    (group.flatMap f).Sublist (groups.flatten.flatMap f) := by
  rw [flatMap_flatten, List.flatMap_def (l := groups)]
  exact List.sublist_flatten_of_mem (List.mem_map_of_mem h)

/-- The level above a level stands for the same names. -/
theorem Makes.above (inj : Function.Injective H) (hwidth : 0 < width)
    (hordered : row.Pairwise (· < ·)) (hfew : row.length < UInt64.size)
    (h : Makes H width nodes row made) :
    Makes H width nodes row (level (groupPart H) made.1 (cut [width] [] made.2)) := by
  have hgroups := flatten_cut [width] [] made.2
  have hlevel : Makes H width made.1
      ((cut [width] [] made.2).flatMap (fun group => group.flatMap (Part.names H)))
      (level (groupPart H) made.1 (cut [width] [] made.2)) := by
    refine makes_level (fun nodes' hgrows group hgroup => ?_)
    have hsub : group.Sublist made.2 := hgroups ▸ List.sublist_flatten_of_mem hgroup
    have hnames := sublist_flatMap_of_mem hgroup (Part.names H)
    rw [hgroups, h.names] at hnames
    refine Part.makes_groupPart (ne_nil_of_mem_cut hgroup) ?_ inj (hordered.sublist hnames)
      (hnames.length_le.trans_lt hfew) ?_
    · exact fun p hp => (h.stands p (hsub.subset hp)).mono hgrows
    · exact length_le_of_mem_cut hwidth (List.cons_ne_nil _ _) (by simp) (by simp) hgroup
  rw [← flatMap_flatten, hgroups, h.names] at hlevel
  exact h.trans hlevel

/-- Levels are built until one part is left, which stands for the names of all. There are fewer groups
than parts, so the fuel lasts. -/
theorem Makes.climb (inj : Function.Injective H) (hwidth : 2 ≤ width)
    (hordered : row.Pairwise (· < ·)) (hfew : row.length < UInt64.size) (hrow : row ≠ [])
    {fuel : Nat} (hfuel : made.2.length ≤ fuel) (h : Makes H width nodes row made) :
    ∃ nodes' p, Publication.climb H width fuel made.1 made.2 = (nodes', [p]) ∧
      Part.Makes H width nodes row (nodes', p) := by
  induction fuel generalizing made with
  | zero => exact absurd (List.length_eq_zero_iff.mp (Nat.le_zero.mp hfuel)) (h.ne_nil hrow)
  | succ fuel ih =>
      have hpos := List.length_pos_iff.mpr (h.ne_nil hrow)
      rw [Publication.climb]
      split
      · rename_i hone
        obtain ⟨p, hp⟩ := List.length_eq_one_iff.mp (Nat.le_antisymm hone hpos)
        have hnames := h.names
        rw [hp, List.flatMap_singleton] at hnames
        exact ⟨made.1, p, by rw [hp], h.grows, h.stands p (hp ▸ List.mem_cons_self), hnames⟩
      · rename_i hmany
        have hless := length_cut_lt hwidth (l := made.2) (by omega)
        rw [← length_level (groupPart H) made.1] at hless
        exact ih (by omega) (h.above inj (by omega) hordered hfew)

end Levels

/-! ## Publications -/

/-- The tree that is published lists some names, and every node that its root leads to is stored. What
is stored are nodes of such trees. -/
structure Sound (H : Hashing) (width : Nat) (p : Publication) (names : List Name) : Prop where
  tree : HonestTree H p.root names
  held : ∀ d, Leads H (fun _ => False) (.ref p.root) (.ref d) → Holds H p.nodes d
  stocked : Stocked H width p.nodes

theorem sound_flat (inj : Function.Injective H) (hnodes : Stocked H width nodes) {names : List Name}
    (hordered : names.Pairwise (· < ·)) (hlength : names.length < UInt64.size)
    (hfits : ∀ a ∈ names, a.Fits) : (flat H nodes names).Sound H width names := by
  have hsized := Node.sized_ofNames hordered hlength hfits
  refine ⟨?_, ?_, ?_⟩
  · have htree := honestTree_ofNames H names
    rwa [ascending_eq_self hordered] at htree
  · intro d hd
    rcases hd.cases_node inj (denotes_digest H (Node.ofNames names)) with hd | ⟨i, hi, hd⟩
    · cases hd
      exact holds_store nodes hsized
    · obtain ⟨a, -, rfl⟩ := List.mem_map.mp hi
      cases hd.of_leaf
  · exact hnodes.store hsized (exact_ofNames inj width hordered hlength).2 (by simp [Node.refs_ofNames])

/-- A part that is left alone makes a tree. -/
theorem Part.Stands.sound {d : Digest} {least greatest : Name} {count : UInt64}
    (inj : Function.Injective H) (h : Part.Stands H nodes ⟨.ref d, least, greatest, count⟩)
    (hnodes : Stocked H width nodes) :
    Sound H width ⟨d, nodes⟩ (Part.names H ⟨.ref d, least, greatest, count⟩) where
  tree := (h.honest d rfl).tree inj
  held := h.held
  stocked := hnodes

/-- A tree of any shape that is built over some names lists just these. -/
theorem sound_publish (inj : Function.Injective H) (s : Shape) {names : List Name}
    (hlength : names.length < UInt64.size) (hfits : ∀ a ∈ names, a.Fits) :
    (s.publish H names).Sound H s.width (ascending names) := by
  have hordered := pairwise_ascending names
  have hlength := (length_ascending_le names).trans_lt hlength
  have hfits : ∀ a ∈ ascending names, a.Fits := fun a ha => hfits a (mem_ascending.mp ha)
  have hwidth : 2 ≤ s.width := le_max_right _ _
  unfold Shape.publish
  dsimp only
  generalize ascending names = names at *
  split
  · exact sound_flat inj (stocked_empty s.width) hordered hlength hfits
  · rename_i hlarge
    have hrow : names ≠ [] := by
      rintro rfl
      exact hlarge (Nat.zero_le _)
    have hleaves : Makes H s.width .empty names
        (level (leafPart H s.inlined) .empty (cut s.turns [] names)) :=
      makes_leafParts inj s.inlined s.turns hordered hlength hfits
    obtain ⟨nodes, ⟨item, least, greatest, count⟩, hclimb, hpart⟩ :=
      hleaves.climb inj hwidth hordered hlength hrow le_rfl
    rw [hclimb]
    cases item with
    | ref d => exact hpart.names ▸ hpart.stands.sound inj (hpart.grows.stocked (stocked_empty s.width))
    | leaf a =>
        have hone : names = [a] := hpart.names.symm
        rw [hone] at hlarge
        exact absurd (Nat.le_of_succ_le hwidth) hlarge

end Publication

end Reconcile

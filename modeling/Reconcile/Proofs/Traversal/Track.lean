import Reconcile.Proofs.Traversal.Outlook
import Reconcile.Proofs.Traversal.Underway
import Reconcile.Proofs.Tree.Ordered

/-! # Each side of a traversal goes along the row of its tree

Over any trees: what the frames of a side have left is the end of the row that the tree lists, and the
last name passed stands before it. Names may be passed over, but no side ever turns back. -/

namespace Reconcile

variable {H : Hashing} {below : Digest → List Name} {f : Frame} {fs : List Frame} {n : Node} {i : Item}
  {d : Digest} {last : Option Name}

/-! ## Names that are left -/

/-- The names from the position of a frame to the end of its node, given those below each digest. -/
def Frame.namesLeft (below : Digest → List Name) (f : Frame) : List Name :=
  match f.node with
  | none => below f.digest
  | some n => (n.items.drop f.position).flatMap (Item.row below)

/-- The names that a stack of frames has left. -/
def namesLeft (below : Digest → List Name) (frames : List Frame) : List Name :=
  frames.flatMap (Frame.namesLeft below)

@[simp] theorem namesLeft_nil : namesLeft below [] = [] := rfl

@[simp] theorem namesLeft_cons (f : Frame) (fs : List Frame) :
    namesLeft below (f :: fs) = f.namesLeft below ++ namesLeft below fs := rfl

@[simp] theorem namesLeft_markIncomplete (fs : List Frame) :
    namesLeft below (fs.map Frame.markIncomplete) = namesLeft below fs := by
  have hsame : ∀ f : Frame, f.markIncomplete.namesLeft below = f.namesLeft below := fun _ => rfl
  simp [namesLeft, List.flatMap_map, hsame]

theorem Frame.namesLeft_start (d : Digest) : (start d).namesLeft below = below d := rfl

theorem Frame.namesLeft_at (hf : f.At n i) :
    f.namesLeft below = i.row below ++ f.advance.namesLeft below := by
  simp only [namesLeft, advance, hf.node]
  rw [hf.drop_eq, List.flatMap_cons]

theorem Frame.namesLeft_resolve (hnone : f.node = none) (hstart : f.position = 0)
    (hrow : below f.digest = n.row below) :
    (f.resolve n).namesLeft below = f.namesLeft below := by
  simp only [namesLeft, resolve, hnone, hstart, List.drop_zero]
  exact hrow.symm

/-! ## One side -/

/-- A side that goes along the row `l`. -/
def Track (below : Digest → List Name) (l : List Name) (frames : List Frame) (last : Option Name) :
    Prop :=
  ∃ p, l = p ++ namesLeft below frames ∧ ∀ a ∈ last, a ∈ p

/-- A side has passed some names, and its last one is among them if it is new. -/
def Sheds (below : Digest → List Name) (frames : List Frame) (last : Option Name)
    (frames' : List Frame) (last' : Option Name) : Prop :=
  ∃ q, namesLeft below frames = q ++ namesLeft below frames' ∧ ∀ a ∈ last', a ∈ last ∨ a ∈ q

theorem Track.sheds {l : List Name} {frames frames' : List Frame} {last' : Option Name}
    (h : Track below l frames last) (hs : Sheds below frames last frames' last') :
    Track below l frames' last' := by
  obtain ⟨p, rfl, hlast⟩ := h
  obtain ⟨q, hq, hlast'⟩ := hs
  refine ⟨p ++ q, by rw [hq, List.append_assoc], ?_⟩
  intro a ha
  exact List.mem_append.mpr ((hlast' a ha).imp_left (hlast a))

theorem track_start (d : Digest) : Track below (below d) [.start d] none :=
  ⟨[], by simp [Frame.namesLeft_start], fun a ha => nomatch ha⟩

/-- The last name comes before every name that is left. -/
theorem Track.sublist {l : List Name} {frames : List Frame} (h : Track below l frames last)
    {a b : Name} (hb : b ∈ last) (ha : a ∈ namesLeft below frames) : [b, a].Sublist l := by
  obtain ⟨p, rfl, hlast⟩ := h
  have hb : [b].Sublist p := List.singleton_sublist.mpr (hlast b hb)
  exact hb.append (List.singleton_sublist.mpr ha)

theorem sheds_advance (hf : f.At n i) (fs : List Frame) (last : Option Name) :
    Sheds below (f :: fs) last (f.advance :: fs) ((Traversal.leafAt f).or last) := by
  refine ⟨i.row below, ?_, ?_⟩
  · rw [namesLeft_cons, namesLeft_cons, Frame.namesLeft_at hf, List.append_assoc]
  · intro a ha
    cases i with
    | leaf b =>
        rw [leafAt_leaf hf] at ha
        exact .inr (List.mem_singleton.mpr (Option.some.inj ha).symm)
    | ref d =>
        rw [leafAt_ref hf] at ha
        exact .inl ha

theorem sheds_enter (hf : f.At n (.ref d)) (fs : List Frame) (last : Option Name) :
    Sheds below (f :: fs) last (.start d :: f.advance :: fs) ((Traversal.leafAt f).or last) := by
  refine ⟨[], ?_, ?_⟩
  · rw [namesLeft_cons, namesLeft_cons, namesLeft_cons, Frame.namesLeft_at hf, List.append_assoc]
    rfl
  · intro a ha
    rw [leafAt_ref hf] at ha
    exact .inl ha

theorem sheds_leave (f : Frame) (fs : List Frame) (last : Option Name) :
    Sheds below (f :: fs) last fs last :=
  ⟨f.namesLeft below, rfl, fun _ => .inl⟩

theorem sheds_resolve (hnone : f.node = none) (hstart : f.position = 0)
    (hrow : below f.digest = n.row below) (fs : List Frame) (last : Option Name) :
    Sheds below (f :: fs) last (f.resolve n :: fs) last :=
  ⟨[], by simp [Frame.namesLeft_resolve hnone hstart hrow], fun _ => .inl⟩

/-- A side that goes along the tree of a digest. -/
structure Along (H : Hashing) (d : Digest) (frames : List Frame) (last : Option Name) : Prop where
  within : ∀ f ∈ frames, f.Within H (fun _ => False) d
  track : Whole H d → Track (listing H) (listing H d) frames last

theorem along_start (d : Digest) : Along H d [.start d] none where
  within _ hf := List.mem_singleton.mp hf ▸ Frame.within_start (.refl _)
  track _ := track_start d

namespace Along

theorem advance (h : Along H d (f :: fs) last) (hf : f.At n i) :
    Along H d (f.advance :: fs) ((Traversal.leafAt f).or last) where
  within := by
    refine List.forall_mem_cons.mpr ⟨(h.within f List.mem_cons_self).advance hf.node, ?_⟩
    exact fun g hg => h.within g (List.mem_cons_of_mem f hg)
  track hd := (h.track hd).sheds (sheds_advance hf fs last)

theorem enter {e : Digest} (h : Along H d (f :: fs) last) (hf : f.At n (.ref e)) :
    Along H d (.start e :: f.advance :: fs) ((Traversal.leafAt f).or last) where
  within := by
    have hwithin := h.within f List.mem_cons_self
    exact List.forall_mem_cons.mpr
      ⟨Frame.within_start (hwithin.item hf), (h.advance hf).within⟩
  track hd := (h.track hd).sheds (sheds_enter hf fs last)

theorem leave (h : Along H d (f :: fs) last) : Along H d fs last where
  within g hg := h.within g (List.mem_cons_of_mem f hg)
  track hd := (h.track hd).sheds (sheds_leave f fs last)

theorem resolve (inj : Function.Injective H) (h : Along H d (f :: fs) last) (hnone : f.node = none)
    (hn : Denotes H f.digest n) : Along H d (f.resolve n :: fs) last where
  within := by
    have hwithin := h.within f List.mem_cons_self
    exact List.forall_mem_cons.mpr ⟨hwithin.resolve hn id, h.leave.within⟩
  track hd := by
    have hwithin := h.within f List.mem_cons_self
    have hwhole : Whole H f.digest := by
      obtain ⟨l, hl⟩ := hd
      exact hl.of_leads inj hwithin.leads
    have hrow := hwhole.listing_node inj hn
    exact (h.track hd).sheds (sheds_resolve hnone (hwithin.start hnone) hrow fs last)

theorem markIncomplete (h : Along H d fs last) : Along H d (fs.map Frame.markIncomplete) last where
  within g hg := by
    obtain ⟨f, hf, rfl⟩ := List.mem_map.mp hg
    exact (h.within f hf).markIncomplete
  track hd := by
    obtain ⟨p, hp, hlast⟩ := h.track hd
    exact ⟨p, by rw [namesLeft_markIncomplete, ← hp], hlast⟩

/-- A name at the innermost position is left. -/
theorem mem_namesLeft {a : Name} (hf : f.At n (.leaf a)) : a ∈ namesLeft below (f :: fs) := by
  rw [namesLeft_cons, Frame.namesLeft_at hf]
  simp [Item.row]

end Along

/-- A side that goes along the tree of a digest if there is one, and is empty if there is none. -/
def AlongBaseline (H : Hashing) : Option Digest → List Frame → Option Name → Prop
  | none, frames, _ => frames = []
  | some d, frames, last => Along H d frames last

theorem alongBaseline_start (baseline : Option Digest) :
    AlongBaseline H baseline (baseline.toList.map .start) none := by
  cases baseline with
  | none => rfl
  | some d => exact along_start d

theorem AlongBaseline.along {baseline : Option Digest}
    (h : AlongBaseline H baseline (f :: fs) last) : ∃ d ∈ baseline, Along H d (f :: fs) last := by
  cases baseline with
  | none => cases h
  | some d => exact ⟨d, rfl, h⟩

theorem Along.baseline {baseline : Option Digest} (hd : d ∈ baseline) (h : Along H d fs last) :
    AlongBaseline H baseline fs last := by
  obtain rfl : baseline = some d := hd
  exact h

/-! ## Moves -/

namespace Traversal

variable {c : Cache} {w : Traversal} {m : Move} {j : Item} {T : List Frame → Option Name → Prop}

/-- What a planned move does to the next side: nothing, or it passes the item there, or it enters the
reference there. A reference is passed only if it is known or the current tree is at it too. -/
theorem Planned.next_side (h : Planned H c w m f fs n j) (hkeep : T w.next w.lastNext)
    (hpass : (∀ d, j = .ref d → c.known d = true ∨ ∃ g gs n', w.current = g :: gs ∧ g.At n' j) →
      T (f.advance :: fs) ((leafAt f).or w.lastNext))
    (henter : ∀ d, j = .ref d → T (.start d :: f.advance :: fs) ((leafAt f).or w.lastNext)) :
    T (w.perform m).next (w.perform m).lastNext := by
  obtain ⟨hnext, hf, -, hchosen⟩ := h
  have hadvance : ∀ w' : Traversal, w'.next = w.next → w'.lastNext = w.lastNext →
      w'.advanceNext.next = f.advance :: fs ∧
        w'.advanceNext.lastNext = (leafAt f).or w.lastNext := by
    intro w' hw' hlast
    simp only [advanceNext, hw', hnext, hlast]
    exact ⟨trivial, trivial⟩
  have hcurrent : w.advanceCurrent.next = w.next ∧ w.advanceCurrent.lastNext = w.lastNext := by
    unfold advanceCurrent
    split <;> exact ⟨rfl, rfl⟩
  obtain ⟨hnext₁, hlast₁⟩ := hadvance w rfl rfl
  obtain ⟨hnext₂, hlast₂⟩ := hadvance w.advanceCurrent hcurrent.1 hcurrent.2
  have hpass₁ : (∀ d, j = .ref d → c.known d = true ∨ ∃ g gs n', w.current = g :: gs ∧ g.At n' j) →
      T w.advanceNext.next w.advanceNext.lastNext := by
    rw [hnext₁, hlast₁]
    exact hpass
  have hpass₂ : (∀ d, j = .ref d → c.known d = true ∨ ∃ g gs n', w.current = g :: gs ∧ g.At n' j) →
      T w.advanceCurrent.advanceNext.next w.advanceCurrent.advanceNext.lastNext := by
    rw [hnext₂, hlast₂]
    exact hpass
  have hleaf : ∀ (a : Name) (d : Digest), Item.leaf a ≠ .ref d := by
    intro a d h
    cases h
  generalize hw : w.current = current at hchosen hpass₁ hpass₂
  cases hchosen with
  | known hd => exact hpass₁ (fun d hj => .inl (Item.ref.inj hj ▸ hd))
  | record => exact hpass₁ (fun d hj => (hleaf _ d hj).elim)
  | least => exact hpass₁ (fun d hj => (hleaf _ d hj).elim)
  | same => exact hpass₂ (fun d hj => (hleaf _ d hj).elim)
  | greatest => exact hpass₂ (fun d hj => (hleaf _ d hj).elim)
  | share position => exact hpass₂ (fun d hj => .inr ⟨_, _, _, rfl, position⟩)
  | @enterNext _ d =>
      have h := henter d rfl
      rw [← hnext₁, ← hlast₁] at h
      exact h
  | @enterBoth _ _ _ _ d =>
      have h := henter d rfl
      rw [← hnext₂, ← hlast₂] at h
      exact h
  | enterCurrent =>
      rw [← hcurrent.1, ← hcurrent.2] at hkeep
      exact hkeep
  | skipCurrent =>
      rw [← hcurrent.1, ← hcurrent.2] at hkeep
      exact hkeep
  | leaveCurrent => exact hkeep

/-- What a planned move does to the current side: nothing, or it passes or enters the item there, or it
leaves the node there. -/
theorem Planned.current_side (h : Planned H c w m f fs n j) (hkeep : T w.current w.lastCurrent)
    (hpass : ∀ g gs n' i, w.current = g :: gs → g.At n' i →
      T (g.advance :: gs) ((leafAt g).or w.lastCurrent))
    (henter : ∀ g gs n' d, w.current = g :: gs → g.At n' (.ref d) →
      T (.start d :: g.advance :: gs) ((leafAt g).or w.lastCurrent))
    (hleave : ∀ g gs, w.current = g :: gs → T gs w.lastCurrent) :
    T (w.perform m).current (w.perform m).lastCurrent := by
  obtain ⟨-, -, -, hchosen⟩ := h
  have hnext : ∀ w' : Traversal, w'.advanceNext.current = w'.current ∧
      w'.advanceNext.lastCurrent = w'.lastCurrent := by
    intro w'
    unfold advanceNext
    split <;> exact ⟨rfl, rfl⟩
  have hadvance : ∀ {g gs}, w.current = g :: gs → w.advanceCurrent.current = g.advance :: gs ∧
      w.advanceCurrent.lastCurrent = (leafAt g).or w.lastCurrent := by
    intro g gs hw
    simp only [advanceCurrent, hw]
    exact ⟨trivial, trivial⟩
  have hkeep' : T w.advanceNext.current w.advanceNext.lastCurrent := by
    rw [(hnext w).1, (hnext w).2]
    exact hkeep
  have hpass₁ : ∀ {g gs n' i}, w.current = g :: gs → g.At n' i →
      T w.advanceCurrent.current w.advanceCurrent.lastCurrent := by
    intro g gs n' i hw hg
    rw [(hadvance hw).1, (hadvance hw).2]
    exact hpass g gs n' i hw hg
  have hpass₂ : ∀ {g gs n' i}, w.current = g :: gs → g.At n' i →
      T w.advanceCurrent.advanceNext.current w.advanceCurrent.advanceNext.lastCurrent := by
    intro g gs n' i hw hg
    rw [(hnext _).1, (hnext _).2]
    exact hpass₁ hw hg
  generalize hw : w.current = current at hchosen
  cases hchosen with
  | known => exact hkeep'
  | record => exact hkeep'
  | least => exact hkeep'
  | enterNext => exact hkeep'
  | same position => exact hpass₂ hw position
  | greatest position => exact hpass₂ hw position
  | share position => exact hpass₂ hw position
  | @enterBoth g gs n' x y position =>
      have h := henter g gs n' x hw position
      rw [← (hadvance hw).1, ← (hadvance hw).2, ← (hnext _).1, ← (hnext _).2] at h
      exact h
  | @enterCurrent g gs n' x a position =>
      have h := henter g gs n' x hw position
      rw [← (hadvance hw).1, ← (hadvance hw).2] at h
      exact h
  | skipCurrent position => exact hpass₁ hw position
  | @leaveCurrent g gs n' i a position =>
      have h := hleave g gs hw
      simp only [perform, hw, List.tail_cons]
      exact h

/-! ## Both sides -/

/-- A traversal of the tree `y` beside a baseline. The next side goes along the tree of `y`, or along
the branch that was taken up last. -/
structure OnTrack (H : Hashing) (baseline : Option Digest) (y : Digest) (w : Traversal) : Prop where
  next : ∃ e, Leads H (fun _ => False) (.ref y) (.ref e) ∧ Along H e w.next w.lastNext
  current : AlongBaseline H baseline w.current w.lastCurrent
  aside : ∀ d ∈ w.aside, Leads H (fun _ => False) (.ref y) (.ref d)

variable {baseline : Option Digest} {y : Digest} {w' : Traversal}

theorem onTrack_begin (baseline : Option Digest) (y : Digest) :
    (begin baseline y).OnTrack H baseline y where
  next := ⟨y, .refl _, along_start y⟩
  current := alongBaseline_start baseline
  aside _ hd := nomatch hd

namespace OnTrack

/-- The innermost position of the next tree changes. -/
theorem changeNext (h : w.OnTrack H baseline y) {frames : List Frame}
    (hframes : ∀ e, Along H e w.next w.lastNext → Along H e frames w.lastNext) :
    OnTrack H baseline y { w with next := frames } where
  next := by
    obtain ⟨e, he, halong⟩ := h.next
    exact ⟨e, he, hframes e halong⟩
  current := h.current
  aside := h.aside

/-- The innermost position of the current tree changes. -/
theorem changeCurrent (h : w.OnTrack H baseline y) (hcurrent : w.current = f :: fs)
    {frames : List Frame}
    (hframes : ∀ e, Along H e (f :: fs) w.lastCurrent → Along H e frames w.lastCurrent) :
    OnTrack H baseline y { w with current := frames } where
  next := h.next
  current := by
    obtain ⟨d, hd, halong⟩ := (hcurrent ▸ h.current).along
    exact (hframes d halong).baseline hd
  aside := h.aside

theorem restart (h : w.OnTrack H baseline y) (hd : d ∈ w.aside) :
    (w.restart baseline d).OnTrack H baseline y where
  next := ⟨d, h.aside d hd, along_start d⟩
  current := alongBaseline_start baseline
  aside e he := h.aside e (List.mem_of_mem_erase he)

theorem putAside (h : w.OnTrack H baseline y) (hnext : w.next = f :: fs) :
    (w.putAside f.digest).OnTrack H baseline y where
  next := by
    obtain ⟨e, he, halong⟩ := h.next
    rw [hnext] at halong
    refine ⟨e, he, ?_⟩
    rw [next_putAside hnext]
    exact halong.leave.markIncomplete
  current := h.current
  aside := by
    obtain ⟨e, he, halong⟩ := h.next
    have hf := (halong.within f (hnext ▸ List.mem_cons_self)).leads
    intro d hd
    rcases mem_aside_putAside.mp hd with hd | rfl
    · exact h.aside d hd
    · exact he.trans hf

/-- A planned move keeps both sides on their way. -/
theorem perform (h : w.OnTrack H baseline y) (hp : Planned H c w m f fs n j) :
    (w.perform m).OnTrack H baseline y where
  next := by
    obtain ⟨e, he, halong⟩ := h.next
    have halong' : Along H e (f :: fs) w.lastNext := hp.next ▸ halong
    refine ⟨e, he, ?_⟩
    refine hp.next_side (T := Along H e) halong (fun _ => halong'.advance hp.position) ?_
    rintro d rfl
    exact halong'.enter hp.position
  current := by
    have halong : ∀ {g gs}, w.current = g :: gs → ∃ d ∈ baseline, Along H d (g :: gs) w.lastCurrent :=
      fun hw => (hw ▸ h.current).along
    refine hp.current_side (T := AlongBaseline H baseline) h.current ?_ ?_ ?_
    · intro g gs n' i hw hg
      obtain ⟨d, hd, hg'⟩ := halong hw
      exact (hg'.advance hg).baseline hd
    · intro g gs n' e hw hg
      obtain ⟨d, hd, hg'⟩ := halong hw
      exact (hg'.enter hg).baseline hd
    · intro g gs hw
      obtain ⟨d, hd, hg'⟩ := halong hw
      exact hg'.leave.baseline hd
  aside := by
    rw [aside_perform]
    exact h.aside

end OnTrack

end Traversal

end Reconcile

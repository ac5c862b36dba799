import Mathlib.Data.List.Basic
import Reconcile.Digest.Blake3
import Reconcile.Live.Directory

/-! # Content finds its way by its name

The name of a node is read from its first marker on: the two components after it, whatever follows
them. So names are read back, and their content reaches the session of their slice, as long as the
region of the slice has no marker of its own. A region that does is read instead of what was put after
it; no reader could do better, since a node's name may be the region of another slice. -/

namespace Reconcile

variable {H : Hashing}

namespace Name

theorem position?_of_not_mem {before more : List Component} {c : Component} (h : c ∉ before) :
    position? ⟨before ++ c :: more⟩ c = some before.length := by
  have hbefore : before.findIdx? (· = c) = none := by
    rw [List.findIdx?_eq_none_iff]
    intro x hx
    simpa using ne_of_mem_of_not_mem hx h
  simp [position?, List.findIdx?_append, List.findIdx?_cons, hbefore]

/-- A row is split in one way at the first place of a component. -/
theorem split_unique {before before' more more' : List Component} {c : Component}
    (h : c ∉ before) (h' : c ∉ before') (heq : before ++ c :: more = before' ++ c :: more') :
    before = before' ∧ more = more' := by
  have hposition : position? ⟨before ++ c :: more⟩ c = some before'.length :=
    heq ▸ position?_of_not_mem h'
  rw [position?_of_not_mem h, Option.some.injEq] at hposition
  obtain ⟨hbefore, hmore⟩ := List.append_inj heq hposition
  exact ⟨hbefore, (List.cons.inj hmore).2⟩

theorem position?_eq_none {n : Name} {c : Component} (h : c ∉ n.components) :
    n.position? c = none := by
  rw [position?, List.findIdx?_eq_none_iff]
  intro x hx
  simpa using ne_of_mem_of_not_mem hx h

end Name

namespace Slice

/-- What follows the first marker is read as an identifier and a digest. -/
theorem parseFetchName?_of_not_mem {before rest : List Component} (h : marker ∉ before)
    {id : SliceId} {d : Digest} :
    parseFetchName? ⟨before ++ marker :: rest⟩ = some (id, d) ↔
      ∃ more, rest = id.bytes :: d.bytes :: more ∧ id.bytes.length = SliceId.length ∧
        d.bytes ≠ [] := by
  simp only [parseFetchName?, Name.position?_of_not_mem h, Name.component?]
  rcases rest with _ | ⟨c, _ | ⟨c', more⟩⟩
  · simp
  · simp
  · obtain ⟨bytes⟩ := id
    obtain ⟨digest⟩ := d
    by_cases hlength : c.length = SliceId.length
    · cases c' with
      | nil =>
          have hempty : c = bytes → digest = [] → bytes.length = SliceId.length → digest = [] :=
            fun _ h _ => h
          simpa [SliceId.ofBytes?, hlength] using hempty
      | cons b rest =>
          have hread : c = bytes → b :: rest = digest →
              bytes.length = SliceId.length ∧ ¬ digest = [] := by
            rintro rfl rfl
            exact ⟨hlength, List.cons_ne_nil _ _⟩
          simpa [SliceId.ofBytes?, hlength] using hread
    · have hshort : c = bytes → c' = digest → bytes.length = SliceId.length → digest = [] := by
        rintro rfl - h
        exact absurd h hlength
      simpa [SliceId.ofBytes?, hlength] using hshort

/-- A name asks for a node just when its first marker is followed by an identifier of the right length
and a digest that is not empty. -/
theorem parseFetchName?_eq_some_iff {name : Name} {id : SliceId} {d : Digest} :
    parseFetchName? name = some (id, d) ↔
      ∃ before more, name.components = before ++ marker :: id.bytes :: d.bytes :: more ∧
        marker ∉ before ∧ id.bytes.length = SliceId.length ∧ d.bytes ≠ [] := by
  obtain ⟨components⟩ := name
  by_cases hmarker : marker ∈ components
  · obtain ⟨before, rest, rfl, hbefore⟩ := List.eq_append_cons_of_mem hmarker
    rw [parseFetchName?_of_not_mem hbefore]
    constructor
    · rintro ⟨more, rfl, hlength, hne⟩
      exact ⟨before, more, rfl, hbefore, hlength, hne⟩
    · rintro ⟨before', more, h, hbefore', hlength, hne⟩
      have hrest := (Name.split_unique hbefore hbefore' h).2
      exact ⟨more, hrest, hlength, hne⟩
  · rw [parseFetchName?, Name.position?_eq_none hmarker]
    refine iff_of_false (by simp) ?_
    rintro ⟨before, more, rfl, -⟩
    exact hmarker (by simp)

/-- The region of a slice, up to the marker that is put after it, is read as the slice's own
identifier and this digest. Of a region that contains a marker no more than this can make up for it:
the identifier is computed from the region. -/
def SpeltByRegion (H : Hashing) (s : Slice) (d : Digest) : Prop :=
  ∃ before more, s.region.components ++ [marker] =
    before ++ marker :: (s.id H).bytes :: d.bytes :: more ∧ marker ∉ before

theorem components_fetchName (s : Slice) (d : Digest) (extra : Name) :
    ((s.fetchName H d).append extra).components =
      s.region.components ++ marker :: (s.id H).bytes :: d.bytes :: extra.components := by
  simp [fetchName, Name.append]

theorem length_marker : marker.length ≠ SliceId.length := by decide

/-- A node's name, whatever follows it, is read back unless the region has a marker that is read in its
place. -/
theorem parseFetchName?_fetchName_iff (s : Slice) (d : Digest) (extra : Name)
    (hid : (s.id H).bytes.length = SliceId.length) (hd : d.bytes ≠ []) :
    parseFetchName? ((s.fetchName H d).append extra) = some (s.id H, d) ↔
      marker ∉ s.region.components ∨ s.SpeltByRegion H d := by
  rw [parseFetchName?_eq_some_iff, components_fetchName]
  constructor
  · rintro ⟨before, more, h, hbefore, -, -⟩
    refine or_iff_not_imp_left.mpr (fun hmarker => ?_)
    obtain ⟨front, rest, hregion, hfront⟩ := List.eq_append_cons_of_mem (not_not.mp hmarker)
    rw [hregion, List.append_assoc, List.cons_append] at h
    obtain ⟨rfl, hrest⟩ := Name.split_unique hfront hbefore h
    rw [SpeltByRegion, hregion]
    rcases rest with _ | ⟨c, _ | ⟨c', rest⟩⟩
    · have hmarker : marker = (s.id H).bytes := (List.cons.inj hrest).1
      exact absurd (hmarker ▸ hid) length_marker
    · simp only [List.cons_append, List.nil_append, List.cons.injEq] at hrest
      exact ⟨front, [], by simp [hrest.1, hrest.2.1], hfront⟩
    · simp only [List.cons_append, List.cons.injEq] at hrest
      exact ⟨front, rest ++ [marker], by simp [hrest.1, hrest.2.1], hfront⟩
  · rintro (hregion | ⟨before, more, h, hbefore⟩)
    · exact ⟨s.region.components, extra.components, rfl, hregion, hid, hd⟩
    · refine ⟨before, more ++ (s.id H).bytes :: d.bytes :: extra.components, ?_, hbefore, hid, hd⟩
      rw [List.append_cons, h]
      simp

end Slice

namespace Directory

/-- Content that is read as a node of a followed slice is delivered to its session. -/
theorem receiveContent_of_followed {x : Directory} {name : Name} {id : SliceId} {d : Digest}
    {f : Follower} (hname : Slice.parseFetchName? name = some (id, d))
    (hf : x.followers.get? id = some f) (bytes : Bytes) :
    let (subscription, completion) := f.subscription.receive x.clock d bytes
    x.receiveContent name bytes =
      ({ x with followers := x.followers.insert id { f with subscription } }, .ok completion) := by
  rw [receiveContent, hname]
  dsimp only [receive, within]
  rw [hf]

/-- Unless the region of a slice is read in its place, a node's name is read back whatever follows it,
and content that comes in under it is delivered to the session of the slice, whatever else the
directory holds. A region without markers never is. -/
theorem fetchName_routes_back (H : Hashing) (hlength : ∀ b, (H b).bytes.length = SliceId.length)
    (s : Slice) (d : Digest) (hd : d.bytes ≠ []) (extra : Name) :
    (Slice.parseFetchName? ((s.fetchName H d).append extra) = some (s.id H, d) ↔
        Slice.marker ∉ s.region.components ∨ s.SpeltByRegion H d) ∧
      (Slice.marker ∉ s.region.components ∨ s.SpeltByRegion H d →
        ∀ (x : Directory) (f : Follower) (bytes : Bytes), x.followers.get? (s.id H) = some f →
          let (subscription, completion) := f.subscription.receive x.clock d bytes
          x.receiveContent ((s.fetchName H d).append extra) bytes =
            ({ x with followers := x.followers.insert (s.id H) { f with subscription } },
              .ok completion)) := by
  have hiff := Slice.parseFetchName?_fetchName_iff s d extra (hlength _) hd
  refine ⟨hiff, fun hregion x f bytes hf => ?_⟩
  exact receiveContent_of_followed (hiff.mpr hregion) hf bytes

end Directory

namespace Sample

/-- An empty component, and one that differs from the marker in its last byte. -/
def plainRegion : Slice := { region := ⟨[[], [0xC1, 0x2E, 0x53, 0x2E, 0x6E, 0x67]]⟩, base := ⟨[[1]]⟩ }

/-- The slice has just been started. -/
def plainFollower : Follower where
  listener := "ear"
  subscription :=
    { reconciler := .create (.ofAttempts 3) .empty none
      alarm := { quiet := 100 }
      courier := { timeout := 1000 } }

def plainDirectory : Directory where
  settings := {}
  depot := ⟨.empty, 5⟩
  followers := Table.empty.insert (plainRegion.id Blake3.hash) plainFollower

/-- A node's name is extended by a component and a marker. -/
theorem fetchName_routes_back_extended :
    let name := (plainRegion.fetchName Blake3.hash ⟨[7]⟩).append ⟨[[1], Slice.marker]⟩
    Slice.parseFetchName? name = some (plainRegion.id Blake3.hash, ⟨[7]⟩) ∧
      (plainDirectory.receiveContent name [2]).2 = .ok .taken := by
  intro name
  have hregion : Slice.marker ∉ plainRegion.region.components := by decide
  have hfollowed : plainDirectory.followers.get? (plainRegion.id Blake3.hash) =
      some plainFollower := by simp [plainDirectory]
  obtain ⟨hread, hroute⟩ := Directory.fetchName_routes_back Blake3.hash Blake3.length_hash plainRegion
    ⟨[7]⟩ (by decide) ⟨[[1], Slice.marker]⟩
  refine ⟨hread.mpr (.inl hregion), ?_⟩
  exact (congrArg Prod.snd (hroute (.inl hregion) plainDirectory plainFollower [2] hfollowed)).trans rfl

/-- The region is the marker alone. -/
def markedRegion : Slice := { region := ⟨[Slice.marker]⟩, base := ⟨[]⟩ }

/-- The name of a node of such a slice asks for nothing. Nor could any other reading tell the slice and
the digest from all names: the region of a slice may be the name of another slice's node. -/
theorem markedRegion_unread :
    Slice.parseFetchName? (markedRegion.fetchName Blake3.hash ⟨[1]⟩) = none ∧
      ¬ ∃ read : Name → Option (SliceId × Digest),
        ∀ (s : Slice) (d : Digest) (extra : Name), d.bytes ≠ [] →
          read ((s.fetchName Blake3.hash d).append extra) = some (s.id Blake3.hash, d) := by
  refine ⟨rfl, ?_⟩
  rintro ⟨read, h⟩
  let outer : Slice := { region := plainRegion.fetchName Blake3.hash ⟨[1]⟩, base := ⟨[]⟩ }
  have hsame : (outer.fetchName Blake3.hash ⟨[2]⟩).append .root =
      (plainRegion.fetchName Blake3.hash ⟨[1]⟩).append
        ⟨[Slice.marker, (outer.id Blake3.hash).bytes, [2]]⟩ := by
    simp [outer, Slice.fetchName, Name.append, Name.root]
  have houter := h outer ⟨[2]⟩ .root (by decide)
  rw [hsame, h plainRegion ⟨[1]⟩ _ (by decide), Option.some.injEq, Prod.mk.injEq] at houter
  exact absurd houter.2 (by decide)

end Sample

end Reconcile

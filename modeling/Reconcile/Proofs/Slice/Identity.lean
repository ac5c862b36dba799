import Reconcile.Proofs.Cbor.Delimited
import Reconcile.Proofs.Live.Isolation
import Reconcile.Proofs.Row

/-! # A slice is known by its identifier

The canonical bytes of a slice tell where each component, each name and the row of excluded names
ends, so no two slices share them. Unless digests collide, an identifier then stands for one slice
only: a directory refuses to follow a slice just when it was told to follow this very slice before,
and not told to stop since. -/

namespace Reconcile

variable {H : Hashing}

namespace Slice

theorem canonical_append (s : Slice) (rest : Bytes) :
    s.canonical ++ rest = Cbor.head 4 3 ++ (Cbor.name s.region ++ (Cbor.name s.base ++
      (Cbor.array (s.excluded.map Cbor.name) ++ rest))) := by
  rw [canonical, Cbor.array]
  simp

theorem delimited_canonical : Cbor.Delimited canonical := by
  rintro ⟨region, base, excluded⟩ ⟨region', base', excluded'⟩ rest rest' h
  rw [canonical_append, canonical_append] at h
  obtain ⟨rfl, h⟩ := Cbor.delimited_name (List.append_cancel_left h)
  obtain ⟨rfl, h⟩ := Cbor.delimited_name h
  obtain ⟨rfl, hrest⟩ := Cbor.delimited_array Cbor.delimited_name h
  exact ⟨rfl, hrest⟩

theorem id_injective (inj : Function.Injective H) : Function.Injective (id H) := by
  intro s t h
  have hdigest : H (domain ++ s.canonical) = H (domain ++ t.canonical) :=
    congrArg (fun i => Digest.mk i.bytes) h
  exact delimited_canonical.injective (List.append_cancel_left (inj hdigest))

end Slice

namespace Directory

variable {settings : Settings} {depot : Depot} {ops : List Op} {op : Op} {s : Slice}

/-- The slice was started and has not been stopped since. -/
def Followed (H : Hashing) (s : Slice) (ops : List Op) : Prop :=
  ∃ listener origin firstName,
    Since (.start s listener origin firstName) (.stop (s.id H)) ops

theorem followed_concat_iff : Followed H s (ops ++ [op]) ↔
    (∃ listener origin firstName, op = .start s listener origin firstName) ∨
      Followed H s ops ∧ op ≠ .stop (s.id H) := by
  simp only [Followed, since_concat_iff, exists_or, exists_and_right]

/-- A directory has a follower under the identifier of a slice just while the slice is followed. -/
theorem isSome_after_iff (inj : Function.Injective H) :
    (((opened settings depot).after H ops).followers.get? (s.id H)).isSome ↔ Followed H s ops := by
  induction ops using List.reverseRecOn with
  | nil => simp [opened, Followed, not_since_nil]
  | append_singleton ops op ih =>
      rw [after_concat, isSome_on_iff, followed_concat_iff, ih]
      refine or_congr_left ?_
      constructor
      · rintro ⟨t, listener, origin, firstName, rfl, hid⟩
        rw [Slice.id_injective inj hid]
        exact ⟨listener, origin, firstName, rfl⟩
      · rintro ⟨listener, origin, firstName, rfl⟩
        exact ⟨s, listener, origin, firstName, rfl, rfl⟩

theorem start_snd (x : Directory) (listener : String) (origin : Origin) (firstName : Option Name) :
    (x.start H s listener origin firstName).2 =
      if (x.followers.get? (s.id H)).isSome then .error (.alreadyFollowed (s.id H))
      else .ok (s.id H) := by
  by_cases h : (x.followers.get? (s.id H)).isSome
  · simp [start, Table.contains, h]
  · simp [start, Table.contains, h]

/-- Slices are told apart by their canonical bytes, and by their identifiers unless digests collide.
Whatever was done with a directory, it then refuses to follow a slice just when this very slice is
followed, and answers with its identifier otherwise. -/
theorem identifier_separates :
    Function.Injective Slice.canonical ∧
      ∀ H : Hashing, Function.Injective H →
        (∀ s t : Slice, s.id H = t.id H → s = t) ∧
          ∀ (settings : Settings) (depot : Depot) (ops : List Op) (s : Slice) (listener : String)
            (origin : Origin) (firstName : Option Name),
            let answer := (((opened settings depot).after H ops).start H s listener origin firstName).2
            (answer = .error (.alreadyFollowed (s.id H)) ↔ Followed H s ops) ∧
              (answer = .ok (s.id H) ↔ ¬ Followed H s ops) := by
  refine ⟨Slice.delimited_canonical.injective, fun H inj => ⟨Slice.id_injective inj, ?_⟩⟩
  intro settings depot ops s listener origin firstName answer
  have hsome : (((opened settings depot).after H ops).followers.get? (s.id H)).isSome ↔
      Followed H s ops := isSome_after_iff inj
  by_cases h : Followed H s ops
  · have hanswer : answer = .error (.alreadyFollowed (s.id H)) :=
      (start_snd _ listener origin firstName).trans (if_pos (hsome.mpr h))
    simp [hanswer, h]
  · have hanswer : answer = .ok (s.id H) :=
      (start_snd _ listener origin firstName).trans (if_neg (fun hx => h (hsome.mp hx)))
    simp [hanswer, h]

end Directory

namespace Sample

/-- A component stands at the end of the region, and so does it at the front of the base. -/
def shortBase : Slice := { region := ⟨[[114], []]⟩, base := ⟨[[117]]⟩, excluded := [⟨[[117], [1]]⟩] }

def longBase : Slice := { region := ⟨[[114]]⟩, base := ⟨[[], [117]]⟩, excluded := [⟨[[117], [1]]⟩] }

/-- Both slices are followed, and one is stopped again. -/
def parted : List Directory.Op :=
  [ .start shortBase "early" .empty none
  , .start longBase "aside" .current none
  , .wait 100
  , .stop (shortBase.id Digest.mk) ]

open Directory in
theorem parted_separates :
    (((opened {} ⟨.empty, 5⟩).after Digest.mk parted).start Digest.mk longBase "late" .empty none).2 =
        .error (.alreadyFollowed (longBase.id Digest.mk)) ∧
      (((opened {} ⟨.empty, 5⟩).after Digest.mk parted).start Digest.mk shortBase "late" .empty
        none).2 = .ok (shortBase.id Digest.mk) := by
  have hseparates := (identifier_separates.2 Digest.mk injective_mk).2 {} ⟨.empty, 5⟩ parted
  have hlong : Followed Digest.mk longBase parted :=
    ⟨"aside", .current, none, [.start shortBase "early" .empty none],
      [.wait 100, .stop (shortBase.id Digest.mk)], rfl, by decide⟩
  have hshort : ¬ Followed Digest.mk shortBase parted := by
    have hparted : parted = parted.take 3 ++ [.stop (shortBase.id Digest.mk)] := rfl
    rw [hparted, followed_concat_iff]
    simp
  exact ⟨(hseparates longBase "late" .empty none).1.mpr hlong,
    (hseparates shortBase "late" .empty none).2.mpr hshort⟩

end Sample

end Reconcile

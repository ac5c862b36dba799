import Reconcile.Proofs.Cbor.Delimited

/-! # Reading looks no further than the item

A reader that takes an item from some bytes takes the same item if more bytes follow. So bytes that
end before their item does are refused. -/

namespace Reconcile.Cbor

/-- What the reader takes does not depend on what follows it. -/
def Confined {α : Type} (read : Reader α) : Prop :=
  ∀ ⦃input x rest⦄, read input = some (x, rest) → ∀ more, read (input ++ more) = some (x, rest ++ more)

namespace Confined

variable {α β : Type} {f g : Reader α}

theorem nothing (x : α) : Confined (fun input => some (x, input)) := by
  intro input y rest h more
  obtain ⟨rfl, rfl⟩ := Prod.mk.inj (Option.some.inj h)
  rfl

theorem refusal : Confined (fun _ => (none : Option (α × Bytes))) :=
  fun _ _ _ h => nomatch h

theorem map (hf : Confined f) (φ : α → β) :
    Confined (fun input => (f input).map (fun (x, rest) => (φ x, rest))) := by
  intro input y rest hread more
  obtain ⟨⟨x, t⟩, hx, hy⟩ := Option.map_eq_some_iff.mp hread
  obtain ⟨rfl, rfl⟩ := Prod.mk.inj hy
  simp only [hf hx more, Option.map_some]

theorem ite {p : Prop} [Decidable p] (hf : p → Confined f) (hg : ¬p → Confined g) :
    Confined (fun input => if p then f input else g input) := by
  by_cases h : p
  · simpa only [if_pos h] using hf h
  · simpa only [if_neg h] using hg h

end Confined

/-! ## Arguments and strings -/

theorem confined_take (n : Nat) : Confined (take n) := by
  intro input x rest h more
  simp only [take, List.length_take] at h
  split at h
  · cases h
  · rename_i hlength
    have hn : n ≤ input.length := by omega
    obtain ⟨rfl, rfl⟩ := Prod.mk.inj (Option.some.inj h)
    simp [take, hn, List.take_append_of_le_length, List.drop_append_of_le_length]

theorem confined_argument (low : Nat) : Confined (argument low) := by
  have hwide (width : Nat) :=
    (confined_take width).map (fun b => Argument.number (ofBigEndian b))
  exact .ite (fun _ => .nothing _) (fun _ => .ite (fun _ => hwide 1) (fun _ => .ite (fun _ => hwide 2)
    (fun _ => .ite (fun _ => hwide 4) (fun _ => .ite (fun _ => hwide 8) (fun _ =>
      .ite (fun _ => .nothing _) (fun _ => .refusal))))))

/-- More fuel and more bytes leave the pieces as they are. -/
theorem pieces_append {major : Nat} {ok : Bytes → Bool} {fuel within : Nat} {input x rest : Bytes}
    (h : pieces major ok fuel within input = some (x, rest)) {fuel' : Nat} (hfuel : fuel ≤ fuel')
    (more : Bytes) :
    pieces major ok fuel' within (input ++ more) = some (x, rest ++ more) := by
  induction fuel generalizing fuel' within input x rest with
  | zero => cases h
  | succ fuel ih =>
      obtain ⟨fuel', rfl⟩ : ∃ k, fuel' = k + 1 := ⟨fuel' - 1, by omega⟩
      have hle : fuel ≤ fuel' := by omega
      cases input with
      | nil => cases h
      | cons initial input =>
          simp only [pieces, List.cons_append] at h ⊢
          by_cases hbreak : initial = 0xFF
          · rw [if_pos hbreak] at h ⊢
            cases within with
            | zero =>
                obtain ⟨rfl, rfl⟩ := Prod.mk.inj (Option.some.inj h)
                rfl
            | succ within => exact ih h hle
          · rw [if_neg hbreak] at h ⊢
            by_cases hmajor : initial.toNat / 32 ≠ major
            · rw [if_pos hmajor] at h
              cases h
            · rw [if_neg hmajor] at h ⊢
              cases harg : argument (initial.toNat % 32) input with
              | none =>
                  rw [harg] at h
                  cases h
              | some pair =>
                  obtain ⟨arg, input'⟩ := pair
                  rw [harg] at h
                  rw [confined_argument _ harg more]
                  cases arg with
                  | indefinite => exact ih h hle
                  | number n =>
                      cases htake : take n input' with
                      | none => simp [htake] at h
                      | some pair =>
                          obtain ⟨piece, input''⟩ := pair
                          simp only [htake] at h
                          simp only [confined_take _ htake more]
                          split at h
                          · rename_i hok
                            rw [if_pos hok]
                            obtain ⟨⟨y, t⟩, hrest, hx⟩ := Option.map_eq_some_iff.mp h
                            obtain ⟨rfl, rfl⟩ := Prod.mk.inj hx
                            rw [ih hrest hle, Option.map_some]
                          · cases h

theorem confined_string (major : Nat) (ok : Bytes → Bool) (arg : Argument) :
    Confined (string major ok arg) := by
  intro input x rest h more
  cases arg with
  | indefinite =>
      exact pieces_append h (by rw [List.length_append]; omega) more
  | number n =>
      simp only [string] at h ⊢
      obtain ⟨⟨b, t⟩, htake, hb⟩ := Option.bind_eq_some_iff.mp h
      rw [confined_take n htake more, Option.bind_some]
      simp only at hb ⊢
      split at hb
      · rename_i hok
        obtain ⟨rfl, rfl⟩ := Prod.mk.inj (Option.some.inj hb)
        rw [if_pos hok]
      · cases hb

/-! ## Members -/

section Members

variable {read : Reader Item}

theorem confined_times (h : Confined read) (n : Nat) (done : List Item) :
    Confined (times read n done) := by
  intro input xs rest htimes more
  induction n generalizing done input with
  | zero =>
      obtain ⟨rfl, rfl⟩ := Prod.mk.inj (Option.some.inj htimes)
      rfl
  | succ n ih =>
      simp only [times] at htimes ⊢
      cases hread : read input with
      | none => simp [hread] at htimes
      | some pair =>
          simp only [hread] at htimes
          simp only [h hread more]
          exact ih _ htimes

theorem untilBreak_append (h : Confined read) {group fuel : Nat} {done xs : List Item}
    {input rest : Bytes} (huntil : untilBreak read group fuel done input = some (xs, rest))
    {fuel' : Nat} (hfuel : fuel ≤ fuel') (more : Bytes) :
    untilBreak read group fuel' done (input ++ more) = some (xs, rest ++ more) := by
  induction fuel generalizing fuel' done input with
  | zero => cases huntil
  | succ fuel ih =>
      obtain ⟨fuel', rfl⟩ : ∃ k, fuel' = k + 1 := ⟨fuel' - 1, by omega⟩
      cases input with
      | nil => cases huntil
      | cons initial input =>
          simp only [untilBreak, List.cons_append] at huntil ⊢
          by_cases hbreak : initial = 0xFF
          · rw [if_pos hbreak] at huntil ⊢
            obtain ⟨rfl, rfl⟩ := Prod.mk.inj (Option.some.inj huntil)
            rfl
          · rw [if_neg hbreak] at huntil ⊢
            cases htimes : times read group [] (initial :: input) with
            | none => simp [htimes] at huntil
            | some pair =>
                have hmore := confined_times h group [] htimes more
                rw [List.cons_append] at hmore
                simp only [htimes] at huntil
                simp only [hmore]
                exact ih huntil (by omega)

theorem confined_members (h : Confined read) (group : Nat) (arg : Argument) :
    Confined (members read group arg) := by
  cases arg with
  | number n => exact confined_times h (group * n) []
  | indefinite =>
      intro input xs rest huntil more
      exact untilBreak_append h huntil (by rw [List.length_append]; omega) more

end Members

/-! ## Items -/

/-- Without its argument an item that is not simple is refused. -/
theorem entry_of_argument {further : Option (Reader Item)} {initial : UInt8} {input : Bytes}
    (hmajor : initial.toNat / 32 ≠ 7) (harg : argument (initial.toNat % 32) input = none) :
    entry further (initial :: input) = none := by
  simp only [entry, if_neg hmajor, harg]

section Entry

variable {further : Option (Reader Item)}

theorem confined_bind {α : Type} {f : Reader Item → Reader α}
    (h : ∀ read ∈ further, Confined (f read)) :
    Confined (fun input => further.bind (f · input)) := by
  intro input x rest hbind more
  obtain ⟨read, hread, hx⟩ := Option.bind_eq_some_iff.mp hbind
  simp only [hread, Option.bind_some]
  exact h read hread hx more

/-- A short byte string under tag 2 or 3 is looked at before the general reader is. Where its length
cannot be read, the general reader finds none either, though more bytes might complete it. -/
theorem confined_tagged (h : ∀ read ∈ further, Confined read)
    (hentry : ∀ read ∈ further, ∃ next, read = entry next) (tag : Nat) :
    Confined (tagged further tag) := by
  have hgeneral := (confined_bind (f := id) h).map (fun _ => Item.other)
  intro input x rest htagged more
  unfold tagged at htagged ⊢
  by_cases htag : tag = 2 ∨ tag = 3
  · simp only [if_pos htag] at htagged ⊢
    cases input with
    | nil => cases htagged
    | cons initial input =>
        simp only [List.cons_append] at htagged ⊢
        by_cases hmajor : initial.toNat / 32 = 2
        · simp only [if_pos hmajor] at htagged ⊢
          cases harg : argument (initial.toNat % 32) input with
          | none =>
              exfalso
              have hnone : further.bind (· (initial :: input)) = none := by
                cases further with
                | none => rfl
                | some read =>
                    obtain ⟨next, rfl⟩ := hentry read rfl
                    exact entry_of_argument (by omega) harg
              simp [harg, hnone] at htagged
          | some pair =>
              obtain ⟨arg, input'⟩ := pair
              simp only [harg] at htagged
              simp only [confined_argument _ harg more]
              cases arg with
              | indefinite => exact hgeneral htagged more
              | number n =>
                  simp only at htagged ⊢
                  by_cases hshort : n ≤ 16
                  · rw [if_pos hshort] at htagged ⊢
                    obtain ⟨⟨b, t⟩, htake, hb⟩ := Option.bind_eq_some_iff.mp htagged
                    obtain ⟨y, hy, hpair⟩ := Option.map_eq_some_iff.mp hb
                    obtain ⟨rfl, rfl⟩ := Prod.mk.inj hpair
                    simp only [confined_take n htake more, Option.bind_some, hy, Option.map_some]
                  · rw [if_neg hshort] at htagged ⊢
                    exact hgeneral htagged more
        · simp only [if_neg hmajor] at htagged ⊢
          exact hgeneral htagged more
  · simp only [if_neg htag] at htagged ⊢
    exact hgeneral htagged more

/-- A simple value or a float. -/
theorem entry_simple_append {initial : UInt8} {input rest : Bytes} {x : Item}
    (hmajor : initial.toNat / 32 = 7) (h : entry further (initial :: input) = some (x, rest))
    (more : Bytes) : entry further (initial :: (input ++ more)) = some (x, rest ++ more) := by
  have hwide (width : Nat) := (confined_take width).map (fun _ => Item.other)
  simp only [entry, if_pos hmajor] at h ⊢
  by_cases hsimple : 20 ≤ initial.toNat % 32 ∧ initial.toNat % 32 ≤ 23
  · simp only [if_pos hsimple] at h ⊢
    exact Confined.nothing Item.other h more
  simp only [if_neg hsimple] at h ⊢
  by_cases hone : initial.toNat % 32 = 24
  · simp only [if_pos hone] at h ⊢
    cases input with
    | nil => cases h
    | cons b input =>
        exact Confined.ite (fun _ => .nothing Item.other) (fun _ => .refusal) h more
  simp only [if_neg hone] at h ⊢
  exact Confined.ite (fun _ => hwide 2) (fun _ => .ite (fun _ => hwide 4)
    (fun _ => .ite (fun _ => hwide 8) (fun _ => .refusal))) h more

/-- An item that is neither simple nor a float, once its argument is read. -/
theorem entry_argument_append (h : ∀ read ∈ further, Confined read)
    (hentry : ∀ read ∈ further, ∃ next, read = entry next) {initial : UInt8}
    {input input' rest : Bytes} {arg : Argument} {x : Item} (hmajor : initial.toNat / 32 ≠ 7)
    (harg : argument (initial.toNat % 32) input = some (arg, input'))
    (hread : entry further (initial :: input) = some (x, rest)) (more : Bytes) :
    entry further (initial :: (input ++ more)) = some (x, rest ++ more) := by
  have hmembers (group : Nat) : ∀ read ∈ further, Confined (members read group arg) :=
    fun read hmem => confined_members (h read hmem) group arg
  simp only [entry, if_neg hmajor, harg] at hread
  simp only [entry, if_neg hmajor, confined_argument _ harg more]
  by_cases hbytes : initial.toNat / 32 = 2
  · simp only [if_pos hbytes] at hread ⊢
    exact (confined_string 2 _ arg).map Item.bytes hread more
  simp only [if_neg hbytes] at hread ⊢
  by_cases htext : initial.toNat / 32 = 3
  · simp only [if_pos htext] at hread ⊢
    exact (confined_string 3 _ arg).map (fun _ => Item.other) hread more
  simp only [if_neg htext] at hread ⊢
  by_cases harray : initial.toNat / 32 = 4
  · simp only [if_pos harray] at hread ⊢
    exact confined_bind (fun read hmem => (hmembers 1 read hmem).map Item.array) hread more
  simp only [if_neg harray] at hread ⊢
  by_cases hmap : initial.toNat / 32 = 5
  · simp only [if_pos hmap] at hread ⊢
    exact confined_bind (fun read hmem => (hmembers 2 read hmem).map (fun _ => Item.other)) hread
      more
  simp only [if_neg hmap] at hread ⊢
  cases arg with
  | indefinite => cases hread
  | number n =>
      exact Confined.ite (fun _ => .nothing _) (fun _ => .ite (fun _ => .nothing _)
        (fun _ => confined_tagged h hentry n)) hread more

theorem confined_entry (h : ∀ read ∈ further, Confined read)
    (hentry : ∀ read ∈ further, ∃ next, read = entry next) : Confined (entry further) := by
  intro input x rest hread more
  cases input with
  | nil => cases hread
  | cons initial input =>
      by_cases hsimple : initial.toNat / 32 = 7
      · exact entry_simple_append hsimple hread more
      · cases harg : argument (initial.toNat % 32) input with
        | none =>
            rw [entry_of_argument hsimple harg] at hread
            cases hread
        | some pair =>
            obtain ⟨arg, input'⟩ := pair
            exact entry_argument_append h hentry hsimple harg hread more

end Entry

theorem confined_item (depth : Nat) : Confined (item depth) := by
  induction depth with
  | zero => exact confined_entry (fun _ hread => nomatch hread) (fun _ hread => nomatch hread)
  | succ depth ih =>
      refine confined_entry (fun read hread => ?_) (fun read hread => ?_)
      · obtain rfl := Option.some.inj hread
        exact ih
      · obtain rfl := Option.some.inj hread
        exact ⟨inner depth, item_eq depth⟩

/-- Bytes that end before the item does are no item. -/
theorem ReadsAs.item_take {bytes front : Bytes} {x : Item} (h : ReadsAs bytes x)
    (hfront : front <+: bytes) (hproper : front ≠ bytes) (depth : Nat) : item depth front = none := by
  obtain ⟨missing, rfl⟩ := hfront
  cases hread : item depth front with
  | none => rfl
  | some pair =>
      obtain ⟨y, rest⟩ := pair
      have hwhole : item depth (front ++ missing ++ []) = some (y, rest ++ missing) := by
        rw [List.append_nil]
        exact confined_item depth hread missing
      obtain ⟨-, hend⟩ := h hwhole
      rw [(List.append_eq_nil_iff.mp hend).2, List.append_nil] at hproper
      exact absurd rfl hproper

end Reconcile.Cbor

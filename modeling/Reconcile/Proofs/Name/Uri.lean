import Mathlib.Tactic.Common
import Reconcile.Name.Uri

/-! # What URIs can be read

A name without empty components is read back from its URI. A text is read just when it starts with a
slash and every percent sign has its two digits within its segment; the name is one that can be read
back. Which name it is does not depend on the way its bytes are written. -/

namespace Reconcile

namespace Hex

/-- A hexadecimal digit, in either case. -/
def IsDigit (c : Char) : Prop := '0' ≤ c ∧ c ≤ '9' ∨ 'a' ≤ c ∧ c ≤ 'f' ∨ 'A' ≤ c ∧ c ≤ 'F'

theorem isSome_value?_iff (c : Char) : (value? c.toNat).isSome ↔ IsDigit c := by
  have hle : ∀ a b : Char, a ≤ b ↔ a.toNat ≤ b.toNat := fun _ _ => Iff.rfl
  simp only [IsDigit, hle, value?]
  split
  · simp [*]
  · split
    · simp [*]
    · split <;> simp [*]

theorem value?_upperDigit {n : Nat} (h : n < 16) : value? (upperDigit n).toNat = some n := by
  have hall : ∀ i : Fin 16, value? (upperDigit i).toNat = some i.val := by decide
  exact hall ⟨n, h⟩

theorem upperDigit_ne_slash {n : Nat} (h : n < 16) : upperDigit n ≠ '/' := by
  have hall : ∀ i : Fin 16, upperDigit i ≠ '/' := by decide
  exact hall ⟨n, h⟩

end Hex

namespace Name

/-! ## One segment -/

/-- Every percent sign is followed by two digits, which are passed over before the next is looked
for. -/
inductive Escaped : List Char → Prop
  | nil : Escaped []
  | plain {c : Char} {rest : List Char} (h : c ≠ '%') (hrest : Escaped rest) : Escaped (c :: rest)
  | percent {a b : Char} {rest : List Char} (ha : Hex.IsDigit a) (hb : Hex.IsDigit b)
      (hrest : Escaped rest) : Escaped ('%' :: a :: b :: rest)

theorem escaped_cons_iff {c : Char} {rest : List Char} (h : c ≠ '%') :
    Escaped (c :: rest) ↔ Escaped rest := by
  refine ⟨fun hs => ?_, .plain h⟩
  cases hs with
  | plain _ hrest => exact hrest
  | percent _ _ _ => exact absurd rfl h

theorem escaped_percent_iff {a b : Char} {rest : List Char} :
    Escaped ('%' :: a :: b :: rest) ↔ (Hex.IsDigit a ∧ Hex.IsDigit b) ∧ Escaped rest := by
  refine ⟨fun hs => ?_, fun ⟨⟨ha, hb⟩, hrest⟩ => .percent ha hb hrest⟩
  cases hs with
  | plain h _ => exact absurd rfl h
  | percent ha hb hrest => exact ⟨⟨ha, hb⟩, hrest⟩

theorem isSome_unescape_iff (s : List Char) : (unescape s).isSome ↔ Escaped s := by
  fun_induction unescape s with
  | case1 => exact iff_of_true rfl .nil
  | case2 high low rest h l hlow hhigh ih =>
      rw [Option.isSome_map, ih, escaped_percent_iff, ← Hex.isSome_value?_iff,
        ← Hex.isSome_value?_iff, hhigh, hlow]
      simp
  | case3 high low rest hnone =>
      rw [escaped_percent_iff, ← Hex.isSome_value?_iff, ← Hex.isSome_value?_iff]
      refine iff_of_false (by simp) ?_
      rintro ⟨⟨hhigh, hlow⟩, -⟩
      obtain ⟨h, hh⟩ := Option.isSome_iff_exists.mp hhigh
      obtain ⟨l, hl⟩ := Option.isSome_iff_exists.mp hlow
      exact hnone h l hh hl
  | case4 rest hshort =>
      refine iff_of_false (by simp) (fun hs => ?_)
      cases hs with
      | plain h _ => exact h rfl
      | percent _ _ _ => exact hshort _ _ _ rfl rfl
  | case5 c rest _ hne ih => rw [Option.isSome_map, ih, escaped_cons_iff hne]

theorem unescape_cons {c : Char} (h : c ≠ '%') (rest : List Char) :
    unescape (c :: rest) = (unescape rest).map (String.utf8EncodeChar c ++ ·) := by
  rw [unescape, if_neg h]
  rintro _ _ _ rfl
  exact absurd rfl h

theorem unescape_percent {a b : Char} {x y : Nat} (ha : Hex.value? a.toNat = some x)
    (hb : Hex.value? b.toNat = some y) (rest : List Char) :
    unescape ('%' :: a :: b :: rest) = (unescape rest).map (UInt8.ofNat (16 * x + y) :: ·) := by
  simp only [unescape, ha, hb]

/-- Every character stands for at least one byte. -/
theorem ne_nil_of_unescape {s : List Char} {c : Component} (hs : s ≠ [])
    (h : unescape s = some c) : c ≠ [] := by
  have hescaped : Escaped s := (isSome_unescape_iff s).mp (by rw [h]; rfl)
  cases hescaped with
  | nil => exact absurd rfl hs
  | plain hne _ =>
      rw [unescape_cons hne] at h
      obtain ⟨bytes, -, rfl⟩ := Option.map_eq_some_iff.mp h
      exact List.append_ne_nil_of_left_ne_nil String.utf8EncodeChar_ne_nil _
  | percent ha hb _ =>
      obtain ⟨x, hx⟩ := Option.isSome_iff_exists.mp ((Hex.isSome_value?_iff _).mpr ha)
      obtain ⟨y, hy⟩ := Option.isSome_iff_exists.mp ((Hex.isSome_value?_iff _).mpr hb)
      rw [unescape_percent hx hy] at h
      obtain ⟨bytes, -, rfl⟩ := Option.map_eq_some_iff.mp h
      exact List.cons_ne_nil _ _

/-- A byte that stands for itself is the code of a character, and neither a slash nor a percent
sign. -/
theorem plain_char {b : UInt8} (h : isPlain b = true) :
    String.utf8EncodeChar (Char.ofNat b.toNat) = [b] ∧ Char.ofNat b.toNat ≠ '%' ∧
      Char.ofNat b.toNat ≠ '/' := by
  have hall : ∀ i : Fin 128, String.utf8EncodeChar (Char.ofNat i) = [UInt8.ofNat i] ∧
      (Char.ofNat i = '%' → i.val = 37) ∧ (Char.ofNat i = '/' → i.val = 47) := by decide
  simp only [isPlain, decide_eq_true_eq] at h
  obtain ⟨hcode, hpercent, hslash⟩ := hall ⟨b.toNat, by omega⟩
  rw [UInt8.ofNat_toNat] at hcode
  refine ⟨hcode, fun hb => ?_, fun hb => ?_⟩
  · have hvalue : b.toNat = 37 := hpercent hb
    omega
  · have hvalue : b.toNat = 47 := hslash hb
    omega

theorem unescape_escapeByte (b : UInt8) (rest : List Char) :
    unescape (escapeByte b ++ rest) = (unescape rest).map (b :: ·) := by
  unfold escapeByte
  split
  · rename_i h
    obtain ⟨hcode, hpercent, -⟩ := plain_char h
    rw [List.singleton_append, unescape_cons hpercent, hcode]
    rfl
  · have hb : b.toNat < 256 := b.toNat_lt_size
    have hdigits : UInt8.ofNat (16 * (b.toNat / 16) + b.toNat % 16) = b := by
      rw [Nat.div_add_mod, UInt8.ofNat_toNat]
    rw [List.cons_append, List.cons_append, List.singleton_append,
      unescape_percent (Hex.value?_upperDigit (by omega)) (Hex.value?_upperDigit (by omega)), hdigits]

theorem unescape_escape (c : Component) : unescape (escape c) = some c := by
  induction c with
  | nil => rfl
  | cons b c ih => rw [escape, List.flatMap_cons, unescape_escapeByte, ← escape, ih, Option.map_some]

theorem slash_not_mem_escape (c : Component) : '/' ∉ escape c := by
  simp only [escape, List.mem_flatMap, not_exists, not_and]
  intro b _
  unfold escapeByte
  split
  · rename_i h
    simpa using (plain_char h).2.2.symm
  · have hb : b.toNat < 256 := b.toNat_lt_size
    have hhigh := Hex.upperDigit_ne_slash (n := b.toNat / 16) (by omega)
    have hlow := Hex.upperDigit_ne_slash (n := b.toNat % 16) (by omega)
    simp [hhigh.symm, hlow.symm]

/-! ## All segments -/

theorem segments_eq_splitOn (text : List Char) : segments text = text.splitOn '/' := by
  induction text with
  | nil => rfl
  | cons c rest ih =>
      rw [segments, List.splitOn_cons_eq_if_modifyHead, ih]
      split
      · simp [*]
      · cases h : rest.splitOn '/' with
        | nil => exact absurd h (List.splitOn_ne_nil _ _)
        | cons s more => simp [*]

theorem ofSegments_eq_ok_iff {ss : List (List Char)} {cs : List Component} :
    ofSegments ss = .ok cs ↔ ss.map unescape = cs.map some := by
  constructor
  · intro h
    fun_induction ofSegments ss generalizing cs with
    | case1 => cases h; rfl
    | case2 s rest hs => cases h
    | case3 s rest c hs cs' hcs ih => cases h; rw [List.map_cons, hs, ih hcs, List.map_cons]
    | case4 s rest c hs e he => cases h
  · intro h
    induction cs generalizing ss with
    | nil =>
        rw [List.map_nil, List.map_eq_nil_iff] at h
        rw [h, ofSegments]
    | cons c cs ih =>
        cases ss with
        | nil => cases h
        | cons s ss =>
            obtain ⟨hs, hss⟩ := List.cons.inj h
            simp only [ofSegments, hs, ih hss]

theorem exists_components_iff (ss : List (List Char)) :
    (∃ cs : List Component, ss.map unescape = cs.map some) ↔ ∀ s ∈ ss, Escaped s := by
  simp only [← isSome_unescape_iff]
  constructor
  · rintro ⟨cs, hcs⟩ s hs
    obtain ⟨c, -, hc⟩ := List.mem_map.mp (hcs ▸ List.mem_map_of_mem hs)
    rw [← hc, Option.isSome_some]
  · intro h
    refine ⟨ss.map (fun s => (unescape s).getD []), ?_⟩
    rw [List.map_map]
    refine List.map_congr_left (fun s hs => ?_)
    obtain ⟨c, hc⟩ := Option.isSome_iff_exists.mp (h s hs)
    simp [hc]

theorem slashed_eq (c : Component) (cs : List Component) :
    (c :: cs).flatMap (fun c => '/' :: escape c) =
      '/' :: ['/'].intercalate ((c :: cs).map escape) := by
  induction cs generalizing c with
  | nil => simp
  | cons c' cs ih =>
      rw [List.flatMap_cons, ih]
      simp

/-- A text is read segment by segment, empty ones apart. -/
theorem ofUri_eq_ok_iff {u : String} {n : Name} : ofUri u = .ok n ↔
    ∃ rest, u.toList = '/' :: rest ∧
      ((rest.splitOn '/').filter (fun s => !s.isEmpty)).map unescape = n.components.map some := by
  unfold ofUri
  split
  · rename_i rest h
    simp only [h, List.cons.injEq, true_and, exists_eq_left', ← segments_eq_splitOn]
    rw [← ofSegments_eq_ok_iff]
    cases ofSegments ((segments rest).filter (fun s => !s.isEmpty)) with
    | error e => simp [Except.map]
    | ok cs =>
        obtain ⟨cs'⟩ := n
        simp [Except.map]
  · rename_i hne
    refine iff_of_false (by simp) ?_
    rintro ⟨rest, h, -⟩
    exact hne rest h

/-- A name that has no empty component is read back from its URI. -/
theorem ofUri_uri {n : Name} (h : [] ∉ n.components) : ofUri n.uri = .ok n := by
  obtain ⟨cs⟩ := n
  cases cs with
  | nil => rfl
  | cons c cs =>
      have hchars : (uri ⟨c :: cs⟩).toList = '/' :: ['/'].intercalate ((c :: cs).map escape) := by
        rw [uri, String.toList_ofList, ← slashed_eq]
        rfl
      have hsegments : (['/'].intercalate ((c :: cs).map escape)).splitOn '/' =
          (c :: cs).map escape := by
        refine List.splitOn_intercalate '/' (fun s hs => ?_) (by simp)
        obtain ⟨c', -, rfl⟩ := List.mem_map.mp hs
        exact slash_not_mem_escape c'
      have hfull : ∀ s ∈ (c :: cs).map escape, (!s.isEmpty) = true := by
        intro s hs
        obtain ⟨c', hc', rfl⟩ := List.mem_map.mp hs
        have hne : escape c' ≠ [] := by
          intro hescape
          have hc := unescape_escape c'
          rw [hescape] at hc
          exact h (Option.some.inj hc ▸ hc')
        simpa using hne
      refine ofUri_eq_ok_iff.mpr ⟨_, hchars, ?_⟩
      rw [hsegments, List.filter_eq_self.mpr hfull, List.map_map]
      exact List.map_congr_left (fun c' _ => unescape_escape c')

/-- What a name is read from has no empty segments left. -/
theorem nil_not_mem_of_ofUri {u : String} {n : Name} (h : ofUri u = .ok n) : [] ∉ n.components := by
  obtain ⟨rest, -, hmap⟩ := ofUri_eq_ok_iff.mp h
  intro hnil
  obtain ⟨s, hs, hempty⟩ := List.mem_map.mp (hmap ▸ List.mem_map_of_mem (f := some) hnil)
  have hne : s ≠ [] := by simpa using (List.mem_filter.mp hs).2
  exact ne_nil_of_unescape hne hempty rfl

theorem exists_ofUri_iff (u : String) : (∃ n, ofUri u = .ok n) ↔
    ∃ rest, u.toList = '/' :: rest ∧ ∀ segment ∈ rest.splitOn '/', Escaped segment := by
  simp only [ofUri_eq_ok_iff]
  constructor
  · rintro ⟨n, rest, hrest, hmap⟩
    refine ⟨rest, hrest, fun segment hsegment => ?_⟩
    by_cases hempty : segment = []
    · rw [hempty]
      exact .nil
    · refine (exists_components_iff _).mp ⟨n.components, hmap⟩ segment ?_
      exact List.mem_filter.mpr ⟨hsegment, by simpa using hempty⟩
  · rintro ⟨rest, hrest, hall⟩
    obtain ⟨cs, hcs⟩ := (exists_components_iff _).mpr
      (fun s hs => hall s (List.mem_filter.mp hs).1)
    exact ⟨⟨cs⟩, rest, hrest, hcs⟩

/-- A name without empty components is read back from its URI, so no two such names share one. A text is
read just when it starts with a slash and every percent sign is followed, before the next slash, by
two digits of its own; the name then has no empty component and is read back. -/
theorem uri_readBack :
    (∀ n : Name, [] ∉ n.components → ofUri n.uri = .ok n) ∧
      (∀ n m : Name, [] ∉ n.components → [] ∉ m.components → n.uri = m.uri → n = m) ∧
      ∀ u : String,
        ((∃ n, ofUri u = .ok n) ↔
          ∃ rest, u.toList = '/' :: rest ∧ ∀ segment ∈ rest.splitOn '/', Escaped segment) ∧
        ∀ n, ofUri u = .ok n → [] ∉ n.components ∧ ofUri n.uri = .ok n := by
  refine ⟨fun n hn => ofUri_uri hn, ?_, fun u => ⟨?_, ?_⟩⟩
  · intro n m hn hm h
    have hsame : (.ok n : Except UriError Name) = .ok m := by rw [← ofUri_uri hn, ← ofUri_uri hm, h]
    exact Except.ok.inj hsame
  · exact exists_ofUri_iff u
  · intro n h
    exact ⟨nil_not_mem_of_ofUri h, ofUri_uri (nil_not_mem_of_ofUri h)⟩

/-- A slash, a percent sign, a zero, a byte above all of ASCII, and a text of two bytes a character. -/
def awkward : Name := ⟨[[47, 37, 0, 255], [195, 169, 195, 169]]⟩

theorem uri_readBack_awkward :
    ofUri awkward.uri = .ok awkward ∧ ofUri "/%2f%25%00%FF//é%c3%A9/" = .ok awkward ∧
      ¬ ∃ n, ofUri "/a%4/1" = .ok n := by
  have hread : ofUri "/%2f%25%00%FF//é%c3%A9/" = .ok awkward := rfl
  refine ⟨uri_readBack.1 awkward (by decide), hread, ?_⟩
  rw [(uri_readBack.2.2 "/a%4/1").1]
  rintro ⟨rest, hrest, hall⟩
  obtain rfl : ['a', '%', '4', '/', '1'] = rest := (List.cons.inj hrest).2
  have hsegment : Escaped ['a', '%', '4'] := hall _ (by rw [← segments_eq_splitOn]; decide)
  exact absurd ((isSome_unescape_iff _).mpr hsegment) (by decide)

end Name

end Reconcile

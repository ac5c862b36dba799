import Mathlib.Data.List.Forall2
import Mathlib.Data.List.Nodup
import Reconcile.Digest.Blake3
import Reconcile.Slice.Json
import Reconcile.Settings
import Reconcile.Proofs.Json.Written

/-! # Slices and settings are read back

Beside each text stands the value that it writes, as a tree. The text is read as that tree, and the
tree as what was written, whichever fields of the settings are there and in whichever order. -/

namespace Reconcile

namespace Json

/-! ## Fields -/

theorem isHalf_toNat (c : Char) : JsonString.isHalf c.toNat = false := by
  have hvalid : c.toNat < 0xD800 ∨ 0xDFFF < c.toNat ∧ c.toNat < 0x110000 := c.valid
  simp only [JsonString.isHalf, decide_eq_false_iff_not]
  omega

theorem text?_keyOf (key : String) : (keyOf key).text? = some key := by
  have hwhole : (key.toList.map Char.toNat).any JsonString.isHalf = false := by
    simp [List.any_map, isHalf_toNat]
  have hchars : (key.toList.map Char.toNat).map Char.ofNat = key.toList := by
    simp [Function.comp_def]
  simp only [keyOf, JsonString.text?, hwhole, hchars, Bool.or_self, Bool.false_eq_true, if_false,
    String.ofList_toList]

/-- Fields of known keys are all found, if none of them comes twice. -/
theorem known_record {names : List String} {fields found : List (String × Json)}
    (hnames : ∀ f ∈ fields, f.1 ∈ names) (hnodup : ((found ++ fields).map Prod.fst).Nodup) :
    known names (fields.map (fun f => (keyOf f.1, f.2))) found = some (found ++ fields) := by
  induction fields generalizing found with
  | nil => simp [known]
  | cons f fields ih =>
      obtain ⟨hf, hfields⟩ := List.forall_mem_cons.mp hnames
      have hfresh : found.any (·.1 = f.1) = false := by
        rw [List.map_append, List.map_cons, List.nodup_append] at hnodup
        simp only [List.any_eq_false, decide_eq_true_eq]
        intro g hg
        exact hnodup.2.2 g.1 (List.mem_map_of_mem hg) f.1 List.mem_cons_self
      have hrest : known names (fields.map (fun f => (keyOf f.1, f.2))) (found ++ [f]) =
          some (found ++ [f] ++ fields) := ih hfields (by simpa using hnodup)
      rw [List.map_cons, known, text?_keyOf]
      simp only [List.contains_iff_mem, hf, if_true, hfresh, hrest, List.append_assoc,
        List.singleton_append, Bool.false_eq_true, if_false]

theorem fields?_record {names : List String} {fields : List (String × Json)}
    (hnames : ∀ f ∈ fields, f.1 ∈ names) (hnodup : (fields.map Prod.fst).Nodup) :
    fields? names (record fields) = some (names.map (fields.lookup ·)) := by
  have hknown : known names (fields.map (fun f => (keyOf f.1, f.2))) [] = some ([] ++ fields) :=
    known_record hnames hnodup
  rw [record, fields?, hknown]
  rfl

theorem readEach_map {α : Type} {read : Json → Option α} {write : α → Json} {as : List α}
    (h : ∀ a ∈ as, read (write a) = some a) : readEach read (as.map write) = some as := by
  induction as with
  | nil => rfl
  | cons a as ih =>
      obtain ⟨ha, has⟩ := List.forall_mem_cons.mp h
      rw [List.map_cons, readEach, ha, ih has]

theorem readsAs_row {α : Type} {text : α → List Char} {form : α → Json}
    (h : ∀ a, ReadsAs (text a) (form a)) (as : List α) :
    ReadsAs (arrayText (as.map text)) (.array (as.map form)) := by
  refine readsAs_array ?_
  rw [List.forall₂_map_left_iff, List.forall₂_map_right_iff]
  exact List.forall₂_same.mpr (fun a _ => h a)

end Json

/-! ## Names and slices -/

namespace Name

/-- What a component is written as. -/
def componentForm (c : Component) : Json := .array (c.map (fun b => .natural b.toNat))

theorem readsAs_component (c : Component) : Json.ReadsAs (componentText c) (componentForm c) :=
  Json.readsAs_row (fun b : UInt8 => Json.readsAs_natural b.toNat) c

theorem componentOfJson?_form (c : Component) : componentOfJson? (componentForm c) = some c := by
  have hbytes : Json.readEach (Json.below? 256) ((c.map UInt8.toNat).map Json.natural) =
      some (c.map UInt8.toNat) := by
    refine Json.readEach_map (fun n hn => ?_)
    obtain ⟨b, -, rfl⟩ := List.mem_map.mp hn
    rw [Json.below?, if_pos b.toNat_lt]
  have hback : (c.map UInt8.toNat).map UInt8.ofNat = c := by simp [Function.comp_def]
  rw [List.map_map] at hbytes
  change (Json.readEach (Json.below? 256) (c.map (Json.natural ∘ UInt8.toNat))).map
    (·.map UInt8.ofNat) = some c
  rw [hbytes, Option.map_some, hback]

/-- What a name is written as. -/
def form (n : Name) : Json :=
  Json.record [("components", .array (n.components.map componentForm))]

theorem readsAs_jsonText (n : Name) : Json.ReadsAs n.jsonText n.form := by
  have hcomponents := Json.readsAs_row readsAs_component n.components
  exact Json.readsAs_object (.cons (.mk (by decide) hcomponents) .nil)

theorem ofJson?_form (n : Name) : ofJson? n.form = some n := by
  have hfields : n.form.fields? ["components"] =
      some [some (.array (n.components.map componentForm))] :=
    Json.fields?_record (by simp) (by simp)
  have hcomponents : Json.readEach componentOfJson? (n.components.map componentForm) =
      some n.components := Json.readEach_map (fun c _ => componentOfJson?_form c)
  rw [ofJson?, hfields]
  dsimp only
  rw [hcomponents]
  rfl

end Name

namespace Slice

/-- What a slice is written as. -/
def form (s : Slice) : Json :=
  Json.record [("topo", s.region.form), ("prefix", s.base.form),
    ("filters", .array (s.excluded.map Name.form))]

theorem readsAs_jsonText (s : Slice) : Json.ReadsAs s.jsonText s.form := by
  have hexcluded := Json.readsAs_row Name.readsAs_jsonText s.excluded
  exact Json.readsAs_object
    (.cons (.mk (by decide) s.region.readsAs_jsonText)
      (.cons (.mk (by decide) s.base.readsAs_jsonText)
        (.cons (.mk (by decide) hexcluded) .nil)))

theorem ofJson?_form (s : Slice) : ofJson? s.form = some s := by
  have hfields : s.form.fields? ["topo", "prefix", "filters"] =
      some [some s.region.form, some s.base.form,
        some (.array (s.excluded.map Name.form))] :=
    Json.fields?_record (by simp) (by simp)
  have hexcluded : Json.readEach Name.ofJson? (s.excluded.map Name.form) = some s.excluded :=
    Json.readEach_map (fun n _ => n.ofJson?_form)
  rw [ofJson?, hfields]
  dsimp only [excludedOfJson?]
  rw [Name.ofJson?_form, Name.ofJson?_form, hexcluded]

/-- A slice is read back from its JSON. -/
theorem parse?_json (s : Slice) : parse? s.json = some s := by
  rw [parse?, json, Json.parse_ofList s.readsAs_jsonText]
  exact s.ofJson?_form

end Slice

/-! ## Settings -/

/-- What the settings are made of. -/
inductive Setting
  | quiet
  | timeout
  | attempts
deriving Repr, DecidableEq

namespace Setting

def key : Setting → String
  | quiet => "debounce_ms"
  | timeout => "fetch_timeout_ms"
  | attempts => "max_fetch_attempts"

def value (s : Settings) : Setting → Nat
  | quiet => s.quiet
  | timeout => s.timeout
  | attempts => s.attempts

theorem key_injective : Function.Injective key := by
  intro f g h
  cases f <;> cases g <;> first | rfl | exact absurd h (by decide)

theorem plain_key (f : Setting) : Json.Plain f.key := by cases f <;> decide

theorem key_mem (f : Setting) :
    f.key ∈ ["debounce_ms", "fetch_timeout_ms", "max_fetch_attempts"] := by
  cases f <;> decide

end Setting

namespace Settings

/-- The spans can be counted in milliseconds by a number of 64 bits, the failures by one of 32. -/
structure Fits (s : Settings) : Prop where
  quiet : s.quiet < UInt64.size
  timeout : s.timeout < UInt64.size
  attempts : s.attempts < UInt32.size

/-- The fields for these parts, in this order. -/
def fields (s : Settings) (kept : List Setting) : List (String × Json) :=
  kept.map (fun f => (f.key, .natural (f.value s)))

/-- What the settings are written as with only these parts, in this order. -/
def form (s : Settings) (kept : List Setting) : Json :=
  Json.record [("sync", Json.record (s.fields kept))]

/-- The settings in JSON with only these parts, in this order. -/
def partText (s : Settings) (kept : List Setting) : List Char :=
  Json.objectText [Json.fieldText "sync" <| Json.objectText <|
    kept.map (fun f => Json.fieldText f.key (Json.naturalText (f.value s)))]

/-- The settings with the default of every part but these. -/
def keeping (s : Settings) (kept : List Setting) : Settings where
  quiet := if .quiet ∈ kept then s.quiet else ({} : Settings).quiet
  timeout := if .timeout ∈ kept then s.timeout else ({} : Settings).timeout
  attempts := if .attempts ∈ kept then s.attempts else ({} : Settings).attempts

theorem json_eq (s : Settings) :
    s.json = String.ofList (s.partText [.quiet, .timeout, .attempts]) := rfl

theorem keeping_all (s : Settings) : s.keeping [.quiet, .timeout, .attempts] = s := rfl

theorem readsAs_partText (s : Settings) (kept : List Setting) :
    Json.ReadsAs (s.partText kept) (s.form kept) := by
  have hfields : List.Forall₂ Json.FieldReadsAs
      (kept.map (fun f => Json.fieldText f.key (Json.naturalText (f.value s)))) (s.fields kept) := by
    rw [fields, List.forall₂_map_left_iff, List.forall₂_map_right_iff]
    exact List.forall₂_same.mpr (fun f _ => .mk f.plain_key (Json.readsAs_natural _))
  exact Json.readsAs_object (.cons (.mk (by decide) (Json.readsAs_object hfields)) .nil)

theorem lookup_fields (s : Settings) (kept : List Setting) (f : Setting) :
    (s.fields kept).lookup f.key = if f ∈ kept then some (.natural (f.value s)) else none := by
  induction kept with
  | nil => rfl
  | cons g kept ih =>
      rw [fields, List.map_cons, List.lookup_cons, ← fields, ih]
      by_cases h : f = g
      · subst h
        simp
      · have hkey : (f.key == g.key) = false := by
          simpa using fun heq => h (Setting.key_injective heq)
        simp only [hkey, List.mem_cons, h, false_or]

theorem fields?_fields (s : Settings) {kept : List Setting} (hkept : kept.Nodup) :
    (Json.record (s.fields kept)).fields? ["debounce_ms", "fetch_timeout_ms", "max_fetch_attempts"] =
      some ([.quiet, .timeout, .attempts].map (fun f : Setting =>
        if f ∈ kept then some (.natural (f.value s)) else none)) := by
  have hkeys : (s.fields kept).map Prod.fst = kept.map Setting.key := by
    simp [fields, Function.comp_def]
  rw [Json.fields?_record]
  · simp only [← lookup_fields, List.map_cons, List.map_nil, Setting.key]
  · intro field hfield
    obtain ⟨f, -, rfl⟩ := List.mem_map.mp hfield
    exact f.key_mem
  · rw [hkeys]
    exact hkept.map Setting.key_injective

theorem number?_kept {bound default n : Nat} {p : Prop} [Decidable p] (hn : n < bound) :
    number? bound default (if p then some (.natural n) else none) =
      some (if p then n else default) := by
  by_cases h : p
  · simp only [if_pos h, number?, Json.below?, if_pos hn]
  · simp only [if_neg h, number?]

theorem ofJson?_fields {s : Settings} (hs : s.Fits) {kept : List Setting} (hkept : kept.Nodup) :
    ofJson? (Json.record (s.fields kept)) = some (s.keeping kept) := by
  rw [ofJson?, s.fields?_fields hkept]
  simp only [List.map_cons, List.map_nil, Setting.value, number?_kept hs.quiet,
    number?_kept hs.timeout, number?_kept hs.attempts]
  rfl

/-- Whatever text writes these parts, it is read as the settings with the defaults of the others. -/
theorem parse?_of_parse {s : Settings} (hs : s.Fits) {kept : List Setting} (hkept : kept.Nodup)
    {text : String} (htext : Json.parse text = some (s.form kept)) :
    parse? text = some (s.keeping kept) := by
  have hsync : (s.form kept).fields? ["sync"] = some [some (Json.record (s.fields kept))] :=
    Json.fields?_record (by simp) (by simp)
  rw [parse?, htext, Option.bind_some, hsync]
  exact ofJson?_fields hs hkept

end Settings

/-! ## Both -/

/-- A slice is read back from its JSON, and so has the same identifier. Settings that fit are read back
from theirs; from the same fields without some of them, in any order, they are read with the defaults
of those that are not there. -/
theorem json_readBack :
    (∀ (H : Hashing) (s : Slice), Slice.parse? s.json = some s ∧
      (Slice.parse? s.json).map (Slice.id H) = some (s.id H)) ∧
    ∀ s : Settings, s.Fits → Settings.parse? s.json = some s ∧
      ∀ kept : List Setting, kept.Nodup →
        Settings.parse? (String.ofList (s.partText kept)) = some (s.keeping kept) := by
  have hparts : ∀ s : Settings, s.Fits → ∀ kept : List Setting, kept.Nodup →
      Settings.parse? (String.ofList (s.partText kept)) = some (s.keeping kept) :=
    fun s hs kept hkept =>
      Settings.parse?_of_parse hs hkept (Json.parse_ofList (s.readsAs_partText kept))
  refine ⟨fun H s => ⟨s.parse?_json, ?_⟩, fun s hs => ⟨?_, hparts s hs⟩⟩
  · rw [s.parse?_json, Option.map_some]
  · rw [s.json_eq, hparts s hs _ (by decide), s.keeping_all]

namespace Sample

/-- Empty components, a quotation mark, and the least and the greatest byte. -/
def oddBytes : Slice := { region := ⟨[[], [0, 34, 255]]⟩, base := ⟨[]⟩, excluded := [⟨[]⟩, ⟨[[]]⟩] }

/-- The greatest settings there are, with the last part first and one left out. -/
def greatestText : String :=
  "\x7b\"sync\":\x7b\"max_fetch_attempts\":4294967295,\"debounce_ms\":18446744073709551615\x7d\x7d"

theorem json_readBack_greatest :
    (Slice.parse? oddBytes.json = some oddBytes ∧
      (Slice.parse? oddBytes.json).map (Slice.id Blake3.hash) = some (oddBytes.id Blake3.hash)) ∧
    Settings.parse? greatestText =
      some { quiet := 18446744073709551615, timeout := 30000, attempts := 4294967295 } := by
  let s : Settings := { quiet := 18446744073709551615, timeout := 7, attempts := 4294967295 }
  have hs : s.Fits := ⟨by decide, by decide, by decide⟩
  have hsettings := (json_readBack.2 s hs).2 [.attempts, .quiet] (by decide)
  have htext : String.ofList (s.partText [.attempts, .quiet]) = greatestText := by decide +kernel
  rw [htext] at hsettings
  exact ⟨json_readBack.1 Blake3.hash oddBytes, hsettings⟩

end Sample

end Reconcile

import Reconcile.Proofs.Reconciler.Striding

/-! # Between two rounds

Choosing a root, ending a round and giving a round up keep a reconciler in order. A round that is
given up takes nothing out of what the reconciler remembers; one that is through takes out only names
of the old baseline. -/

namespace Reconcile.Reconciler

open Traversal

variable {H : Hashing} {S : Name → Prop} {r r' : Reconciler} {y : Digest}

/-! ## Choosing a root -/

theorem mem_addMissing {d : Digest} {roots ds : List Digest} :
    d ∈ addMissing roots ds ↔ d ∈ roots ∨ d ∈ ds := by
  induction ds generalizing roots with
  | nil => simp [addMissing]
  | cons e ds ih =>
      rw [addMissing, ih, List.mem_cons, ← or_assoc]
      refine or_congr_left ?_
      split
      · rename_i hmem
        have hmem : e ∈ roots := by simpa using hmem
        refine ⟨.inl, ?_⟩
        rintro (hd | rfl)
        · exact hd
        · exact hmem
      · rw [List.mem_append, List.mem_singleton]

theorem Ledger.mem_of_mem_kept {l : Ledger} {awaits : Bool} {d : Digest} (h : d ∈ l.kept awaits) :
    d ∈ l.queue.roots := by
  cases awaits with
  | true => exact h
  | false => cases h

theorem Adoption.mem {l : Ledger} {awaits : Bool} {baseline : Option Digest} {ds : List Digest}
    (h : Adoption H l awaits baseline ds) {d : Digest} (hd : d ∈ ds) :
    ∃ body ∈ l.queue.bodies, H body = d ∧ ∃ n, Denotes H d n := by
  cases h with
  | without brought nodes none_yet =>
      obtain ⟨body, hbody, rfl⟩ := List.mem_map.mp (brought.subset hd)
      exact ⟨body, hbody, rfl, nodes _ hd⟩
  | adopted front body' back split awaited node brought nodes =>
      obtain ⟨body, hbody, rfl⟩ := List.mem_map.mp (brought.subset hd)
      refine ⟨body, ?_, rfl, nodes _ hd⟩
      rw [split]
      exact List.mem_append_right front (List.mem_cons_of_mem body' hbody)

theorem mem_candidates {known : Digest → Bool} {l : Ledger} {awaits : Bool}
    {baseline : Option Digest} {ds : List Digest} {d : Digest} :
    d ∈ candidates known l awaits baseline ds ↔
      (d ∈ ds ∨ awaits = false ∧ d ∈ l.queue.roots) ∧ some d ≠ baseline ∧ known d = false := by
  cases awaits <;> simp [candidates, or_and_right]

theorem Adoption.candidates_eq_nil {known : Digest → Bool} {l : Ledger} {baseline : Option Digest}
    {ds : List Digest} (h : Adoption H l true baseline ds) :
    candidates known l true baseline ds = [] := by
  have hds : ds = [] := by
    generalize hawaits : true = awaits at h
    cases h with
    | without brought nodes none_yet => exact none_yet hawaits.symm
    | adopted front body back split awaited node brought nodes => cases hawaits
  rw [hds]
  rfl

theorem Orderly.honest_candidate (h : r.Orderly H S) {known : Digest → Bool} {awaits : Bool}
    {baseline : Option Digest} {ds : List Digest} (hadoption : Adoption H r.ledger awaits baseline ds)
    {d : Digest} (hd : d ∈ candidates known r.ledger awaits baseline ds) : Honest H d := by
  rcases (mem_candidates.mp hd).1 with hd | hd
  · obtain ⟨body, hbody, rfl, n, hn⟩ := hadoption.mem hd
    exact h.bodies body hbody n hn
  · exact h.roots d hd.2

/-- Taking the bodies in keeps the order, if the names of an adopted baseline are known from the
start. -/
theorem Orderly.taking (h : r.Orderly H S) (hround : r.round = none) {ds : List Digest}
    (ht : Taking H { r with queue.bodies := [] } r.queue.bodies r' ds)
    (hadopt : r.awaitsBaseline = true → ∀ d ∈ r'.baseline, ∀ a ∈ namesBelow H d, S a) :
    r'.Orderly H S := by
  have hempty : Orderly H S { r with queue.bodies := [] } :=
    { h with bodies := fun bytes hbytes => nomatch hbytes }
  cases ht with
  | kept fetches brought nodes none_yet => exact hempty.fetches fetches
  | adopted front body back split awaited node fetches brought nodes =>
      have hbaseline : r'.baseline = some (H body) := fetches.baseline
      have hbody : body ∈ r.queue.bodies := by
        rw [split]
        exact List.mem_append_right front List.mem_cons_self
      obtain ⟨n, hn⟩ := node
      refine Orderly.fetches ?_ fetches
      refine { hempty with baseline := ?_, awaiting := ?_, round := ?_ }
      · intro d hd
        obtain rfl : H body = d := Option.some.inj hd
        exact ⟨h.bodies body hbody n hn, fun a ha => .inl (hadopt awaited _ hbaseline a ha)⟩
      · intro hawaits
        cases hawaits
      · intro z hz
        cases hround.symm.trans hz

theorem Orderly.idles (h : r.Orderly H S) (hround : r.round = none) {roots : List Digest}
    (hroots : ∀ d ∈ roots, Honest H d) :
    Orderly H S { r with queue := { roots }, phase := .done } := by
  refine { h with roots := hroots, bodies := ?_, phase := ?_, active := hround.symm }
  · intro bytes hbytes
    cases hbytes
  · exact iff_of_true hround (.inr rfl)

/-- The round of an honest root starts with all its names still to come. -/
theorem Orderly.starts (inj : Function.Injective H) (h : r.Orderly H S) {roots : List Digest}
    (hroots : ∀ d ∈ roots, Honest H d) {best : Digest} (hbest : Honest H best)
    (hawaits : r.awaitsBaseline ≠ true) :
    Orderly H S (openRound { r with queue := { roots, active := some best } } best) := by
  refine { h with
    recorded := ?_
    roots := hroots
    bodies := ?_
    awaiting := fun hawaits' => absurd hawaits' hawaits
    phase := ?_
    active := rfl
    resting := fun _ => rfl
    honest := ?_
    round := ?_ }
  · intro a ha
    cases ha
  · intro bytes hbytes
    cases hbytes
  · constructor
    · intro hnone
      cases hnone
    · rintro (hphase | hphase) <;> cases hphase
  · intro z hz
    exact Option.some.inj hz ▸ hbest
  · intro z hz
    obtain rfl : best = z := Option.some.inj hz
    exact underway_begin inj _ h.baseline_honest hbest

theorem evolves_choose (inj : Function.Injective H) (h : r.Orderly H S) (hround : r.round = none)
    (hadopt : r.awaitsBaseline = true →
      ∀ d ∈ (r.choose H).baseline, ∀ a ∈ namesBelow H d, S a) :
    Evolves H S r (r.choose H) := by
  obtain ⟨mid, ds, -, htaking, hchoice⟩ := choose_cases h.genuine
  have hadoption := adoption_of_taking htaking
  have hledger := ledger_of_taking htaking
  have hmidround : mid.round = none := (congrArg Ledger.round hledger).trans hround
  have hmidknown : ∀ d, r.cache.known d = true → mid.cache.known d = true := by
    intro d hd
    rw [known_of_taking htaking]
    exact hd
  have hkept : ∀ d ∈ r.ledger.kept mid.awaitsBaseline, Honest H d :=
    fun d hd => h.roots d (Ledger.mem_of_mem_kept hd)
  have hmid : (r.choose H).baseline = mid.baseline → mid.Orderly H S := by
    intro hbaseline
    rw [hbaseline] at hadopt
    exact h.taking hround htaking hadopt
  rcases hchoice with ⟨hnone, hchoose⟩ | ⟨best, hbest, hchoose⟩
  · have hmid := hmid (by rw [hchoose])
    have hchange := Change.rest hround hadoption hnone
    rw [hchoose]
    refine ⟨hmid.idles hmidround hkept, ?_, hmidknown⟩
    convert hchange using 1
    exact congrArg (fun l : Ledger =>
      { l with
        queue := { roots := r.ledger.kept mid.awaitsBaseline }
        phase := .done }) hledger
  · have hmid := hmid (by rw [hchoose]; rfl)
    have hhonest : Honest H best := h.honest_candidate hadoption (List.mem_of_getLast? hbest)
    have hawaits : mid.awaitsBaseline ≠ true := by
      intro hawaits
      rw [hawaits] at hadoption hbest
      rw [hadoption.candidates_eq_nil] at hbest
      cases hbest
    have hchange := Change.start best hround hadoption hbest
    rw [hchoose]
    refine ⟨hmid.starts inj ?_ hhonest hawaits, ?_, hmidknown⟩
    · intro d hd
      rcases mem_addMissing.mp hd with hd | hd
      · exact hkept d hd
      · exact h.honest_candidate hadoption (List.dropLast_subset _ hd)
    · convert hchange using 1
      exact congrArg (fun l : Ledger =>
        { l with
          queue := {
            roots := addMissing (r.ledger.kept mid.awaitsBaseline)
              (candidates r.cache.known r.ledger mid.awaitsBaseline mid.baseline ds).dropLast
            active := some best }
          phase := .loading
          round := some best
          recorded := [] }) hledger

/-! ## The end of a round -/

/-- Without a round the order is a matter of what is remembered. -/
theorem Orderly.ends (h : r.Orderly H S) (hround : r.round = some y) {c : Cache}
    (hgenuine : c.Genuine H)
    (hknown : ∀ d, c.known d = true → r.cache.known d = true ∨ r.Settles H S d)
    {baseline : Option Digest} (hbaseline : ∀ d ∈ baseline, r.Settles H S d) {extra : Option Node}
    (hextra : ∀ n ∈ extra, ∀ a ∈ n.leaves, a ∈ r.journal.recorded) (tally : Tally) {phase : Phase}
    (hphase : phase = .choosing ∨ phase = .done) :
    Orderly H S { r with
      cache := c
      extra
      baseline
      round := none
      recorded := []
      traversal := {}
      tally
      queue.active := none
      phase } := by
  refine { h with
    genuine := hgenuine
    known := ?_
    baseline := hbaseline
    extra := hextra
    recorded := fun a ha => nomatch ha
    awaiting := ?_
    phase := iff_of_true rfl hphase
    active := rfl
    resting := fun _ => rfl
    honest := fun z hz => nomatch hz
    round := fun z hz => nomatch hz }
  · intro d hd
    rcases hknown d hd with hd | hd
    · exact h.known d hd
    · exact hd
  · intro hawaits
    cases hround.symm.trans (h.awaiting hawaits).2

/-- What a stand-in for remembered names lists was found. -/
theorem Orderly.sifted_logged (h : r.Orderly H S) {baseline : Option Digest}
    {remainder : Option (Digest × Node)} {kept : List Name}
    (hsifted : Cache.Sifted H baseline r.remembered remainder kept) :
    ∀ a ∈ kept, a ∈ r.journal.recorded := by
  intro a ha
  rcases mem_remembered.mp (hsifted.sub a ha) with ⟨n, hn, ha⟩ | ha
  · exact h.extra n hn a ha
  · exact h.recorded a ha

/-- The round is through: all names of its root are accounted for. -/
theorem evolves_closeRound (inj : Function.Injective H) (h : r.Orderly H S)
    (hround : r.round = some y) (hnext : r.traversal.next = []) (haside : r.traversal.aside = []) :
    Evolves H S r (r.closeRound H) := by
  have hsettles : r.Settles H S y := ⟨h.honest y hround, (h.round y hround).accounted hnext haside⟩
  have hhonest : ∀ d ∈ some y, Honest H d := by
    intro d hd
    exact Option.some.inj hd ▸ hsettles.1
  obtain ⟨hkeeps, kept, hsifted⟩ := Cache.sift_spec inj h.genuine hhonest r.remembered
  have hknown : ∀ d, (r.cache.sift H (some y) r.remembered).1.known d = r.cache.known d :=
    hkeeps.known
  unfold closeRound
  simp only [hround, hsifted.remainder_eq]
  refine ⟨?_, ?_, ?_⟩
  · refine h.ends hround (Cache.genuine_markKnown y (hkeeps.genuine h.genuine)) ?_ ?_ ?_ _ (.inr rfl)
    · intro d hd
      rw [Cache.known_markKnown, Bool.or_eq_true, decide_eq_true_eq, hknown] at hd
      rcases hd with rfl | hd
      · exact .inr hsettles
      · exact .inl hd
    · intro d hd
      exact Option.some.inj hd ▸ hsettles
    · intro n hn a ha
      exact h.sifted_logged hsifted a (Cache.mem_leaves_standIn.mp ⟨n, hn, ha⟩)
  · refine .close y ((Cache.standIn H kept).map Prod.snd) hround ?_
    intro a ha
    rw [Cache.mem_leaves_standIn, or_comm]
    exact hsifted.all a (mem_remembered.mpr ha)
  · intro d hd
    rw [Cache.known_markKnown, hknown, hd, Bool.or_true]

/-- The round is given up. What it found stays remembered. -/
theorem evolves_abandonRound (inj : Function.Injective H) (h : r.Orderly H S)
    (hround : r.round = some y) (hwork : r.hasWork = true) :
    Evolves H S r (r.abandonRound H) := by
  obtain ⟨hkeeps, kept, hsifted⟩ := Cache.sift_spec inj h.genuine h.baseline_honest r.remembered
  have hgenuine := hkeeps.genuine h.genuine
  have hknown := hkeeps.known
  have hlogged := h.sifted_logged hsifted
  have hkept : ∀ a, r.ledger.Remembers H a → a ∈ kept ∨ a ∈ heldNames H r.baseline := by
    intro a ha
    rcases remembers_iff.mp ha with ha | ha
    · exact .inr ha
    · exact hsifted.all a ha
  unfold abandonRound
  simp only [hsifted.remainder_eq]
  refine ⟨?_, ?_, fun d hd => (hknown d).trans hd⟩
  · refine h.ends hround hgenuine (fun d hd => .inl ((hknown d).symm.trans hd)) ?_ ?_ _ (.inl rfl)
    · intro d hd
      cases hbaseline : r.baseline with
      | some b =>
          rw [hbaseline] at hd
          exact h.baseline d (hbaseline.trans hd)
      | none =>
          rw [hbaseline] at hd
          obtain ⟨hhonest, hnames⟩ := Cache.honest_standIn inj hd
          refine ⟨hhonest, fun a ha => .inr (hlogged a ?_)⟩
          exact mem_ascending.mp (hnames ▸ ha)
    · intro n hn a ha
      split at hn
      · exact hlogged a (Cache.mem_leaves_standIn.mp ⟨n, hn, ha⟩)
      · cases hn
  · refine .abandon y (r.baseline.or ((Cache.standIn H kept).map Prod.fst))
      (if r.baseline.isSome then (Cache.standIn H kept).map Prod.snd else none) hround hwork ?_
    intro a ha
    cases hbaseline : r.baseline with
    | some b =>
        rcases hkept a ha with ha | ha
        · exact .inr (Cache.mem_leaves_standIn.mpr ha)
        · rw [hbaseline] at ha
          exact .inl ha
    | none =>
        rcases hkept a ha with ha | ha
        · exact .inl (Cache.mem_heldNames_standIn inj ha)
        · rw [hbaseline] at ha
          cases ha

end Reconcile.Reconciler

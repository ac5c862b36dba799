import Reconcile.Proofs.Reconciler.Turnover

/-! # Every step keeps a reconciler in order

So does everything that may be done to it from outside, if roots are announced only for honest
trees. -/

namespace Reconcile.Reconciler

variable {H : Hashing} {S : Name → Prop} {r r' : Reconciler} {y : Digest}

theorem evolves_phase (h : r.Orderly H S) {phase : Phase}
    (hphase : r.round = none ↔ phase = .choosing ∨ phase = .done) :
    Evolves H S r { r with phase } :=
  ⟨{ h with phase := hphase }, .quiet phase, fun _ => id⟩

theorem evolves_giveWay (inj : Function.Injective H) (h : r.Orderly H S)
    (hround : r.round = some y) : Evolves H S r (r.giveWay H).1 := by
  unfold giveWay
  split
  · rename_i hwork
    exact evolves_abandonRound inj h hround hwork
  · exact evolves_of_fetches h (.refl r)

theorem Orderly.exists_round (h : r.Orderly H S) (hchoosing : r.phase ≠ .choosing)
    (hdone : r.phase ≠ .done) : ∃ y, r.round = some y := by
  refine Option.ne_none_iff_exists'.mp ?_
  intro hround
  rcases h.phase.mp hround with hphase | hphase
  · exact hchoosing hphase
  · exact hdone hphase

/-- One step of a pass. A baseline that is adopted must be known from the start. -/
theorem evolves_step (inj : Function.Injective H) (agent : Agent) (h : r.Orderly H S)
    (hadopt : r.awaitsBaseline = true →
      ∀ d ∈ (r.step H agent).1.baseline, ∀ a ∈ namesBelow H d, S a) :
    Evolves H S r (r.step H agent).1 := by
  cases hphase : r.phase with
  | choosing =>
      have hround : r.round = none := h.phase.mpr (.inl hphase)
      simp only [step, hphase] at hadopt ⊢
      exact evolves_choose inj h hround hadopt
  | loading =>
      obtain ⟨y, hy⟩ := h.exists_round (by simp [hphase]) (by simp [hphase])
      have hload := fetches_load (H := H) agent r
      have hr := h.fetches hload
      have hround' := hload.round.trans hy
      simp only [step, hphase]
      split
      · rename_i r' hstage
        rw [hstage] at hr hround' hload
        refine .of_fetches hload (evolves_phase hr ?_)
        rw [hround']
        simp
      · rename_i r' hstage
        rw [hstage] at hload
        exact evolves_of_fetches h hload
      · rename_i r' hstage
        rw [hstage] at hr hround' hload
        exact .of_fetches hload (evolves_giveWay inj hr hround')
  | comparing =>
      obtain ⟨y, hy⟩ := h.exists_round (by simp [hphase]) (by simp [hphase])
      have hstride := stride_spec inj agent h hy
      simp only [step, hphase]
      split
      · rename_i r' hstage
        rw [hstage] at hstride
        exact hstride
      · rename_i r' hstage
        rw [hstage] at hstride
        obtain ⟨hf, hnext, haside⟩ := hstride
        exact .of_fetches hf
          (evolves_closeRound inj (h.fetches hf) (hf.round.trans hy) hnext haside)
      · rename_i r' hstage
        rw [hstage] at hstride
        exact evolves_of_fetches h hstride
      · rename_i r' hstage
        rw [hstage] at hstride
        have hf : Fetches H r r' := hstride
        exact .of_fetches hf (evolves_giveWay inj (h.fetches hf) (hf.round.trans hy))
      · rename_i r' f hstage
        rw [hstage] at hstride
        exact hstride.elim
  | done =>
      have hround : r.round = none := h.phase.mpr (.inr hphase)
      simp only [step, hphase]
      split
      · exact evolves_phase h (iff_of_true hround (.inl rfl))
      · exact evolves_of_fetches h (.refl r)

/-! ## What is done from outside -/

theorem fetches_complete (r : Reconciler) (d : Digest) (result : Except FetchFailure Bytes) :
    Fetches H r { r with cache := (r.cache.complete d result).1 } :=
  fetches_cache r (Cache.keeps_complete r.cache d result)

theorem Orderly.announce (h : r.Orderly H S) {d : Digest} (hd : Honest H d) :
    (r.announce d).1.Orderly H S := by
  unfold Reconciler.announce
  split
  · exact h
  · refine { h with roots := ?_ }
    intro e he
    rcases List.mem_append.mp he with he | he
    · exact h.roots e he
    · exact List.mem_singleton.mp he ▸ hd

theorem Orderly.handIn (h : r.Orderly H S) {bytes : Bytes} (hbytes : HonestBody H bytes) :
    (r.handIn bytes).Orderly H S := by
  refine { h with bodies := ?_ }
  intro b hb
  rcases List.mem_append.mp hb with hb | hb
  · exact h.bodies b hb
  · exact List.mem_singleton.mp hb ▸ hbytes

/-- A reconciler starts in order if the names of its baseline are known from the start. -/
theorem orderly_create {c : Cache} (hgenuine : c.Genuine H) (hknown : ∀ d, c.known d = false)
    (start : Origin) (firstName : Option Name)
    (hbaseline : ∀ d ∈ (create c start firstName).baseline, Honest H d ∧ ∀ a ∈ namesBelow H d, S a) :
    (create c start firstName).Orderly H S where
  genuine := hgenuine
  known d hd := by cases (hknown d).symm.trans hd
  baseline d hd := ⟨(hbaseline d hd).1, fun a ha => .inl ((hbaseline d hd).2 a ha)⟩
  extra n hn := nomatch hn
  recorded a ha := nomatch ha
  roots d hd := nomatch hd
  bodies b hb := nomatch hb
  awaiting := by
    intro hawaits
    cases start with
    | current => exact ⟨rfl, rfl⟩
    | empty => cases hawaits
    | root d => cases hawaits
  phase := iff_of_true rfl (.inl rfl)
  active := rfl
  resting _ := rfl
  honest y hy := nomatch hy
  round y hy := nomatch hy

end Reconcile.Reconciler

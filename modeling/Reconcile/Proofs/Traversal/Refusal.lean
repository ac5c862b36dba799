import Reconcile.Proofs.Traversal.Track

/-! # When a plan fails

Where both sides are at an item, a plan fails for one reason only: a side is at a name that lies
outside the range of its node, or does not come after the last one. Over trees in order no side is ever
at such a name. -/

namespace Reconcile.Traversal

variable {H : Hashing} {c : Cache} {w : Traversal} {m : Move} {e : Fault} {side : Side} {f : Frame}
  {fs frames : List Frame} {n : Node} {i j : Item} {a : Name} {d : Digest} {last : Option Name}

/-- A name is refused: it stands at the innermost position and fails its check. -/
def Refused (side : Side) (frames : List Frame) (last : Option Name) (e : Fault) : Prop :=
  ∃ f fs n a, frames = f :: fs ∧ f.At n (.leaf a) ∧ checkName side n last a = .error e

/-- A name passes the check if it lies in the range of its node and comes after the last one. -/
theorem checkName_eq_ok_iff :
    checkName side n last a = .ok () ↔ n.spans a = true ∧ ∀ b ∈ last, b < a := by
  unfold checkName
  split
  · rename_i hspans
    have hspans : n.spans a = false := by simpa using hspans
    simp [hspans]
  · rename_i hspans
    have hspans : n.spans a = true := by simpa using hspans
    cases last <;> simp [hspans]

/-- A check fails for the range of the node, or else because the names do not ascend. -/
theorem checkName_eq_error (h : checkName side n last a = .error e) :
    n.spans a = false ∧ e = .outsideRange side a ∨
      n.spans a = true ∧ (∃ b ∈ last, a ≤ b) ∧ e = .notAscending side a := by
  unfold checkName at h
  split at h
  · rename_i hspans
    exact .inl ⟨by simpa using hspans, (Except.error.inj h).symm⟩
  · rename_i hspans
    split at h
    · rename_i hlast
      refine .inr ⟨by simpa using hspans, ?_, (Except.error.inj h).symm⟩
      cases last with
      | none => cases hlast
      | some b => exact ⟨b, rfl, by simpa using hlast⟩
    · cases h

theorem Ready.at (h : Ready (f :: fs)) : ∃ n i, f.At n i := by
  obtain ⟨hnode, hthrough⟩ := h f rfl
  obtain ⟨n, i, hn, hi⟩ := Frame.exists_item hnode hthrough
  exact ⟨n, i, hn, hi⟩

/-- The item of the next tree is not known in full. -/
def Unknown (c : Cache) (w : Traversal) : Prop :=
  ∃ f fs n j, w.next = f :: fs ∧ f.At n j ∧ isKnown c j = false

/-- A plan fails just when a side refuses a name, and the current one only if the next item is not
known. -/
theorem refused_of_plan (hmeets : w.Meets) (h : (plan H c w).2 = .error e) :
    Refused .next w.next w.lastNext e ∨
      Unknown c w ∧ Refused .current w.current w.lastCurrent e := by
  obtain ⟨hleft, hnext, hcurrent⟩ := hmeets
  unfold plan at h
  split at h
  · rename_i hnone
    exact absurd hnone hleft
  · rename_i f fs hf
    obtain ⟨n, j, hat⟩ := Ready.at (hf ▸ hnext)
    simp only [top_of_at .next hat] at h
    split at h
    · cases h
    · rename_i hunknown
      have hunknown : Unknown c w := ⟨f, fs, n, j, hf, hat, by simpa using hunknown⟩
      split at h
      · rename_i e' hcheck
        obtain rfl : e' = e := Except.error.inj h
        cases j with
        | leaf a => exact .inl ⟨f, fs, n, a, hf, hat, hcheck⟩
        | ref d => cases hcheck
      · split at h
        · cases h
        · rename_i g gs hg
          obtain ⟨n', i, hat'⟩ := Ready.at (hg ▸ hcurrent)
          simp only [top_of_at .current hat'] at h
          split at h
          · rename_i e' hcheck
            obtain rfl : e' = e := Except.error.inj h
            cases i with
            | leaf a => exact .inr ⟨hunknown, g, gs, n', a, hg, hat', hcheck⟩
            | ref d => cases hcheck
          · cases h

/-- A name that the current side refuses makes the plan fail, unless the next side refuses its own or
its item is known. -/
theorem plan_of_refused (hunknown : Unknown c w)
    (hnext : ∀ e, ¬ Refused .next w.next w.lastNext e)
    (hcurrent : Refused .current w.current w.lastCurrent e) : (plan H c w).2 = .error e := by
  obtain ⟨f, fs, n, j, hf, hat, hj⟩ := hunknown
  obtain ⟨g, gs, n', a, hg, hat', hcheck'⟩ := hcurrent
  have hcheck : checkItem .next n w.lastNext j = .ok () := by
    cases j with
    | ref d => rfl
    | leaf b =>
        cases hcheck : checkName .next n w.lastNext b with
        | error e' => exact absurd ⟨f, fs, n, b, hf, hat, hcheck⟩ (hnext e')
        | ok u => exact hcheck
  have hcheck' : checkItem .current n' w.lastCurrent (.leaf a) = .error e := hcheck'
  simp [plan, hf, hg, top_of_at .next hat, top_of_at .current hat', hj, hcheck, hcheck']

/-- A name that a plan passes lies in the range of its node. -/
theorem spans_of_plan (h : (plan H c w).2 = .ok m) (hf : w.next = f :: fs)
    (hat : f.At n (.leaf a)) : n.spans a = true := by
  cases hcheck : checkName .next n w.lastNext a with
  | ok u => exact (checkName_eq_ok_iff.mp hcheck).1
  | error e =>
      have hcheck : checkItem .next n w.lastNext (.leaf a) = .error e := hcheck
      simp [plan, hf, top_of_at .next hat, isKnown, hcheck] at h

/-! ## Trees in order -/

/-- A side that goes along a tree in order refuses nothing. -/
theorem not_refused (inj : Function.Injective H) (hd : Ordered H d) (h : Along H d frames last) :
    ¬ Refused side frames last e := by
  rintro ⟨f, fs, n, a, rfl, hat, hcheck⟩
  have hwithin := h.within f List.mem_cons_self
  have hordered : Ordered H f.digest := by
    obtain ⟨l, hl⟩ := hd
    exact hl.of_leads inj hwithin.leads
  have hspans := hordered.spans inj (hwithin.denotes n hat.node).1 hat.mem
  have hlast : ∀ b ∈ last, b < a := by
    intro b hb
    have hsub := (h.track hd.whole).sublist hb (Along.mem_namesLeft hat)
    exact List.rel_of_pairwise_cons ((hd.ascending inj).sublist hsub) (List.mem_singleton_self a)
  cases hcheck.symm.trans (checkName_eq_ok_iff.mpr ⟨hspans, hlast⟩)

/-- Over two trees in order a plan never fails. -/
theorem OnTrack.plan_ne_error (inj : Function.Injective H) {baseline : Option Digest} {y : Digest}
    (h : w.OnTrack H baseline y) (hbaseline : ∀ d ∈ baseline, Ordered H d) (hy : Ordered H y)
    (hmeets : w.Meets) : (plan H c w).2 ≠ .error e := by
  intro hplan
  rcases refused_of_plan hmeets hplan with hnext | ⟨-, hcurrent⟩
  · obtain ⟨d, hd, halong⟩ := h.next
    obtain ⟨l, hl⟩ := hy
    exact not_refused inj (hl.of_leads inj hd) halong hnext
  · have halong := h.current
    obtain ⟨g, gs, n, a, hg, hat, hcheck⟩ := hcurrent
    rw [hg] at halong
    obtain ⟨d, hd, halong⟩ := halong.along
    exact not_refused inj (hbaseline d hd) halong ⟨g, gs, n, a, rfl, hat, hcheck⟩

end Reconcile.Traversal

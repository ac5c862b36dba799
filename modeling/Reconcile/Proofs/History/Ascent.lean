import Mathlib.Data.List.Induction
import Reconcile.Proofs.History
import Reconcile.Proofs.Reconciler.Motion

/-! # When a round finds a name again

Over any trees, in any history: the names that a round finds ascend strictly, until it resumes a
branch that was put aside. The traversal of that branch has no memory of the names before it. So a
round finds a name twice just when it finds it once more after resuming a branch. -/

namespace Reconcile

namespace Traversal

variable {H : Hashing} {c : Cache} {w : Traversal} {m : Move} {f : Frame} {fs : List Frame} {n : Node}
  {j : Item}

/-- A move leaves the last name of the next tree as it is, or passes a name. -/
theorem Planned.lastNext (h : Planned H c w m f fs n j) :
    (w.perform m).lastNext = w.lastNext ∨
      ∃ a, j = .leaf a ∧ (w.perform m).lastNext = some a := by
  obtain ⟨hnext, hf, -, hchosen⟩ := h
  have hpassed : ∀ w' : Traversal, w'.next = w.next → w'.lastNext = w.lastNext →
      w'.advanceNext.lastNext = w.lastNext ∨ ∃ a, j = .leaf a ∧ w'.advanceNext.lastNext = some a := by
    intro w' hw' hlast
    simp only [advanceNext, hw', hnext, hlast]
    cases j with
    | leaf a => exact .inr ⟨a, rfl, by rw [leafAt_leaf hf]; rfl⟩
    | ref d => exact .inl (by rw [leafAt_ref hf]; rfl)
  have hcurrent : w.advanceCurrent.next = w.next ∧ w.advanceCurrent.lastNext = w.lastNext := by
    unfold advanceCurrent
    split <;> exact ⟨rfl, rfl⟩
  generalize w.current = current at hchosen
  cases hchosen with
  | known => exact hpassed w rfl rfl
  | record => exact hpassed w rfl rfl
  | least => exact hpassed w rfl rfl
  | enterNext => exact hpassed w rfl rfl
  | same => exact hpassed _ hcurrent.1 hcurrent.2
  | greatest => exact hpassed _ hcurrent.1 hcurrent.2
  | share => exact hpassed _ hcurrent.1 hcurrent.2
  | enterBoth => exact hpassed _ hcurrent.1 hcurrent.2
  | enterCurrent => exact .inl hcurrent.2
  | skipCurrent => exact .inl hcurrent.2
  | leaveCurrent => exact .inl rfl

/-- A name that is recorded is at the position of the next tree, and is the last one passed then. -/
theorem Planned.record (h : Planned H c w .record f fs n j) :
    ∃ a, j = .leaf a ∧ w.next.head?.bind leafAt = some a ∧
      (w.perform .record).lastNext = some a := by
  obtain ⟨hnext, hf, -, hchosen⟩ := h
  generalize w.current = current at hchosen
  cases hchosen with
  | record =>
      refine ⟨_, rfl, ?_, ?_⟩
      · rw [hnext]
        exact leafAt_leaf hf
      · simp only [perform, advanceNext, hnext, leafAt_leaf hf]
        rfl

end Traversal

namespace Reconciler

variable {H : Hashing} {agent : Agent} {P : Digest → Prop} {r r' r'' : Reconciler}

/-- No round ends between two states. -/
def SameRound (r r' : Reconciler) : Prop :=
  r'.tally.completed = r.tally.completed ∧ r'.tally.aborted = r.tally.aborted

theorem SameRound.trans (h : SameRound r r') (h' : SameRound r' r'') : SameRound r r'' :=
  ⟨h'.1.trans h.1, h'.2.trans h.2⟩

/-- Between two states a branch that was put aside is taken up again. -/
def Resumes (r r' : Reconciler) : Prop :=
  r.phase = .comparing ∧ r.traversal.next = [] ∧
    ∃ d ∈ r.traversal.aside, r'.traversal = r.traversal.restart r.baseline d

/-- What an event does to the names of the round in progress. -/
inductive Notes (r r' : Reconciler) : Prop
  /-- It finds none. -/
  | keeps (round : SameRound r r') (recorded : r'.recorded = r.recorded)
      (last : ∀ b ∈ r.traversal.lastNext, ∃ b' ∈ r'.traversal.lastNext, b ≤ b')
  /-- It finds a name that comes after the last one. -/
  | finds (round : SameRound r r') (a : Name) (recorded : r'.recorded = r.recorded ++ [a])
      (follows : ∀ b ∈ r.traversal.lastNext, b < a) (last : r'.traversal.lastNext = some a)
  | resumes (round : SameRound r r') (recorded : r'.recorded = r.recorded)
      (resumes : Resumes r r')
  /-- It ends a round or starts one. -/
  | clears (recorded : r'.recorded = [])

theorem notes_same (round : SameRound r r') (recorded : r'.recorded = r.recorded)
    (traversal : r'.traversal.lastNext = r.traversal.lastNext) : Notes r r' := by
  refine .keeps round recorded ?_
  intro b hb
  exact ⟨b, traversal ▸ hb, le_refl b⟩

theorem Notes.phase (h : Notes r r') (phase : Phase) : Notes r { r' with phase } := by
  cases h with
  | keeps round recorded last => exact .keeps round recorded last
  | finds round a recorded follows last => exact .finds round a recorded follows last
  | resumes round recorded resumes => exact .resumes round recorded resumes
  | clears recorded => exact .clears recorded

/-! ## Looking and asking -/

theorem aborted_await (r : Reconciler) (d : Digest) :
    (r.await agent d).tally.aborted = r.tally.aborted := by
  unfold await request
  split <;> rfl

theorem Consults.sameRound (h : Consults H agent P r r') : SameRound r r' := by
  refine ⟨h.fetches.completed, ?_⟩
  induction h with
  | refl => rfl
  | look _ d ih => exact ih
  | ask _ _ ih => exact (aborted_await _ _).trans ih

theorem Consults.notes (h : Consults H agent P r r') : Notes r r' :=
  notes_same h.sameRound h.fetches.recorded (by rw [h.fetches.traversal])

/-- Taking bodies in touches only the nodes and the baseline. -/
theorem takeBodies_eq (bodies : List Bytes) (candidates : List Digest) (r : Reconciler) :
    ∃ cache awaitsBaseline baseline,
      (takeBodies H bodies candidates r).1 = { r with cache, awaitsBaseline, baseline } := by
  induction bodies generalizing candidates r with
  | nil => exact ⟨r.cache, r.awaitsBaseline, r.baseline, rfl⟩
  | cons body rest ih =>
      simp only [takeBodies]
      split
      · exact ih candidates _
      · split
        · exact ih candidates _
        · exact ih _ _

/-- Choosing a root takes the bodies in, and changes but the queue besides: it rests or opens a round. -/
theorem choose_eq (r : Reconciler) :
    ∃ cache awaitsBaseline baseline queue,
      (takeBodies H r.queue.bodies [] { r with queue.bodies := [] }).1 =
          { r with queue.bodies := [], cache, awaitsBaseline, baseline } ∧
        queue.bodies = [] ∧
        (r.choose H = { r with cache, awaitsBaseline, baseline, queue, phase := .done } ∨
          ∃ best, r.choose H = openRound { r with cache, awaitsBaseline, baseline, queue } best) := by
  obtain ⟨cache, awaits, baseline, htaken⟩ :=
    takeBodies_eq (H := H) r.queue.bodies [] { r with queue.bodies := [] }
  unfold choose
  generalize takeBodies H r.queue.bodies [] { r with queue.bodies := [] } = taken at htaken
  obtain ⟨mid, candidates⟩ := taken
  obtain rfl := htaken
  cases awaits <;> dsimp only <;> split
  · exact ⟨_, _, _, _, rfl, rfl, .inl rfl⟩
  · exact ⟨_, _, _, _, rfl, rfl, .inr ⟨_, rfl⟩⟩
  · exact ⟨_, _, _, _, rfl, rfl, .inl rfl⟩
  · exact ⟨_, _, _, _, rfl, rfl, .inr ⟨_, rfl⟩⟩

theorem notes_choose (r : Reconciler) : Notes r (r.choose H) := by
  obtain ⟨cache, awaits, baseline, queue, -, -, hchoose | ⟨best, hchoose⟩⟩ := choose_eq (H := H) r
  · rw [hchoose]
    exact notes_same ⟨rfl, rfl⟩ rfl rfl
  · rw [hchoose]
    exact .clears rfl

theorem notes_giveWay {r₀ : Reconciler} (h : Notes r₀ r) : Notes r₀ (r.giveWay H).1 := by
  unfold giveWay
  split
  · exact .clears rfl
  · exact h

/-! ## A step of the traversal -/

theorem traversal_effect (r : Reconciler) (w : Traversal) (m : Traversal.Move) :
    (effect r w m).traversal = r.traversal := by
  have h := affects_effect r w m
  generalize effect r w m = r' at h ⊢
  cases h <;> rfl

theorem notes_acted {c : Cache} {m : Traversal.Move} {f : Frame} {fs : List Frame} {n : Node}
    {j : Item} (h : Traversal.Planned H r.cache r.traversal m f fs n j) :
    Notes r (effect { r with cache := c, traversal := r.traversal.perform m } r.traversal m) := by
  have hlast : ∀ b ∈ r.traversal.lastNext, ∃ b' ∈ (r.traversal.perform m).lastNext, b ≤ b' := by
    intro b hb
    rcases h.lastNext with hsame | ⟨a, hj, hpassed⟩
    · exact ⟨b, hsame ▸ hb, le_refl b⟩
    · exact ⟨a, hpassed, le_of_lt (h.follows a hj b hb)⟩
  have haffects := affects_effect { r with cache := c, traversal := r.traversal.perform m }
    r.traversal m
  generalize effect _ r.traversal m = r' at haffects ⊢
  cases haffects with
  | nothing => exact .keeps ⟨rfl, rfl⟩ rfl hlast
  | marks => exact .keeps ⟨rfl, rfl⟩ rfl hlast
  | records name handsOut =>
      obtain ⟨a, hj, hleaf, hpassed⟩ := h.record
      obtain rfl := Option.some.inj (hleaf.symm.trans name)
      exact .finds ⟨rfl, rfl⟩ a rfl (h.follows a hj) hpassed

theorem notes_stride (hphase : r.phase = .comparing) {stride : Stride}
    (h : Strode H agent r r' stride) : Notes r r' := by
  cases h with
  | onward goes =>
      cases goes with
      | @resumed r' d n next mem consults found =>
          have hlook := consults.look d
          exact .resumes hlook.sameRound hlook.fetches.recorded ⟨hphase, next, d, mem, rfl⟩
      | passedKnown next unresolved known => exact notes_same ⟨rfl, rfl⟩ rfl rfl
      | openedNext next unresolved found => exact notes_same ⟨rfl, rfl⟩ rfl rfl
      | putAside next above unresolved found consults =>
          have hround : SameRound r _ := consults.sameRound
          exact notes_same hround consults.fetches.recorded rfl
      | leftNext next resolved isThrough => exact notes_same ⟨rfl, rfl⟩ rfl rfl
      | openedCurrent current unresolved found => exact notes_same ⟨rfl, rfl⟩ rfl rfl
      | leftCurrent current resolved isThrough => exact notes_same ⟨rfl, rfl⟩ rfl rfl
      | acted plan planned => exact notes_acted planned
  | through next aside => exact notes_same ⟨rfl, rfl⟩ rfl rfl
  | waiting waits => exact waits.consults.notes
  | exhausted next left consults missed => exact consults.notes
  | lostRoot next unresolved missed => exact notes_same ⟨rfl, rfl⟩ rfl rfl
  | lostCurrent current unresolved missed => exact notes_same ⟨rfl, rfl⟩ rfl rfl
  | faulted plan => exact notes_same ⟨rfl, rfl⟩ rfl rfl

theorem notes_closeRound {r₀ : Reconciler} (h : Notes r₀ r) : Notes r₀ (r.closeRound H) := by
  unfold closeRound
  split
  · exact h.phase .done
  · exact .clears rfl

/-- A step of a pass. -/
theorem notes_step (agent : Agent) (r : Reconciler) : Notes r (r.step H agent).1 := by
  unfold step
  split
  · exact notes_choose r
  · have hload := loaded_load (H := H) agent r
    generalize r.load H agent = loaded at hload
    obtain ⟨r', progress⟩ := loaded
    have hnotes : Notes r r' := by
      cases hload with
      | idle round => exact notes_same ⟨rfl, rfl⟩ rfl rfl
      | ready round found consults => exact ((Consults.refl.look _).trans consults).notes
      | waitingRefs round found waits =>
          exact ((Consults.refl.look _).trans waits.consults).notes
      | waitingRoot round waits => exact waits.consults.notes
      | stuck round missed => exact notes_same ⟨rfl, rfl⟩ rfl rfl
    cases progress with
    | through => exact hnotes.phase .comparing
    | waiting => exact hnotes
    | stuck => exact notes_giveWay hnotes
  · rename_i hphase
    have hnotes := notes_stride hphase (strode_stride (H := H) agent r)
    generalize r.stride H agent = strode at hnotes
    obtain ⟨r', stride⟩ := strode
    cases stride with
    | onward => exact hnotes
    | through => exact notes_closeRound hnotes
    | waiting => exact hnotes
    | stuck => exact notes_giveWay hnotes
    | fault f => exact .clears rfl
  · split <;> exact notes_same ⟨rfl, rfl⟩ rfl rfl

/-- Any event. -/
theorem notes_on (r : Reconciler) (e : Event) : Notes r (r.on H e) := by
  cases e with
  | announce d =>
      simp only [on, announce]
      split <;> exact notes_same ⟨rfl, rfl⟩ rfl rfl
  | handIn bytes => exact notes_same ⟨rfl, rfl⟩ rfl rfl
  | complete d result => exact notes_same ⟨rfl, rfl⟩ rfl rfl
  | call => exact notes_same ⟨rfl, rfl⟩ rfl rfl
  | step agent => exact notes_step agent r

/-! ## Histories -/

/-- The names of the round in progress are those of `old`, and those of `new` that ascend to the last
name passed. -/
structure Ascends (r : Reconciler) (old new : List Name) : Prop where
  recorded : r.recorded = old ++ new
  ordered : new.Pairwise (· < ·)
  last : ∀ a ∈ new, ∃ b ∈ r.traversal.lastNext, a ≤ b

theorem Ascends.keeps {old new : List Name} (h : Ascends r old new)
    (recorded : r'.recorded = r.recorded)
    (last : ∀ b ∈ r.traversal.lastNext, ∃ b' ∈ r'.traversal.lastNext, b ≤ b') :
    Ascends r' old new := by
  refine ⟨recorded.trans h.recorded, h.ordered, ?_⟩
  intro a ha
  obtain ⟨b, hb, hab⟩ := h.last a ha
  obtain ⟨b', hb', hbb'⟩ := last b hb
  exact ⟨b', hb', le_trans hab hbb'⟩

theorem Ascends.finds {old new : List Name} (h : Ascends r old new) {a : Name}
    (recorded : r'.recorded = r.recorded ++ [a]) (follows : ∀ b ∈ r.traversal.lastNext, b < a)
    (last : r'.traversal.lastNext = some a) : Ascends r' old (new ++ [a]) := by
  have hbefore : ∀ b ∈ new, b < a := by
    intro b hb
    obtain ⟨b', hb', hbb'⟩ := h.last b hb
    exact lt_of_le_of_lt hbb' (follows b' hb')
  refine ⟨?_, ?_, ?_⟩
  · rw [recorded, h.recorded, List.append_assoc]
  · refine List.pairwise_append.mpr ⟨h.ordered, List.pairwise_singleton _ a, ?_⟩
    intro b hb a' ha'
    exact List.mem_singleton.mp ha' ▸ hbefore b hb
  · intro b hb
    refine ⟨a, last, ?_⟩
    rcases List.mem_append.mp hb with hb | hb
    · exact le_of_lt (hbefore b hb)
    · exact le_of_eq (List.mem_singleton.mp hb)

/-- The names `old` are those that the round had found when it resumed a branch. -/
def ResumedWith (H : Hashing) (r : Reconciler) (es : List Event) (old : List Name) : Prop :=
  ∃ es₁ e es₂, es = es₁ ++ e :: es₂ ∧ Resumes (after H r es₁) (after H r (es₁ ++ [e])) ∧
    SameRound (after H r es₁) (after H r es) ∧
    (after H r es₁).recorded = old ∧ (after H r (es₁ ++ [e])).recorded = old

theorem ResumedWith.concat {es : List Event} {old : List Name} (h : ResumedWith H r es old)
    {e : Event} (he : SameRound (after H r es) (after H r (es ++ [e]))) :
    ResumedWith H r (es ++ [e]) old := by
  obtain ⟨es₁, e', es₂, rfl, hresumes, hround, hold, hold'⟩ := h
  exact ⟨es₁, e', es₂ ++ [e], by simp, hresumes, hround.trans he, hold, hold'⟩

/-- In every history the names since the last branch that was resumed ascend. -/
theorem ascends_after (hr : r.recorded = []) (es : List Event) :
    ∃ old new, Ascends (after H r es) old new ∧ (old = [] ∨ ResumedWith H r es old) := by
  induction es using List.reverseRecOn with
  | nil => exact ⟨[], [], ⟨hr, .nil, fun a ha => nomatch ha⟩, .inl rfl⟩
  | append_singleton es e ih =>
      obtain ⟨old, new, hascends, hold⟩ := ih
      have hnotes := notes_on (H := H) (after H r es) e
      rw [← after_concat] at hnotes
      cases hnotes with
      | keeps round recorded last =>
          exact ⟨old, new, hascends.keeps recorded last, hold.imp_right (·.concat round)⟩
      | finds round a recorded follows last =>
          exact ⟨old, new ++ [a], hascends.finds recorded follows last,
            hold.imp_right (·.concat round)⟩
      | resumes round recorded resumes =>
          refine ⟨_, [], ⟨(List.append_nil _).symm, .nil, fun a ha => nomatch ha⟩,
            .inr ⟨es, e, [], rfl, resumes, round, ?_, rfl⟩⟩
          exact recorded.symm
      | clears recorded =>
          exact ⟨[], [], ⟨recorded, .nil, fun a ha => nomatch ha⟩, .inl rfl⟩

/-- A round finds a name twice just when it resumes a branch that was put aside after it found the
name, and finds it again after that. -/
theorem found_again_iff (H : Hashing) (c : Cache) (start : Origin) (firstName : Option Name)
    (es : List Event) (a : Name) :
    2 ≤ (after H (create c start firstName) es).recorded.count a ↔
      ∃ es₁ e es₂, es = es₁ ++ e :: es₂ ∧
        Resumes (after H (create c start firstName) es₁)
          (after H (create c start firstName) (es₁ ++ [e])) ∧
        SameRound (after H (create c start firstName) es₁)
          (after H (create c start firstName) es) ∧
        a ∈ (after H (create c start firstName) (es₁ ++ [e])).recorded ∧
        (after H (create c start firstName) (es₁ ++ [e])).recorded.count a <
          (after H (create c start firstName) es).recorded.count a := by
  constructor
  · induction hlength : es.length using Nat.strong_induction_on generalizing es with
    | _ length ih =>
      intro htwice
      obtain ⟨old, new, hascends, hold⟩ :=
        ascends_after (H := H) (r := create c start firstName) rfl es
      have hcount : (after H (create c start firstName) es).recorded.count a =
          old.count a + new.count a := by
        rw [hascends.recorded, List.count_append]
      have honce : new.count a ≤ 1 :=
        List.nodup_iff_count_le_one.mp (hascends.ordered.imp ne_of_lt) a
      rcases hold with rfl | ⟨es₁, e, es₂, rfl, hresumes, hround, hold, hold'⟩
      · simp only [List.count_nil] at hcount
        omega
      · by_cases htwice' : 2 ≤ old.count a
        · obtain ⟨es₁', e', es₂', rfl, hresumes', hround', hfound, hmore⟩ :=
            ih es₁.length (by simp [← hlength]) es₁ rfl (hold.symm ▸ htwice')
          refine ⟨es₁', e', es₂' ++ e :: es₂, by simp, hresumes', hround'.trans hround, hfound, ?_⟩
          rw [hold] at hmore
          omega
        · refine ⟨es₁, e, es₂, rfl, hresumes, hround, ?_, ?_⟩
          · rw [hold']
            refine List.count_pos_iff.mp ?_
            omega
          · rw [hold']
            omega
  · rintro ⟨es₁, e, es₂, rfl, -, -, hfound, hmore⟩
    have hpos := List.count_pos_iff.mpr hfound
    omega

end Reconciler

namespace Sample

/-- The name `1` beside a branch that lists it again. -/
def doubling : Node where
  items := [.leaf (name 1), .ref (root (flat [1]))]
  least := name 1
  greatest := name 1
  count := 2

/-- The branch cannot be had at first, so the round stalls. It comes later and brings the name `1` a
second time. -/
def revival : List Event :=
  [.announce (root doubling), .call] ++ stepping 2 ++ [fetched doubling] ++ stepping 2 ++
    [.complete (root (flat [1])) (.error (.notFound (root (flat [1]))))] ++ stepping 6 ++
    [fetched (flat [1]), .call] ++ stepping 3

end Sample

namespace Reconciler

open Sample in
/-- Finding the name `1` twice, the round resumed the branch in between. -/
theorem found_again_revival :
    ∃ es₁ e es₂, revival = es₁ ++ e :: es₂ ∧
      Resumes (after Digest.mk (create (.ofAttempts 1) .empty none) es₁)
        (after Digest.mk (create (.ofAttempts 1) .empty none) (es₁ ++ [e])) ∧
      SameRound (after Digest.mk (create (.ofAttempts 1) .empty none) es₁)
        (after Digest.mk (create (.ofAttempts 1) .empty none) revival) ∧
      name 1 ∈ (after Digest.mk (create (.ofAttempts 1) .empty none) (es₁ ++ [e])).recorded ∧
      (after Digest.mk (create (.ofAttempts 1) .empty none) (es₁ ++ [e])).recorded.count (name 1) <
        (after Digest.mk (create (.ofAttempts 1) .empty none) revival).recorded.count (name 1) :=
  (found_again_iff Digest.mk (.ofAttempts 1) .empty none revival (name 1)).mp (by decide +kernel)

end Reconciler

end Reconcile

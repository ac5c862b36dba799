import Mathlib.Logic.Function.Basic
import Reconcile.Exchange
import Reconcile.Proofs.Row

/-! # Many who want to run

Any number of callers want to run a reconciler, and each takes its atomic steps when it comes to it.
One of them at a time makes passes, the turn is taken just as long as somebody has it, and nobody is
refused without a pass that begins later and ends before the turn is free. -/

namespace Reconcile

/-- Where a caller is in a run. -/
inductive Stage
  | away
  /-- It has the turn, and a pass is to begin. -/
  | ready
  | passing
  /-- A pass is over, and its round is to end. -/
  | passed
deriving Repr, DecidableEq

/-- An atomic step of a caller, with the answer that it gets. -/
inductive Move (ι : Type)
  /-- It asks for the turn, and gets it. -/
  | got (i : ι)
  /-- It asks for the turn, does not get it, and goes away. -/
  | refused (i : ι)
  | began (i : ι)
  | ended (i : ι)
  /-- It ends a round, and another one must follow. -/
  | again (i : ι)
  /-- It ends a round, and goes away. -/
  | left (i : ι)
deriving Repr, DecidableEq

def Move.caller {ι : Type} : Move ι → ι
  | got i | refused i | began i | ended i | again i | left i => i

/-- The turn, and the callers who want it. -/
structure Crowd (ι : Type) where
  turn : Turn := {}
  stage : ι → Stage := fun _ => .away

namespace Crowd

variable {ι : Type} [DecidableEq ι] {c c' : Crowd ι} {m : Move ι} {ms : List (Move ι)} {i j : ι}

/-- A caller goes from one stage to another, if that is where it is and the turn answers so. -/
def go (c : Crowd ι) (i : ι) (start next : Stage) (turn : Turn × Bool) (answer : Bool) :
    Option (Crowd ι) :=
  if c.stage i = start ∧ turn.2 = answer then
    some { turn := turn.1, stage := Function.update c.stage i next }
  else none

def on (c : Crowd ι) : Move ι → Option (Crowd ι)
  | .got i => c.go i .away .ready c.turn.claim true
  | .refused i => c.go i .away .away c.turn.claim false
  | .began i => c.go i .ready .passing (c.turn, true) true
  | .ended i => c.go i .passing .passed (c.turn, true) true
  | .again i => c.go i .passed .ready c.turn.release true
  | .left i => c.go i .passed .away c.turn.release false

/-- The crowd after a row of moves, if each was possible. -/
def after (c : Crowd ι) (ms : List (Move ι)) : Option (Crowd ι) := ms.foldlM on c

/-- What a move needs, and what it makes of the crowd. -/
inductive Goes (c : Crowd ι) : Move ι → Crowd ι → Prop
  | got {i : ι} (away : c.stage i = .away) (free : c.turn.taken = false) :
      Goes c (.got i) ⟨{ c.turn with taken := true }, Function.update c.stage i .ready⟩
  | refused {i : ι} (away : c.stage i = .away) (held : c.turn.taken = true) :
      Goes c (.refused i) ⟨{ c.turn with again := true }, c.stage⟩
  | began {i : ι} (ready : c.stage i = .ready) :
      Goes c (.began i) ⟨c.turn, Function.update c.stage i .passing⟩
  | ended {i : ι} (passing : c.stage i = .passing) :
      Goes c (.ended i) ⟨c.turn, Function.update c.stage i .passed⟩
  | again {i : ι} (passed : c.stage i = .passed) (asked : c.turn.again = true) :
      Goes c (.again i) ⟨{ c.turn with again := false }, Function.update c.stage i .ready⟩
  | left {i : ι} (passed : c.stage i = .passed) (calm : c.turn.again = false) :
      Goes c (.left i) ⟨{ c.turn with taken := false }, Function.update c.stage i .away⟩

theorem go_eq_some {start next : Stage} {turn : Turn × Bool} {answer : Bool}
    (h : c.go i start next turn answer = some c') :
    c.stage i = start ∧ turn.2 = answer ∧ c' = ⟨turn.1, Function.update c.stage i next⟩ := by
  unfold go at h
  split at h
  · rename_i hgo
    cases h
    exact ⟨hgo.1, hgo.2, rfl⟩
  · cases h

theorem goes_of_on (h : c.on m = some c') : Goes c m c' := by
  cases m with
  | got i =>
      obtain ⟨haway, hanswer, rfl⟩ := go_eq_some h
      cases hfree : c.turn.taken with
      | true => simp [Turn.claim, hfree] at hanswer
      | false => simpa [Turn.claim, hfree] using Goes.got haway hfree
  | refused i =>
      obtain ⟨haway, hanswer, rfl⟩ := go_eq_some h
      rw [← haway, Function.update_eq_self]
      cases hheld : c.turn.taken with
      | true => simpa [Turn.claim, hheld] using Goes.refused haway hheld
      | false => simp [Turn.claim, hheld] at hanswer
  | began i =>
      obtain ⟨hready, -, rfl⟩ := go_eq_some h
      exact .began hready
  | ended i =>
      obtain ⟨hpassing, -, rfl⟩ := go_eq_some h
      exact .ended hpassing
  | again i =>
      obtain ⟨hpassed, hanswer, rfl⟩ := go_eq_some h
      cases hasked : c.turn.again with
      | true => simpa [Turn.release, hasked] using Goes.again hpassed hasked
      | false => simp [Turn.release, hasked] at hanswer
  | left i =>
      obtain ⟨hpassed, hanswer, rfl⟩ := go_eq_some h
      cases hasked : c.turn.again with
      | true => simp [Turn.release, hasked] at hanswer
      | false => simpa [Turn.release, hasked] using Goes.left hpassed hasked

theorem Goes.stage_of_ne (h : Goes c m c') (hi : i ≠ m.caller) : c'.stage i = c.stage i := by
  cases h <;> simp_all [Move.caller]

/-! ## Who has the turn -/

/-- Nobody but one is in a run, and the turn is taken if somebody is. -/
structure Orderly (c : Crowd ι) : Prop where
  alone : ∀ {i j}, c.stage i ≠ .away → c.stage j ≠ .away → i = j
  taken_iff : c.turn.taken = true ↔ ∃ i, c.stage i ≠ .away

omit [DecidableEq ι] in
theorem orderly_empty : ({} : Crowd ι).Orderly where
  alone hi := absurd rfl hi
  taken_iff := by simp

/-- The one in a run goes on to another stage of it. -/
theorem Orderly.update (h : c.Orderly) (hi : c.stage i ≠ .away) {next : Stage}
    (hnext : next ≠ .away) {turn : Turn} (hturn : turn.taken = c.turn.taken) :
    Orderly ⟨turn, Function.update c.stage i next⟩ := by
  have haway : ∀ k, Function.update c.stage i next k ≠ .away ↔ c.stage k ≠ .away := by
    intro k
    by_cases hk : k = i
    · subst hk
      simp [hnext, hi]
    · simp [hk]
  constructor
  · intro j k hj hk
    exact h.alone ((haway j).mp hj) ((haway k).mp hk)
  · simp only [hturn, haway]
    exact h.taken_iff

theorem Goes.orderly (hgoes : Goes c m c') (h : c.Orderly) : c'.Orderly := by
  cases hgoes with
  | @got i away free =>
      have hnobody : ∀ k, c.stage k = .away := by
        intro k
        by_contra hk
        rw [h.taken_iff.mpr ⟨k, hk⟩] at free
        cases free
      have hin : ∀ k, Function.update c.stage i .ready k ≠ .away ↔ k = i := by
        intro k
        by_cases hk : k = i
        · simp [hk]
        · simp [hk, hnobody]
      constructor
      · intro j k hj hk
        rw [(hin j).mp hj, (hin k).mp hk]
      · simp [hin]
  | refused away held => exact ⟨h.alone, h.taken_iff⟩
  | began ready => exact h.update (by simp [ready]) (by simp) rfl
  | ended passing => exact h.update (by simp [passing]) (by simp) rfl
  | again passed asked => exact h.update (by simp [passed]) (by simp) rfl
  | @left i passed calm =>
      have hnobody : ∀ k, Function.update c.stage i .away k = .away := by
        intro k
        by_cases hk : k = i
        · simp [hk]
        · rw [Function.update_of_ne hk]
          by_contra hin
          exact hk (h.alone hin (by simp [passed]))
      constructor
      · intro j k hj
        exact absurd (hnobody j) hj
      · simp [hnobody]

theorem orderly_after (h : ({} : Crowd ι).after ms = some c) : c.Orderly := by
  refine row_induction (motive := fun _ c => c.Orderly) orderly_empty ?_ h
  intro _ _ _ _ _ ih hon
  exact (goes_of_on hon).orderly ih

/-- A caller has the turn from when it gets it to when it leaves. -/
theorem since_got_iff (h : ({} : Crowd ι).after ms = some c) :
    Since (.got i) (.left i) ms ↔ c.stage i ≠ .away := by
  refine since_iff (p := fun c => c.stage i ≠ .away) (by simp) ?_ h
  intro c m c' hon
  have hgoes := goes_of_on hon
  by_cases hi : i = m.caller
  · subst hi
    cases hgoes <;> simp_all [Move.caller]
  · rw [hgoes.stage_of_ne hi]
    cases m <;> simp_all [Move.caller, eq_comm]

/-- A caller makes a pass from when it begins it to when it ends it. -/
theorem since_began_iff (h : ({} : Crowd ι).after ms = some c) :
    Since (.began i) (.ended i) ms ↔ c.stage i = .passing := by
  refine since_iff (p := fun c => c.stage i = .passing) (by simp) ?_ h
  intro c m c' hon
  have hgoes := goes_of_on hon
  by_cases hi : i = m.caller
  · subst hi
    cases hgoes <;> simp_all [Move.caller]
  · rw [hgoes.stage_of_ne hi]
    cases m <;> simp_all [Move.caller, eq_comm]

/-! ## What becomes of a refusal -/

/-- A pass that begins and ends in these moves. -/
def Whole (since : List (Move ι)) : Prop := ∃ k, List.Sublist [.began k, .ended k] since

/-- Since a refusal a whole pass was made, or one has begun, or one is going to begin. -/
def Owing (c : Crowd ι) (since : List (Move ι)) : Prop :=
  Whole since ∨ (∃ k, c.stage k = .passing ∧ .began k ∈ since) ∨ (∃ k, c.stage k = .ready) ∨
    c.turn.again = true

theorem Goes.owing {since : List (Move ι)} (hgoes : Goes c m c') (h : c.Owing since) :
    c'.Owing (since ++ [m]) := by
  rcases h with ⟨k, hwhole⟩ | ⟨k, hpassing, hbegan⟩ | ⟨k, hready⟩ | hagain
  · exact .inl ⟨k, hwhole.trans (List.sublist_append_left since [m])⟩
  · by_cases hk : k = m.caller
    · have hended : m = .ended k := by
        cases hgoes <;> simp_all [Move.caller]
      subst hended
      exact .inl ⟨k, (List.singleton_sublist.mpr hbegan).append (.refl [Move.ended k])⟩
    · refine .inr (.inl ⟨k, ?_, List.mem_append_left _ hbegan⟩)
      rw [hgoes.stage_of_ne hk, hpassing]
  · by_cases hk : k = m.caller
    · refine .inr (.inl ⟨k, ?_⟩)
      cases hgoes <;> simp_all [Move.caller]
    · refine .inr (.inr (.inl ⟨k, ?_⟩))
      rw [hgoes.stage_of_ne hk, hready]
  · refine .inr (.inr ?_)
    cases hgoes with
    | again passed => exact .inl ⟨_, Function.update_self ..⟩
    | left passed calm => cases calm.symm.trans hagain
    | got away => exact .inr hagain
    | refused away => exact .inr rfl
    | began ready => exact .inr hagain
    | ended passing => exact .inr hagain

/-- When the turn is given back, nothing is owed any more. -/
theorem Owing.whole {since : List (Move ι)} (h : c.Owing since) (hc : c.Orderly)
    (hgoes : Goes c (.left j) c') : Whole since := by
  cases hgoes with
  | left passed calm =>
      have hnone : ∀ k, c.stage k = .passed ∨ c.stage k = .away := by
        intro k
        by_cases hk : c.stage k = .away
        · exact .inr hk
        · have hkj : k = j := hc.alone hk (by simp [passed])
          exact .inl (hkj ▸ passed)
      rcases h with hwhole | ⟨k, hpassing, -⟩ | ⟨k, hready⟩ | hagain
      · exact hwhole
      · simpa [hpassing] using hnone k
      · simpa [hready] using hnone k
      · cases calm.symm.trans hagain

/-- For any number of callers and whatever their steps come after each other: no two are in a pass,
the turn is taken just while somebody has got it and not left, and whenever somebody was refused a
whole pass comes before anybody leaves. -/
theorem passes_alone_and_owed (h : ({} : Crowd ι).after ms = some c) :
    (∀ i j, Since (.began i) (.ended i) ms → Since (.began j) (.ended j) ms → i = j) ∧
    (c.turn.taken = true ↔ ∃ i, Since (.got i) (.left i) ms) ∧
    ∀ before i since j rest, ms = before ++ .refused i :: since ++ .left j :: rest →
      Whole since := by
  have horderly := orderly_after h
  refine ⟨?_, ?_, ?_⟩
  · intro i j hi hj
    rw [since_began_iff h] at hi hj
    exact horderly.alone (by simp [hi]) (by simp [hj])
  · rw [horderly.taken_iff]
    simp only [since_got_iff h]
  · rintro before i since j rest rfl
    obtain ⟨last, next, hlast, hleft, -⟩ := row_split h
    obtain ⟨first, asked, -, hrefused, hsince⟩ := row_split hlast
    have howing : last.Owing since := by
      refine row_induction (motive := fun since c => c.Owing since) ?_ ?_ hsince
      · cases goes_of_on hrefused with
        | refused away => exact .inr (.inr (.inr rfl))
      · intro _ _ _ _ _ ih hon
        exact (goes_of_on hon).owing ih
    exact howing.whole (orderly_after hlast) (goes_of_on hleft)

/-- While the first caller makes a pass, the second is refused, and the third after the pass. One
more pass serves both, and then the third gets the turn. -/
theorem passes_alone_and_owed_twice :
    let before : List (Move (Fin 3)) := [.got 0, .began 0]
    let since : List (Move (Fin 3)) := [.ended 0, .refused 2, .again 0, .began 0, .ended 0]
    let rest : List (Move (Fin 3)) := [.got 2, .began 2]
    let ms := before ++ .refused 1 :: since ++ .left 0 :: rest
    ∃ c, ({} : Crowd (Fin 3)).after ms = some c ∧ c.turn.taken = true ∧
      (∃ i, Since (.got i) (.left i) ms) ∧ Whole since := by
  intro before since rest ms
  have hsome : (({} : Crowd (Fin 3)).after ms).isSome := by decide
  obtain ⟨c, hc⟩ := Option.isSome_iff_exists.mp hsome
  have htaken : c.turn.taken = true := by
    have hturn : (({} : Crowd (Fin 3)).after ms).map (fun c => c.turn.taken) = some true := by
      decide
    simpa [hc] using hturn
  obtain ⟨-, hheld, howed⟩ := passes_alone_and_owed hc
  exact ⟨c, hc, htaken, hheld.mp htaken, howed before 1 since 0 rest rfl⟩

end Crowd

end Reconcile

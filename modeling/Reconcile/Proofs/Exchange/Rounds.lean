import Reconcile.Proofs.Exchange.Crowd
import Reconcile.Proofs.Reconciler.Pacing

/-! # The turn in a run of an exchange

A run of an exchange is a row of moves of two callers: the one who runs, and the listener, who may
ask for a run whenever it receives a name. It acts once on each name, so the rounds come to an end
and the turn is given back. -/

namespace Reconcile

variable {H : Hashing} {agent : Agent}

/-! ## Passes are counted -/

namespace Reconciler

variable {P : Digest → Prop} {r r' : Reconciler}

theorem Consults.runs (h : Consults H agent P r r') : r'.tally.runs = r.tally.runs := by
  obtain ⟨_, _, _, _, rfl⟩ := h.eq
  rfl

theorem Onward.runs (h : Onward H agent r r') : r'.tally.runs = r.tally.runs := by
  cases h with
  | resumed next mem consults found => exact consults.runs
  | passedKnown next unresolved known => rfl
  | openedNext next unresolved found => rfl
  | putAside next above unresolved found consults => exact consults.runs
  | leftNext next resolved isThrough => rfl
  | openedCurrent current unresolved found => rfl
  | leftCurrent current resolved isThrough => rfl
  | @acted c m f fs n j plan planned =>
      have haffects := affects_effect { r with cache := c, traversal := r.traversal.perform m }
        r.traversal m
      generalize effect _ r.traversal m = r' at haffects ⊢
      cases haffects <;> rfl

theorem runs_step (r : Reconciler) : (r.step H agent).1.tally.runs = r.tally.runs := by
  have hpaced := paced_step (H := H) agent r
  generalize (r.step H agent).1 = r', (r.step H agent).2 = outcome at hpaced ⊢
  cases hpaced with
  | chose phase => rw [(journal_tally_choose r).2]
  | loaded phase loaded =>
      obtain ⟨P, hconsults⟩ := loaded.consults
      exact hconsults.runs
  | waits phase consults => exact consults.runs
  | went phase goes => exact goes.runs
  | closed phase next aside =>
      unfold closeRound
      split <;> rfl
  | halted halts idle =>
      obtain ⟨P, hconsults⟩ := halts.consults
      exact hconsults.runs
  | gaveUp halts work =>
      obtain ⟨P, hconsults⟩ := halts.consults
      exact hconsults.runs
  | faulted phase plan meets => rfl
  | woke phase work => rfl
  | rested phase idle => rfl

/-- A pass is counted once. -/
theorem runs_pass (r : Reconciler) : (r.pass H agent).1.tally.runs = r.tally.runs + 1 := by
  obtain ⟨n, hn⟩ := pass_eq_after (H := H) agent r
  rw [hn, after_cons]
  refine after_induction (P := fun r' => r'.tally.runs = r.tally.runs + 1) rfl ?_
  intro r' e he hr'
  obtain rfl := List.eq_of_mem_replicate he
  exact (runs_step r').trans hr'

end Reconciler

/-! ## What the listener does -/

/-- The one who runs an exchange, and the listener. -/
inductive Party
  | runner
  | listener
deriving Repr, DecidableEq

namespace Crowd

/-- Nobody but the one who runs is in a run. -/
def led (turn : Turn) (stage : Stage) : Crowd Party :=
  ⟨turn, Function.update (fun _ => .away) .runner stage⟩

theorem led_away (turn : Turn) : led turn .away = { turn } := by
  simp [led]

theorem go_led {turn : Turn} {stage next : Stage} {result : Turn × Bool} {answer : Bool}
    (h : result.2 = answer) :
    (led turn stage).go .runner stage next result answer = some (led result.1 next) := by
  simp [go, led, h]

theorem refused_led {turn : Turn} (h : turn.taken = true) (stage : Stage) :
    (led turn stage).after [.refused .listener] = some (led turn.claim.1 stage) := by
  simp [after, on, go, led, Turn.claim, h]

end Crowd

namespace Exchange

/-- The reply says that somebody runs already. -/
def Reply.isBusy : Reply → Bool
  | .outcome (some .busy) => true
  | _ => false

variable {x x' x'' : Exchange} {replies more : List Reply} {n n' : Nat}

/-- What has nothing to do with the turn. -/
structure Aside (x x' : Exchange) : Prop where
  turn : x'.turn = x.turn
  hooks : x'.hooks = x.hooks
  runs : x'.reconciler.tally.runs = x.reconciler.tally.runs

theorem aside_answerEach (ds : List Digest) (x : Exchange) : Aside x (answerEach ds x) := by
  induction ds generalizing x with
  | nil => exact ⟨rfl, rfl, rfl⟩
  | cons d ds ih =>
      have hrest := ih (x.complete d (x.fetch d)).1
      exact ⟨hrest.turn, hrest.hooks, hrest.runs⟩

theorem aside_simpleStep (x : Exchange) (s : Step) :
    Aside x (x.simpleStep H s).1 ∧ (x.simpleStep H s).2.isBusy = false := by
  cases s with
  | announce d =>
      unfold simpleStep Reconciler.announce
      dsimp only
      split <;> exact ⟨⟨rfl, rfl, rfl⟩, rfl⟩
  | request d =>
      unfold simpleStep request withReconciler
      dsimp only
      split <;> exact ⟨⟨rfl, rfl, rfl⟩, rfl⟩
  | answer =>
      have hanswered := aside_answerEach x.unanswered { x with unanswered := [] }
      exact ⟨⟨hanswered.turn, hanswered.hooks, hanswered.runs⟩, rfl⟩
  | _ => exact ⟨⟨rfl, rfl, rfl⟩, rfl⟩

/-- In a pass the listener asks for a number of runs in vain. -/
structure Interrupts (x x' : Exchange) (replies : List Reply) (n : Nat) : Prop where
  row : (Crowd.led x.turn .passing).after (List.replicate n (.refused .listener)) =
    some (.led x'.turn .passing)
  busy : replies.countP Reply.isBusy = n
  runs : x'.reconciler.tally.runs = x.reconciler.tally.runs
  taken : x'.turn.taken = x.turn.taken
  again : x'.turn.again = true → x.turn.again = true ∨ 0 < n

theorem Aside.interrupts (h : Aside x x') {reply : Reply} (hreply : reply.isBusy = false) :
    Interrupts x x' [reply] 0 where
  row := by rw [h.turn]; rfl
  busy := by simp [hreply]
  runs := h.runs
  taken := by rw [h.turn]
  again hagain := .inl (h.turn ▸ hagain)

theorem Interrupts.refl (x : Exchange) : Interrupts x x [] 0 :=
  ⟨rfl, rfl, rfl, rfl, .inl⟩

theorem Interrupts.trans (h : Interrupts x x' replies n) (h' : Interrupts x' x'' more n') :
    Interrupts x x'' (replies ++ more) (n + n') where
  row := by
    rw [List.replicate_add]
    exact row_append h.row h'.row
  busy := by rw [List.countP_append, h.busy, h'.busy]
  runs := h'.runs.trans h.runs
  taken := h'.taken.trans h.taken
  again hagain := by
    rcases h'.again hagain with hearlier | hpos
    · exact (h.again hearlier).imp_right (Nat.add_pos_left · n')
    · exact .inr (Nat.add_pos_right n hpos)

theorem interrupts_innerStep (h : x.turn.taken = true) (s : Step) :
    ∃ n, Interrupts x (x.innerStep H s).1 [(x.innerStep H s).2] n ∧
      (x.innerStep H s).1.hooks = x.hooks := by
  have hasks : Interrupts x { x with turn := x.turn.claim.1 } [.outcome (some .busy)] 1 := by
    refine ⟨Crowd.refused_led h .passing, rfl, rfl, ?_, ?_⟩
    · simp [Turn.claim, h]
    · simp
  cases s with
  | run => exact ⟨1, hasks, rfl⟩
  | converge => exact ⟨1, hasks, rfl⟩
  | _ =>
      obtain ⟨haside, hreply⟩ := aside_simpleStep (H := H) x _
      exact ⟨0, haside.interrupts hreply, haside.hooks⟩

theorem interrupts_innerSteps (h : x.turn.taken = true) (ss : List Step) :
    ∃ n, Interrupts x (innerSteps H ss x).1 (innerSteps H ss x).2 n ∧
      (innerSteps H ss x).1.hooks = x.hooks := by
  induction ss generalizing x with
  | nil => exact ⟨0, .refl x, rfl⟩
  | cons s ss ih =>
      obtain ⟨n, hfirst, hhooks⟩ := interrupts_innerStep (H := H) h s
      obtain ⟨n', hrest, hhooks'⟩ := ih (hfirst.taken.trans h)
      exact ⟨n + n', hfirst.trans hrest, hhooks'.trans hhooks⟩

/-- Only the first time that a name is received the listener does something. -/
theorem interrupts_handOut (h : x.turn.taken = true) (names : List Name) :
    ∃ n, Interrupts x (handOut H names x).1 (handOut H names x).2 n ∧
      (handOut H names x).1.hooks.size ≤ x.hooks.size ∧
      (0 < n → (handOut H names x).1.hooks.size < x.hooks.size) := by
  induction names generalizing x with
  | nil => exact ⟨0, .refl x, Nat.le_refl _, fun hpos => absurd hpos (Nat.lt_irrefl 0)⟩
  | cons name names ih =>
      unfold handOut
      split
      · exact ih h
      · rename_i steps hsteps
        obtain ⟨n, hacts, hhooks⟩ :=
          interrupts_innerSteps (H := H) (x := { x with hooks := x.hooks.erase name.uri }) h steps
        obtain ⟨n', hrest, hle, -⟩ := ih (hacts.taken.trans h)
        rw [hhooks] at hle
        have hlt := Nat.lt_of_le_of_lt hle (Table.size_erase_lt hsteps)
        have hacts' : Interrupts x _ _ n :=
          ⟨hacts.row, hacts.busy, hacts.runs, hacts.taken, hacts.again⟩
        exact ⟨n + n', hacts'.trans hrest, Nat.le_of_lt hlt, fun _ => hlt⟩

/-! ## Rounds -/

/-- A round up to its end: a pass, and what the listener does with its names. -/
def round (H : Hashing) (x : Exchange) : Exchange × List Reply :=
  handOut H (x.pass H).2.2 (x.pass H).1

theorem rounds_of_asked {fuel : Nat} (h : (x.round H).1.turn.again = true) :
    rounds H (fuel + 1) x =
      let rest := rounds H fuel { (x.round H).1 with turn := (x.round H).1.turn.release.1 }
      (rest.1, rest.2.1, (x.round H).2 ++ rest.2.2) := by
  unfold round at h ⊢
  simp [rounds, Turn.release, h]

theorem rounds_of_calm {fuel : Nat} (h : (x.round H).1.turn.again = false) :
    rounds H (fuel + 1) x =
      ({ (x.round H).1 with turn := (x.round H).1.turn.release.1 }, (x.pass H).2.1,
        (x.round H).2) := by
  unfold round at h ⊢
  simp [rounds, Turn.release, h]

/-- A round can ask for another one only by using up something that the listener would do. -/
theorem row_round (h : x.turn.taken = true) :
    ∃ n, (Crowd.led x.turn .ready).after
        (.began .runner :: (List.replicate n (.refused .listener) ++ [.ended .runner])) =
          some (.led (x.round H).1.turn .passed) ∧
      (x.round H).2.countP Reply.isBusy = n ∧
      (x.round H).1.reconciler.tally.runs = x.reconciler.tally.runs + 1 ∧
      (x.round H).1.turn.taken = true ∧
      ((x.round H).1.turn.again = true →
        x.turn.again = true ∨ (x.round H).1.hooks.size < x.hooks.size) := by
  have hpass : (x.pass H).1.reconciler.tally.runs = x.reconciler.tally.runs + 1 :=
    Reconciler.runs_pass x.reconciler
  obtain ⟨n, hacts, -, hlt⟩ :=
    interrupts_handOut (H := H) (x := (x.pass H).1) h (x.pass H).2.2
  refine ⟨n, ?_, hacts.busy, hacts.runs.trans hpass, hacts.taken.trans h, ?_⟩
  · have hbegan : (Crowd.led x.turn .ready).on (.began .runner) = some (.led x.turn .passing) :=
      Crowd.go_led rfl
    have hended : ∀ turn, (Crowd.led turn .passing).on (.ended .runner) =
        some (.led turn .passed) := fun turn => Crowd.go_led rfl
    exact row_cons hbegan (row_append hacts.row (row_cons (hended _) rfl))
  · intro hagain
    exact (hacts.again hagain).imp_right hlt

/-- The rounds of a turn that is held are a row of moves, at the end of which the turn is free. What the
listener has left to do bounds the rounds that can still be asked for. -/
theorem row_rounds {fuel : Nat} (hfuel : x.hooks.size < fuel) (taken : x.turn.taken = true)
    (calm : x.turn.again = false) :
    ∃ ms : List (Move Party), (Crowd.led x.turn .ready).after ms = some {} ∧
      (rounds H fuel x).1.turn = {} ∧
      (rounds H fuel x).1.reconciler.tally.runs =
        x.reconciler.tally.runs + ms.count (.began .runner) ∧
      (rounds H fuel x).2.2.countP Reply.isBusy = ms.count (.refused .listener) := by
  induction fuel generalizing x with
  | zero => omega
  | succ fuel ih =>
      obtain ⟨n, hrow, hbusy, hruns, htaken, hagain⟩ := row_round (H := H) taken
      cases hasked : (x.round H).1.turn.again with
      | true =>
          rw [rounds_of_asked hasked]
          have hlt := (hagain hasked).resolve_left (by simp [calm])
          have hturn : (x.round H).1.turn.release = ({ taken := true, again := false }, true) := by
            simp [Turn.release, hasked, htaken]
          have hround : (Crowd.led (x.round H).1.turn .passed).on (.again .runner) =
              some (.led (x.round H).1.turn.release.1 .ready) := by
            apply Crowd.go_led
            exact congrArg Prod.snd hturn
          obtain ⟨ms, hrest, hfree, hmore, hbusy'⟩ :=
            ih (x := { (x.round H).1 with turn := (x.round H).1.turn.release.1 })
              (Nat.lt_of_lt_of_le hlt (Nat.le_of_lt_succ hfuel)) (by rw [hturn]) (by rw [hturn])
          refine ⟨_, row_append hrow (row_cons hround hrest), hfree, ?_, ?_⟩
          · simp [hmore, hruns, List.count_replicate]
            omega
          · simp [List.countP_append, hbusy, hbusy']
      | false =>
          rw [rounds_of_calm hasked]
          have hturn : (x.round H).1.turn.release = ({}, false) := by
            simp [Turn.release, hasked]
          have hround : (Crowd.led (x.round H).1.turn .passed).on (.left .runner) =
              some (.led (x.round H).1.turn.release.1 .away) := by
            apply Crowd.go_led
            exact congrArg Prod.snd hturn
          rw [hturn, Crowd.led_away] at hround
          refine ⟨_, row_append hrow (row_cons hround List.foldlM_nil), by rw [hturn], ?_, ?_⟩
          · simp [hruns, List.count_replicate]
          · simp [hbusy]

/-- A run that finds the turn free is a row of moves with a move for each of its passes and for each
run that the listener asked for in vain, and at its end the turn is free again. -/
theorem run_is_row (x : Exchange) (free : x.turn = {}) :
    ∃ ms : List (Move Party), ({} : Crowd Party).after ms = some {} ∧ (x.run H).1.turn = {} ∧
      (x.run H).1.reconciler.tally.runs =
        x.reconciler.tally.runs + ms.count (.began .runner) ∧
      (x.run H).2.2.countP Reply.isBusy = ms.count (.refused .listener) := by
  have hclaim : x.turn.claim = ({ taken := true, again := false }, true) := by
    rw [free]
    rfl
  have hgot : ({} : Crowd Party).on (.got .runner) = some (.led x.turn.claim.1 .ready) := by
    rw [← Crowd.led_away, ← free]
    apply Crowd.go_led
    exact congrArg Prod.snd hclaim
  obtain ⟨ms, hrow, hfree, hruns, hbusy⟩ :=
    row_rounds (H := H) (x := { x with turn := x.turn.claim.1 }) (Nat.lt_succ_self _)
      (by rw [hclaim]) (by rw [hclaim])
  have hrun : x.run H = rounds H (x.hooks.size + 1) { x with turn := x.turn.claim.1 } := by
    simp [run, hclaim]
  rw [hrun]
  exact ⟨.got .runner :: ms, row_cons hgot hrow, hfree, by simpa using hruns, by simpa using hbusy⟩

end Exchange

end Reconcile

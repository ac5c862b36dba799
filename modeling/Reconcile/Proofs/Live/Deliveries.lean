import Reconcile.Live.Directory
import Reconcile.Proofs.Reconciler.Pacing

/-! # When names are handed out

What a reconciler hands out is never taken back. So the names that a subscription hands out while
time passes make a row, each with the time of the event that found it. -/

namespace Reconcile

variable {H : Hashing}

namespace Reconciler

variable {agent : Agent} {r r' : Reconciler}

/-- What was handed out before is the front of what was handed out after. -/
def HandsOut (r r' : Reconciler) : Prop := r.journal.delivered <+: r'.journal.delivered

theorem HandsOut.of_eq (h : r'.journal.delivered = r.journal.delivered) : HandsOut r r' := by
  unfold HandsOut
  exact h ▸ List.prefix_rfl

theorem handsOut_record (r : Reconciler) (name : Name) : HandsOut r (r.record name) := by
  unfold record
  split
  · exact .of_eq rfl
  · unfold deliver
    split
    · exact List.prefix_append _ _
    · exact .of_eq rfl

theorem handsOut_effect (r : Reconciler) (w : Traversal) (m : Traversal.Move) :
    HandsOut r (effect r w m) := by
  unfold effect
  split
  · split
    · exact handsOut_record r _
    · exact .of_eq rfl
  · exact .of_eq rfl
  · exact .of_eq rfl

theorem Consults.handsOut {P : Digest → Prop} (h : Consults H agent P r r') : HandsOut r r' :=
  .of_eq h.says_nothing.2.1

theorem Onward.handsOut (h : Onward H agent r r') : HandsOut r r' := by
  cases h with
  | @resumed r₁ d n next mem consults found => exact (consults.look d).handsOut
  | putAside next above unresolved found consults =>
      exact ((Consults.look .refl _).trans consults).handsOut
  | @acted c m f fs n j plan planned meets =>
      exact handsOut_effect { r with cache := c, traversal := r.traversal.perform m } _ m
  | _ => exact .of_eq rfl

theorem delivered_closeRound (r : Reconciler) :
    (r.closeRound H).journal.delivered = r.journal.delivered := by
  unfold closeRound
  split <;> rfl

theorem handsOut_step (agent : Agent) (r : Reconciler) : HandsOut r (r.step H agent).1 := by
  have hpaced := paced_step (H := H) agent r
  generalize r.step H agent = stepped at hpaced
  obtain ⟨r', outcome⟩ := stepped
  cases hpaced with
  | chose phase => exact .of_eq (congrArg Journal.delivered (journal_tally_choose r).1)
  | loaded phase loaded =>
      obtain ⟨P, hconsults⟩ := loaded.consults
      exact hconsults.handsOut
  | waits phase consults => exact consults.handsOut
  | went phase goes => exact goes.handsOut
  | closed phase next aside => exact .of_eq (delivered_closeRound r)
  | halted halts idle =>
      obtain ⟨P, hconsults⟩ := halts.consults
      exact hconsults.handsOut
  | gaveUp halts work =>
      obtain ⟨P, hconsults⟩ := halts.consults
      exact hconsults.handsOut
  | faulted phase plan meets => exact .of_eq rfl
  | woke phase work => exact .of_eq rfl
  | rested phase idle => exact .of_eq rfl

theorem handsOut_on (r : Reconciler) (e : Event) : HandsOut r (r.on H e) := by
  cases e with
  | announce d =>
      simp only [on, announce]
      split <;> exact .of_eq rfl
  | step agent => exact handsOut_step agent r
  | _ => exact .of_eq rfl

theorem handsOut_after (r : Reconciler) (es : List Event) : HandsOut r (after H r es) :=
  after_induction (P := HandsOut r) (List.prefix_refl _) (fun r e _ h => h.trans (handsOut_on r e))

theorem handsOut_pass (agent : Agent) (r : Reconciler) : HandsOut r (r.pass H agent).1 := by
  obtain ⟨n, hn⟩ := pass_eq_after (H := H) agent r
  rw [hn]
  exact handsOut_after r _

end Reconciler

namespace Subscription

variable {s : Subscription} {depot : Depot} {now deadline fuel : Nat}

/-- The names that a subscription has handed out. -/
def told (s : Subscription) : List Name := s.reconciler.journal.delivered

/-- What is handed out while time passes, each name with its time. -/
def tellings (H : Hashing) (depot : Depot) (deadline : Nat) :
    Nat → Nat → Subscription → List (Nat × Name)
  | 0, _, _ => []
  | fuel + 1, now, s =>
    let s := s.prepare depot now
    match s.due? with
    | none => []
    | some t =>
      if deadline < t then []
      else
        let s' := s.happen H depot t
        (s'.told.drop s.told.length).map (t, ·) ++ tellings H depot deadline fuel t s'

theorem told_announce (now : Nat) (d : Digest) (s : Subscription) : (s.announce now d).told = s.told := by
  unfold announce Reconciler.announce
  split <;> rename_i hannounced <;> split at hannounced <;> cases hannounced <;> rfl

theorem told_receive (now : Nat) (d : Digest) (bytes : Bytes) (s : Subscription) :
    (s.receive now d bytes).1.told = s.told := by
  have hcomplete : (s.complete d (.ok bytes)).1.told = s.told := rfl
  unfold receive
  generalize s.complete d (.ok bytes) = completed at hcomplete ⊢
  obtain ⟨s', completion⟩ := completed
  cases completion <;> exact hcomplete

theorem told_land (depot : Depot) (now : Nat) (s : Subscription) :
    (s.land depot now).told = s.told := by
  unfold land
  generalize s.courier.landed now = flights
  have hfold : ∀ t : Subscription, (flights.foldl
      (fun t f => (t.complete f.digest (s.courier.result depot f)).1.nudge now) t).told =
      t.told := by
    induction flights with
    | nil => exact fun _ => rfl
    | cons f flights ih => exact fun t => ih _
  exact hfold _

theorem prefix_happen (H : Hashing) (depot : Depot) (now : Nat) (s : Subscription) :
    s.told <+: (s.happen H depot now).told := by
  unfold happen
  split
  · exact (told_land depot now s).symm ▸ List.prefix_rfl
  · dsimp only
    split
    · exact Reconciler.handsOut_pass .accepting s.reconciler
    · exact List.prefix_refl _

/-- Nothing else is handed out, and in that order. -/
theorem told_elapse (s : Subscription) :
    (s.elapse H depot deadline fuel now).told =
      s.told ++ (tellings H depot deadline fuel now s).map Prod.snd := by
  induction fuel generalizing now s with
  | zero => simp [elapse, tellings]
  | succ fuel ih =>
      have hprepare : (s.prepare depot now).told = s.told := rfl
      simp only [elapse, tellings]
      cases hdue : (s.prepare depot now).due? with
      | none => simp [hprepare]
      | some t =>
          by_cases hlate : deadline < t
          · simp [hlate, hprepare]
          · obtain ⟨names, hnames⟩ := prefix_happen H depot t (s.prepare depot now)
            simp only [if_neg hlate, ih, ← hnames, hprepare, List.drop_left, List.map_append,
              List.map_map, Function.comp_def, List.map_id', List.append_assoc]

end Subscription

end Reconcile

import Mathlib.Data.List.TakeWhile
import Reconcile.Proofs.History
import Reconcile.Proofs.Live.Deliveries
import Reconcile.Publish.Shape

/-! # Nothing is handed out before the first name

A reconciler may be told with which name to begin. It finds names and notes them as any other does,
but hands out only what it finds from that name on. No round resets the first name, so the law is one
of a whole life: what was handed out is a function of all names that were found, in whatever passes
and rounds. -/

namespace Reconcile

/-- What is handed out of a row of full names: the names without their last components, from the first
name on if there is one. -/
def handed (firstName : Option Name) (found : List Name) : List Name :=
  match firstName with
  | none => found.map Name.parent
  | some s => (found.dropWhile (·.parent ≠ s)).map Name.parent

/-- The first name, as long as it is still to come. -/
def awaited (firstName : Option Name) (found : List Name) : Option Name :=
  match firstName with
  | none => none
  | some s => if ∃ a ∈ found, a.parent = s then none else some s

section Handed

variable {firstName : Option Name} {found : List Name} {s : Name}

theorem awaited_eq_some_iff :
    awaited firstName found = some s ↔ firstName = some s ∧ ∀ a ∈ found, a.parent ≠ s := by
  cases firstName with
  | none => simp [awaited]
  | some t =>
      by_cases hseen : ∃ a ∈ found, a.parent = t
      · simp only [awaited, if_pos hseen]
        grind
      · simp only [awaited, if_neg hseen]
        grind

/-- Nothing is handed out before the first name. -/
theorem handed_of_awaited (h : awaited firstName found = some s) : handed firstName found = [] := by
  obtain ⟨rfl, hunseen⟩ := awaited_eq_some_iff.mp h
  simpa [handed] using hunseen

/-- Once nothing is awaited, every name is handed out. -/
theorem handed_append_of_seen (h : awaited firstName found = none) (rest : List Name) :
    handed firstName (found ++ rest) = handed firstName found ++ rest.map Name.parent ∧
      awaited firstName (found ++ rest) = none := by
  cases firstName with
  | none => exact ⟨List.map_append, rfl⟩
  | some s =>
      obtain ⟨a, ha, hparent⟩ : ∃ a ∈ found, a.parent = s := by
        by_contra hunseen
        simp [awaited, hunseen] at h
      have hleft : ¬ (found.dropWhile (·.parent ≠ s)).isEmpty := by
        rw [List.isEmpty_iff, List.dropWhile_eq_nil_iff]
        exact fun hall => by simpa [hparent] using hall a ha
      constructor
      · simp only [handed, List.dropWhile_append, if_neg hleft, List.map_append]
      · simp only [awaited, if_pos (⟨a, List.mem_append_left rest ha, hparent⟩ :
          ∃ a ∈ found ++ rest, a.parent = s)]

/-- The first name is handed out when it comes, and is no longer awaited then. -/
theorem handed_concat_self {a : Name} (h : awaited firstName found = some a.parent) :
    handed firstName (found ++ [a]) = [a.parent] ∧ awaited firstName (found ++ [a]) = none := by
  obtain ⟨rfl, hunseen⟩ := awaited_eq_some_iff.mp h
  have hdrop : (found.dropWhile (·.parent ≠ a.parent)).isEmpty := by simpa using hunseen
  constructor
  · rw [handed, List.dropWhile_append, if_pos hdrop]
    simp
  · simp [awaited]

/-- One more name is handed out unless another has to come before it. -/
theorem handed_concat (firstName : Option Name) (found : List Name) (a : Name) :
    if (awaited firstName found).all (· = a.parent) then
      handed firstName (found ++ [a]) = handed firstName found ++ [a.parent] ∧
        awaited firstName (found ++ [a]) = none
    else
      handed firstName (found ++ [a]) = handed firstName found ∧
        awaited firstName (found ++ [a]) = awaited firstName found := by
  cases hawaited : awaited firstName found with
  | none => exact handed_append_of_seen hawaited [a]
  | some s =>
      rw [handed_of_awaited hawaited]
      by_cases ha : s = a.parent
      · subst ha
        rw [Option.all_some, if_pos (by simp)]
        exact handed_concat_self hawaited
      · rw [Option.all_some, if_neg (by simpa using ha)]
        obtain ⟨rfl, hunseen⟩ := awaited_eq_some_iff.mp hawaited
        have hunseen' : ∀ b ∈ found ++ [a], b.parent ≠ s := by
          intro b hb
          rcases List.mem_append.mp hb with hb | hb
          · exact hunseen b hb
          · exact List.mem_singleton.mp hb ▸ Ne.symm ha
        have hawaited' := awaited_eq_some_iff.mpr ⟨rfl, hunseen'⟩
        exact ⟨handed_of_awaited hawaited', hawaited'⟩

end Handed

/-! ## The account of a life -/

/-- What a reconciler found and handed out in its whole life. -/
structure Account where
  found : List Name
  delivered : List Name
  firstName : Option Name
  count : Nat

namespace Account

/-- One more name is found. -/
def note (v : Account) (a : Name) : Account :=
  if v.firstName.all (· = a.parent) then
    ⟨v.found ++ [a], v.delivered ++ [a.parent], none, v.count + 1⟩
  else ⟨v.found ++ [a], v.delivered, v.firstName, v.count + 1⟩

/-- The account is right for a reconciler that was to begin with the first name. -/
structure Fair (firstName : Option Name) (v : Account) : Prop where
  delivered : v.delivered = handed firstName v.found
  firstName : v.firstName = awaited firstName v.found
  count : v.count = v.found.length

theorem Fair.note {firstName : Option Name} {v : Account} (h : v.Fair firstName) (a : Name) :
    (v.note a).Fair firstName := by
  have hconcat := handed_concat firstName v.found a
  rw [← h.firstName, ← h.delivered] at hconcat
  unfold Account.note
  split
  · rename_i hcomes
    rw [if_pos hcomes] at hconcat
    exact ⟨hconcat.1.symm, hconcat.2.symm, by simp [h.count]⟩
  · rename_i hwaits
    rw [if_neg hwaits] at hconcat
    exact ⟨hconcat.1.symm, hconcat.2.symm, by simp [h.count]⟩

end Account

namespace Reconciler

variable {H : Hashing} {agent : Agent} {r r' : Reconciler}

def account (r : Reconciler) : Account :=
  ⟨r.journal.recorded, r.journal.delivered, r.firstName, r.tally.recorded⟩

/-- Between two states, either no name was found, and those of the round were kept or dropped, or the
round found one. -/
inductive Accounts (r r' : Reconciler) : Prop
  | keeps (account : r'.account = r.account) (recorded : r'.recorded = r.recorded ∨ r'.recorded = [])
  | finds (a : Name) (account : r'.account = r.account.note a)
      (recorded : r'.recorded = r.recorded ++ [a])

theorem accounts_record (r : Reconciler) (a : Name) : Accounts r (r.record a) := by
  unfold record
  split
  · exact .keeps rfl (.inl rfl)
  · refine .finds a ?_ ?_
    · unfold deliver Account.note account
      split <;> rfl
    · unfold deliver
      split <;> rfl

theorem accounts_of_eq (account : r'.account = r.account) (recorded : r'.recorded = r.recorded) :
    Accounts r r' := .keeps account (.inl recorded)

theorem accounts_effect (r : Reconciler) (w : Traversal) (m : Traversal.Move) :
    Accounts r (effect r w m) := by
  unfold effect
  split
  · split
    · exact accounts_record r _
    · exact accounts_of_eq rfl rfl
  · exact accounts_of_eq rfl rfl
  · exact accounts_of_eq rfl rfl

theorem Consults.accounts {P : Digest → Prop} (h : Consults H agent P r r') : Accounts r r' := by
  obtain ⟨_, _, _, _, rfl⟩ := h.eq
  exact accounts_of_eq rfl rfl

theorem Onward.accounts (h : Onward H agent r r') : Accounts r r' := by
  cases h with
  | @resumed r₁ d n next mem consults found =>
      obtain ⟨_, _, _, _, rfl⟩ := consults.eq
      exact accounts_of_eq rfl rfl
  | putAside next above unresolved found consults =>
      obtain ⟨_, _, _, _, rfl⟩ := consults.eq
      exact accounts_of_eq rfl rfl
  | @acted c m f fs n j plan planned meets =>
      have hacted := accounts_effect { r with cache := c, traversal := r.traversal.perform m }
        r.traversal m
      cases hacted with
      | keeps account recorded => exact .keeps account recorded
      | finds a account recorded => exact .finds a account recorded
  | _ => exact accounts_of_eq rfl rfl

theorem accounts_choose (r : Reconciler) : Accounts r (r.choose H) := by
  obtain ⟨cache, awaits, baseline, queue, -, -, hchoose | ⟨best, hchoose⟩⟩ := choose_eq (H := H) r
  · rw [hchoose]
    exact .keeps rfl (.inl rfl)
  · rw [hchoose]
    exact .keeps rfl (.inr rfl)

theorem accounts_step (agent : Agent) (r : Reconciler) : Accounts r (r.step H agent).1 := by
  have hpaced := paced_step (H := H) agent r
  generalize (r.step H agent).1 = r', (r.step H agent).2 = outcome at hpaced ⊢
  cases hpaced with
  | chose phase => exact accounts_choose r
  | loaded phase loaded =>
      obtain ⟨P, hconsults⟩ := loaded.consults
      obtain ⟨_, _, _, _, rfl⟩ := hconsults.eq
      exact accounts_of_eq rfl rfl
  | waits phase consults => exact consults.accounts
  | went phase goes => exact goes.accounts
  | closed phase next aside =>
      unfold closeRound
      split
      · exact accounts_of_eq rfl rfl
      · exact .keeps rfl (.inr rfl)
  | halted halts idle =>
      obtain ⟨P, hconsults⟩ := halts.consults
      exact hconsults.accounts
  | gaveUp halts work =>
      obtain ⟨P, hconsults⟩ := halts.consults
      obtain ⟨_, _, _, _, rfl⟩ := hconsults.eq
      exact .keeps rfl (.inr rfl)
  | faulted phase plan meets => exact .keeps rfl (.inr rfl)
  | woke phase work => exact accounts_of_eq rfl rfl
  | rested phase idle => exact accounts_of_eq rfl rfl

theorem accounts_on (r : Reconciler) (e : Event) : Accounts r (r.on H e) := by
  cases e with
  | announce d =>
      simp only [on, announce]
      split <;> exact accounts_of_eq rfl rfl
  | step agent => exact accounts_step agent r
  | _ => exact accounts_of_eq rfl rfl

/-- What holds of an account in the whole life of a reconciler. -/
structure Accountable (firstName : Option Name) (r : Reconciler) : Prop where
  fair : r.account.Fair firstName
  recorded : r.recorded <:+ r.journal.recorded

theorem Accountable.accounts {firstName : Option Name} (h : r.Accountable firstName)
    (hr : Accounts r r') : r'.Accountable firstName := by
  have hfound : r'.journal.recorded = r'.account.found := rfl
  cases hr with
  | keeps account recorded =>
      refine ⟨account ▸ h.fair, ?_⟩
      rw [hfound, account]
      rcases recorded with recorded | recorded
      · exact recorded ▸ h.recorded
      · exact recorded ▸ List.nil_suffix
  | finds a account recorded =>
      refine ⟨account ▸ h.fair.note a, ?_⟩
      have hnote : (r.account.note a).found = r.journal.recorded ++ [a] := by
        unfold Account.note
        split <;> rfl
      rw [hfound, account, hnote, recorded]
      exact (List.suffix_append_inj_of_length_eq rfl).mpr ⟨h.recorded, rfl⟩

theorem accountable_create (cache : Cache) (start : Origin) (firstName : Option Name) :
    (create cache start firstName).Accountable firstName := by
  cases firstName with
  | none => exact ⟨⟨rfl, rfl, rfl⟩, List.nil_suffix⟩
  | some s => exact ⟨⟨rfl, by simp [account, create, awaited], rfl⟩, List.nil_suffix⟩

theorem Accountable.after {firstName : Option Name} (h : r.Accountable firstName)
    (es : List Event) : (after H r es).Accountable firstName :=
  after_induction h (fun r e _ hr => hr.accounts (accounts_on r e))

theorem Accountable.pass {firstName : Option Name} (h : r.Accountable firstName) (agent : Agent) :
    (r.pass H agent).1.Accountable firstName := by
  obtain ⟨n, hn⟩ := pass_eq_after (H := H) agent r
  exact hn ▸ h.after _

/-! ## What the listener receives -/

/-- Something in the life of a reconciler: a root is announced or handed in, others do anything to the
nodes that they share with it, or it makes a pass. -/
inductive Act
  | announce (d : Digest)
  | handIn (bytes : Bytes)
  | share (change : Cache → Cache)
  | pass (agent : Agent)

/-- The reconciler after an act, and what the listener receives. -/
def does (H : Hashing) (r : Reconciler) : Act → Reconciler × List Name
  | .announce d => ((r.announce d).1, [])
  | .handIn bytes => (r.handIn bytes, [])
  | .share change => ({ r with cache := change r.cache }, [])
  | .pass agent =>
    let r' := (r.pass H agent).1
    (r', r'.journal.delivered.drop r.journal.delivered.length)

/-- The reconciler after a row of acts, and all that the listener received. -/
def life (H : Hashing) : Reconciler → List Act → Reconciler × List Name
  | r, [] => (r, [])
  | r, act :: acts =>
    let (r, names) := r.does H act
    let (r, more) := life H r acts
    (r, names ++ more)

theorem accountable_does {firstName : Option Name} (h : r.Accountable firstName) (act : Act) :
    (r.does H act).1.Accountable firstName ∧
      (r.does H act).1.journal.delivered = r.journal.delivered ++ (r.does H act).2 := by
  cases act with
  | announce d =>
      have hdelivered : (r.announce d).1.journal.delivered = r.journal.delivered := by
        unfold announce
        split <;> rfl
      exact ⟨h.accounts (accounts_on (H := H) r (.announce d)), by simp [does, hdelivered]⟩
  | handIn bytes =>
      exact ⟨h.accounts (accounts_on (H := H) r (.handIn bytes)), (List.append_nil _).symm⟩
  | share change =>
      exact ⟨h.accounts (accounts_of_eq rfl rfl), (List.append_nil _).symm⟩
  | pass agent =>
      refine ⟨h.pass agent, ?_⟩
      obtain ⟨names, hnames⟩ := handsOut_pass (H := H) agent r
      simp [does, ← hnames]

theorem accountable_life {firstName : Option Name} (h : r.Accountable firstName) (acts : List Act) :
    (life H r acts).1.Accountable firstName ∧
      (life H r acts).1.journal.delivered = r.journal.delivered ++ (life H r acts).2 := by
  induction acts generalizing r with
  | nil => exact ⟨h, (List.append_nil _).symm⟩
  | cons act acts ih =>
      obtain ⟨hdoes, hnames⟩ := accountable_does (H := H) h act
      obtain ⟨hlife, hmore⟩ := ih hdoes
      refine ⟨hlife, ?_⟩
      simp only [life]
      rw [hmore, hnames, List.append_assoc]

/-- Whatever befalls a reconciler, and whatever trees it meets, the listener receives a function of all
names that were found: from the first name on, each without its last component. All of them are
counted, those before the first name too, and the names of the round in progress are the last. -/
theorem received_from_first_name (H : Hashing) (cache : Cache) (start : Origin)
    (firstName : Option Name) (acts : List Act) :
    let r := (life H (create cache start firstName) acts).1
    (life H (create cache start firstName) acts).2 = handed firstName r.journal.recorded ∧
      r.tally.recorded = r.journal.recorded.length ∧ r.recorded <:+ r.journal.recorded := by
  obtain ⟨⟨hfair, hrecorded⟩, hdelivered⟩ :=
    accountable_life (H := H) (accountable_create cache start firstName) acts
  exact ⟨hdelivered.symm.trans hfair.delivered, hfair.count, hrecorded⟩

end Reconciler

namespace Sample

/-- The node above a row of others. -/
def joining (ns : List Node) : Node := Publication.above (ns.map (fun n => .ofNode (root n) n))

/-- The names `1` to `5`, two items to a node. -/
def pairwise : Node := joining [joining [flat [1, 2], flat [3, 4]], joining [flat [5]]]

/-- The tree is announced, its nodes come in, and a pass is made. -/
def telling : List Reconciler.Act :=
  [.announce (root pairwise), .share (fun c =>
    [pairwise, joining [flat [1, 2], flat [3, 4]], joining [flat [5]], flat [1, 2], flat [3, 4],
      flat [5]].foldl (fun c n => (c.complete (root n) (.ok n.encode)).1) c), .pass .accepting]

end Sample

namespace Reconciler

open Sample in
/-- If the first name is that of `3`, then `3`, `4` and `5` are handed out, and all five are counted. -/
theorem received_from_first_name_third :
    let r := create (.ofAttempts 3) .empty (some (name 3).parent)
    (life Digest.mk r telling).2 = [(name 3).parent, (name 4).parent, (name 5).parent] ∧
      (life Digest.mk r telling).1.tally.recorded = 5 := by
  intro r
  have hpass := pass_of_last (H := Digest.mk) .accepting (life Digest.mk r (telling.take 2)).1 .idle 25
    (by decide +kernel) (by decide +kernel)
  have hlife : (life Digest.mk r telling).1 =
      ((life Digest.mk r (telling.take 2)).1.pass Digest.mk .accepting).1 := rfl
  rw [hpass] at hlife
  obtain ⟨hreceived, hcount, -⟩ :=
    received_from_first_name Digest.mk (.ofAttempts 3) .empty (some (name 3).parent) telling
  rw [hreceived, hcount, hlife]
  exact ⟨by decide +kernel, by decide +kernel⟩

end Reconciler

end Reconcile

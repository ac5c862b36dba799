import Reconcile.Proofs.History.Course

/-! # A single round finds the difference of two trees

A reconciler that gets one root and a baseline to compare it with finds the names of the root that the
baseline does not hold, each once, in whatever order steps are taken and fetches end. -/

namespace Reconcile.Reconciler

variable {H : Hashing}

/-- What a course has found so far. -/
theorem Course.At.finds {k : Course} {left : List Event} {known : Digest → Bool} {l : Ledger}
    (h : k.At H left known l) :
    ∃ new, l.log = k.log ++ new ∧ k.Finds H new ∧
      (l.completed = k.completed ∨
        l.completed = k.completed + 1 ∧ l.baseline = some k.root) := by
  have hstill : k.Still l → ∃ new, l.log = k.log ++ new ∧ k.Finds H new ∧
      (l.completed = k.completed ∨
        l.completed = k.completed + 1 ∧ l.baseline = some k.root) := by
    intro still
    exact ⟨[], still.log.trans (List.append_nil k.log).symm, finds_nil, .inl still.completed⟩
  cases h with
  | awaiting body rest still brings byDigest awaits bodies toCome => exact hstill still
  | missed still awaits toCome => exact hstill still
  | before still awaits baseline toCome byDigest => exact hstill still
  | during spent round baseline log completed finds =>
      exact ⟨l.recorded, log, finds, .inl completed⟩
  | closed spent round baseline recorded new log finds completed =>
      exact ⟨new, log, finds, .inr ⟨completed, baseline⟩⟩
  | passed spent still baseline byDigest => exact hstill still

/-- An event that announces a root. -/
inductive Announces (H : Hashing) (y : Digest) : Event → Prop
  | digest : Announces H y (.announce y)
  | body {bytes : Bytes} (h : H bytes = y) : Announces H y (.handIn bytes)

/-- How a root `y` may be compared with a tree that lists the names `lx`: where the reconciler starts
from, and what is announced to it in which order. A baseline that is awaited comes with the first body
that is handed in, but `y` may be announced before. -/
inductive Setting (H : Hashing) (y : Digest) : Origin → List Name → List Event → Prop
  | empty {e : Event} (he : Announces H y e) : Setting H y .empty [] [e]
  | root {x : Digest} {lx : List Name} {e : Event} (hx : HonestTree H x lx) (he : Announces H y e) :
      Setting H y (.root x) lx [e]
  | current {body : Bytes} {lx : List Name} {e : Event} (hx : HonestTree H (H body) lx)
      (he : Announces H y e) : Setting H y .current lx [.handIn body, e]
  | late {body : Bytes} {lx : List Name} (hx : HonestTree H (H body) lx) :
      Setting H y .current lx [.announce y, .handIn body]

theorem Announces.honest {y : Digest} (hy : Honest H y) {e : Event} (he : Announces H y e) :
    e.Honest H := by
  cases he with
  | digest => exact hy
  | body h => exact fun _ _ => h ▸ hy

theorem Announces.toCome {y : Digest} {e : Event} (he : Announces H y e) :
    e.bodies.map H ++ e.roots = [y] := by
  cases he with
  | digest => rfl
  | body h => simp [Event.bodies, Event.roots, h]

/-- Everything that is announced in a setting is honest. -/
theorem Setting.honest {y : Digest} (hy : Honest H y) {start : Origin} {lx : List Name}
    {plan : List Event} (h : Setting H y start lx plan) : ∀ e ∈ plan, e.Honest H := by
  have hbody : ∀ {body : Bytes} {lx : List Name}, HonestTree H (H body) lx →
      Event.Honest H (.handIn body) := fun hx _ _ => ⟨_, hx⟩
  cases h with
  | empty he => simpa using he.honest hy
  | root hx he => simpa using he.honest hy
  | current hx he => simpa using ⟨hbody hx, he.honest hy⟩
  | late hx => exact List.forall_mem_cons.mpr ⟨hy, by simpa using hbody hx⟩

/-- In a setting a reconciler starts at the beginning of a course. -/
theorem Setting.stands (inj : Function.Injective H) {c : Cache} (hgenuine : c.Genuine H)
    (hknown : ∀ d, c.known d = false) {y : Digest} {start : Origin} {lx : List Name}
    {plan : List Event} (h : Setting H y start lx plan) (firstName : Option Name) :
    ∃ baseline, heldNames H baseline = lx ∧
      Course.Stands H (· ∈ lx) ⟨y, false, baseline, [], 0⟩ plan (create c start firstName) := by
  cases h with
  | empty he =>
      refine ⟨none, rfl, .inl ⟨orderly_create hgenuine hknown _ firstName ?_, ?_⟩⟩
      · intro d hd
        cases hd
      · refine .before ⟨rfl, rfl, rfl, rfl⟩ rfl rfl ?_ ?_
        · simpa [bodiesToCome, rootsToCome, ledger, create] using he.toCome
        · intro hdigest
          cases hdigest
  | root hx he =>
      rename_i x e
      have hnames : namesBelow H x = lx := hx.namesBelow_eq inj
      refine ⟨some x, hnames, .inl ⟨orderly_create hgenuine hknown _ firstName ?_, ?_⟩⟩
      · intro d hd
        obtain rfl : x = d := Option.some.inj hd
        exact ⟨⟨lx, hx⟩, fun a ha => hnames ▸ ha⟩
      · refine .before ⟨rfl, rfl, rfl, rfl⟩ rfl rfl ?_ ?_
        · simpa [bodiesToCome, rootsToCome, ledger, create] using he.toCome
        · intro hdigest
          cases hdigest
  | current hx he =>
      rename_i body e
      refine ⟨some (H body), hx.namesBelow_eq inj,
        .inl ⟨orderly_create hgenuine hknown _ firstName ?_, ?_⟩⟩
      · intro d hd
        cases hd
      refine .awaiting body e.bodies ⟨rfl, rfl, rfl, rfl⟩ rfl rfl rfl ?_ ?_
      · simp [bodiesToCome, ledger, create, Event.bodies]
      · simpa [rootsToCome, ledger, create, Event.roots] using he.toCome
  | late hx =>
      rename_i body
      refine ⟨some (H body), hx.namesBelow_eq inj,
        .inl ⟨orderly_create hgenuine hknown _ firstName ?_, ?_⟩⟩
      · intro d hd
        cases hd
      refine .awaiting body [] ⟨rfl, rfl, rfl, rfl⟩ rfl rfl rfl ?_ ?_
      · simp [bodiesToCome, ledger, create, Event.bodies]
      · simp [rootsToCome, ledger, create, Event.roots]

/-- At every point of a history in which one root is announced, the names found are distinct names of
the root that the baseline does not hold. Once the round is through they are all of these. -/
theorem single_round_exact (inj : Function.Injective H) {c : Cache} (hgenuine : c.Genuine H)
    (hknown : ∀ d, c.known d = false) {y : Digest} {ly : List Name} (hy : HonestTree H y ly)
    {start : Origin} {lx : List Name} {plan : List Event} (hsetting : Setting H y start lx plan)
    (firstName : Option Name) {es : List Event} (hes : announcements es <+: plan) :
    (after H (create c start firstName) es).journal.recorded.Nodup ∧
      (∀ a ∈ (after H (create c start firstName) es).journal.recorded, a ∈ ly ∧ a ∉ lx) ∧
      (0 < (after H (create c start firstName) es).tally.completed →
        ∀ a, a ∈ ly → a ∉ lx →
          a ∈ (after H (create c start firstName) es).journal.recorded) := by
  obtain ⟨baseline, hheld, hstands⟩ := hsetting.stands inj hgenuine hknown firstName
  have hnames : namesBelow H y = ly := hy.namesBelow_eq inj
  have hhonest : Honest H y := ⟨ly, hy⟩
  obtain ⟨left, -, hafter⟩ := hstands.after inj (fun _ a ha => hheld ▸ ha)
    (hsetting.honest hhonest) hes
  rcases hafter with ⟨horderly, hat⟩ | ⟨-, hmistaken⟩
  · obtain ⟨new, hlog, hfinds, hcompleted⟩ := hat.finds
    have hlog : (after H (create c start firstName) es).journal.recorded = new := hlog
    rw [hlog]
    refine ⟨hfinds.nodup, ?_, ?_⟩
    · intro a ha
      exact ⟨hnames ▸ hfinds.mem a ha, hheld ▸ hfinds.fresh a ha⟩
    · intro hthrough a hy hx
      rcases hcompleted with hnone | ⟨-, hbaseline⟩
      · exact absurd hnone (Nat.ne_of_gt hthrough)
      · rcases (horderly.baseline y hbaseline).2 a (hnames ▸ hy) with ha | ha
        · exact absurd ha hx
        · exact hlog ▸ ha
  · have hlog : (after H (create c start firstName) es).journal.recorded = [] := hmistaken.still.log
    have hcompleted : (after H (create c start firstName) es).tally.completed = 0 :=
      hmistaken.still.completed
    rw [hlog, hcompleted]
    refine ⟨.nil, ?_, ?_⟩
    · intro a ha
      cases ha
    · intro hthrough
      cases hthrough

open Sample in
/-- The round that compares the tree `{1, 2, 3}` with the baseline `{1, 3}` is through, and finds the
name `2` in the innermost branch. -/
theorem single_round_exact_wider :
    0 < (after Digest.mk (comparing (flat [1, 3])) widening).tally.completed ∧
      ∀ a, a ∈ [name 1, name 2, name 3] → a ∉ ascending ([1, 3].map name) →
        a ∈ (after Digest.mk (comparing (flat [1, 3])) widening).journal.recorded := by
  have hthrough : 0 < (after Digest.mk (comparing (flat [1, 3])) widening).tally.completed := by
    decide +kernel
  have hplan : announcements widening <+: [.announce (root wider)] := by
    simp [widening, announcements, stepping, fetched, List.filter_cons, Event.announces]
  unfold comparing at hthrough ⊢
  exact ⟨hthrough, (single_round_exact injective_mk (Cache.genuine_ofAttempts 3)
    (Cache.known_ofAttempts 3) honestTree_wider (.root (honestTree_flat [1, 3]) .digest) none
    hplan).2.2 hthrough⟩

end Reconcile.Reconciler

import Reconcile.Proofs.History.Heeding

/-! # Growing roots are compared exactly

Where each root holds all names of the one before, and is announced when the reconciler has come to
rest, the names found so far are always those of the last root that the first baseline did not hold,
each found once. Later roots may share any subtrees with earlier ones, and may be known already. -/

namespace Reconcile

namespace Reconciler

variable {H : Hashing} {S : Name → Prop} {r : Reconciler}

/-! ## Reconcilers at rest -/

/-- There is nothing to do. -/
def Rests (r : Reconciler) : Prop := r.phase = .done ∧ r.hasWork = false

/-! ## Histories of growing roots -/

/-- Where a history of growing roots may start from: a baseline that lists the names `l`, and what is
announced to bring it. -/
inductive Opening (H : Hashing) : Origin → List Name → List Event → Prop
  | empty : Opening H .empty [] []
  | root {x : Digest} {l : List Name} (hx : HonestTree H x l) : Opening H (.root x) l []
  | current {body : Bytes} {l : List Name} (hx : HonestTree H (H body) l) :
      Opening H .current l [.handIn body]

/-- The reconciler `r` was created, got its first baseline with the names `l₀`, and took up roots that
hold more and more names, the last of them the names `l`. Each was announced when the reconciler was
at rest, and it came to rest again whatever else befell it. Nothing may hinder a body with new names from
being taken in. -/
inductive Growth (H : Hashing) (l₀ : List Name) : Reconciler → List Name → Prop
  | start {c : Cache} (genuine : c.Genuine H) (unknown : ∀ d, c.known d = false) {start : Origin}
      {plan : List Event} (opening : Opening H start l₀ plan) (firstName : Option Name)
      {es : List Event} (announced : announcements es = plan)
      (adopted : (after H (create c start firstName) es).awaitsBaseline = false) :
      Growth H l₀ (after H (create c start firstName) es) l₀
  | byDigest {r : Reconciler} {l : List Name} (before : Growth H l₀ r l) {y : Digest}
      {ly : List Name} (tree : HonestTree H y ly) (grows : ∀ a ∈ l, a ∈ ly) {es : List Event}
      (alone : announcements es = []) (rests : (after H r (.announce y :: es)).Rests) :
      Growth H l₀ (after H r (.announce y :: es)) ly
  | byBody {r : Reconciler} {l : List Name} (before : Growth H l₀ r l) {body : Bytes}
      {ly : List Name} (tree : HonestTree H (H body) ly) (grows : ∀ a ∈ l, a ∈ ly)
      {es : List Event} (alone : announcements es = [])
      (rests : (after H r (.handIn body :: es)).Rests)
      (unhindered : (∃ a ∈ ly, a ∉ l) → Unhindered H (r.handIn body) body es) :
      Growth H l₀ (after H r (.handIn body :: es)) ly

/-- What holds whenever a root was taken up. -/
structure Grown (H : Hashing) (l₀ : List Name) (r : Reconciler) (l : List Name) : Prop where
  orderly : r.Orderly H (· ∈ l₀)
  awaits : r.awaitsBaseline = false
  round : r.round = none
  bodies : r.queue.bodies = []
  roots : r.queue.roots = []
  nodup : r.journal.recorded.Nodup
  found : ∀ a, a ∈ r.journal.recorded ↔ a ∈ l ∧ a ∉ l₀
  grown : ∀ a ∈ l₀, a ∈ l
  held : ∀ a ∈ l, a ∈ heldNames H r.baseline

theorem Announces.announces {y : Digest} {e : Event} (he : Announces H y e) :
    e.announces = true := by
  cases he <;> rfl

/-- The course of a root that is about to be announced. -/
def upcoming (r : Reconciler) (y : Digest) (e : Event) : Course :=
  ⟨y, e.bodies.isEmpty, r.baseline, r.journal.recorded, r.tally.completed⟩

theorem Grown.before {l₀ l : List Name} (h : Grown H l₀ r l) {y : Digest} {e : Event}
    (he : Announces H y e) : (upcoming r y e).At H [e] r.cache.known r.ledger := by
  refine .before ⟨h.round, h.orderly.resting h.round, rfl, rfl⟩ h.awaits rfl ?_ ?_
  · simpa [bodiesToCome, rootsToCome, ledger, h.bodies, h.roots, upcoming] using he.toCome
  · intro hdigest
    simpa [bodiesToCome, ledger, h.bodies, upcoming] using hdigest

/-- The names of a root that was compared with the baseline are those found and those known from the
start. -/
theorem Grown.of_closed {l₀ l ly : List Name} (h : Grown H l₀ r l) (hgrows : ∀ a ∈ l, a ∈ ly)
    {k : Course} (hlog : k.log = r.journal.recorded) (hbaseline : k.baseline = r.baseline)
    (hroot : namesBelow H k.root = ly) {r' : Reconciler} (hr' : r'.Orderly H (· ∈ l₀))
    (spent : Course.Spent [] r'.ledger) (round : r'.round = none)
    (baseline : r'.baseline = some k.root) {new : List Name}
    (log : r'.journal.recorded = k.log ++ new) (finds : k.Finds H new) : Grown H l₀ r' ly := by
  have hfresh : ∀ a ∈ new, a ∉ l := by
    intro a ha hl
    exact finds.fresh a ha (hbaseline ▸ h.held a hl)
  rw [hlog] at log
  refine ⟨hr', spent.awaits, round, ?_, ?_, ?_, ?_, fun a ha => hgrows a (h.grown a ha), ?_⟩
  · exact (List.append_eq_nil_iff.mp spent.bodies).1
  · exact (List.append_eq_nil_iff.mp spent.roots).1
  · rw [log]
    refine List.nodup_append.mpr ⟨h.nodup, finds.nodup, ?_⟩
    intro a ha b hb hab
    exact hfresh b hb (hab ▸ ((h.found a).mp ha).1)
  · intro a
    constructor
    · intro ha
      rw [log] at ha
      rcases List.mem_append.mp ha with ha | ha
      · exact ⟨hgrows a ((h.found a).mp ha).1, ((h.found a).mp ha).2⟩
      · exact ⟨hroot ▸ finds.mem a ha, fun ha₀ => hfresh a ha (h.grown a ha₀)⟩
    · rintro ⟨ha, ha₀⟩
      rcases (hr'.baseline k.root baseline).2 a (hroot ▸ ha) with ha | ha
      · exact absurd ha ha₀
      · exact ha
  · intro a ha
    rw [baseline, heldNames_some, hroot]
    exact ha

/-- A root that was passed over has no new names. -/
theorem Grown.of_passed {l₀ l ly : List Name} (h : Grown H l₀ r l) (hgrows : ∀ a ∈ l, a ∈ ly)
    {y : Digest} (hroot : namesBelow H y = ly) {r' : Reconciler} (hr' : r'.Orderly H (· ∈ l₀))
    (spent : Course.Spent [] r'.ledger) (round : r'.round = none)
    (baseline : r'.baseline = r.baseline) (log : r'.journal.recorded = r.journal.recorded)
    (hprocessed : (∃ a ∈ ly, a ∉ l) → r'.baseline = some y ∨ r'.cache.known y = true) :
    Grown H l₀ r' ly := by
  have hsame : ∀ a ∈ ly, a ∈ l := by
    intro a ha
    by_contra hnew
    have hsettles : r'.Settles H (· ∈ l₀) y :=
      (hprocessed ⟨a, ha, hnew⟩).elim (hr'.baseline y) (hr'.known y)
    rcases hsettles.2 a (hroot ▸ ha) with ha | ha
    · exact hnew (h.grown a ha)
    · exact hnew ((h.found a).mp (log ▸ ha)).1
  refine ⟨hr', spent.awaits, round, ?_, ?_, log ▸ h.nodup, ?_,
    fun a ha => hgrows a (h.grown a ha), fun a ha => baseline ▸ h.held a (hsame a ha)⟩
  · exact (List.append_eq_nil_iff.mp spent.bodies).1
  · exact (List.append_eq_nil_iff.mp spent.roots).1
  · intro a
    rw [log, h.found a]
    exact and_congr_left (fun _ => ⟨hgrows a, hsame a⟩)

/-- A root is taken up that holds all names so far. -/
theorem Grown.round_exact (inj : Function.Injective H) {l₀ l ly : List Name} (h : Grown H l₀ r l)
    {y : Digest} (hy : HonestTree H y ly) (hgrows : ∀ a ∈ l, a ∈ ly) {e : Event}
    (he : Announces H y e) {es : List Event} (hes : announcements es = [])
    (hrests : (after H r (e :: es)).Rests)
    (hes' : (∃ a ∈ ly, a ∉ l) → ∀ body ∈ e.bodies, Unhindered H (r.on H e) body es) :
    Grown H l₀ (after H r (e :: es)) ly := by
  have hroot : namesBelow H y = ly := hy.namesBelow_eq inj
  have hon : (r.on H e).Orderly H (· ∈ l₀) := by
    refine h.orderly.on inj (he.honest ⟨ly, hy⟩) ?_
    intro hawaits
    cases h.awaits.symm.trans hawaits
  have hawaits := awaits_false_on inj h.orderly e h.awaits
  have hbegun := (h.before he).announce h.orderly he.announces
  obtain ⟨horderly, hawaits', hat⟩ := hbegun.after_quiet inj hon hawaits hes
  rw [after_cons] at hrests ⊢
  have hround : (after H (r.on H e) es).round = none := horderly.phase.mpr (.inr hrests.1)
  cases hat with
  | awaiting body rest still brings byDigest awaits bodies toCome =>
      cases hawaits'.symm.trans awaits
  | missed still awaits toCome => cases hawaits'.symm.trans awaits
  | before still awaits baseline toCome byDigest =>
      have hwork := hrests.2
      simp [hasWork, hawaits'] at hwork
      simp [bodiesToCome, rootsToCome, ledger, hwork] at toCome
  | during spent round baseline log completed finds => cases hround.symm.trans round
  | closed spent round baseline recorded new log finds completed =>
      exact h.of_closed hgrows rfl rfl hroot horderly spent hround baseline log finds
  | passed spent still baseline byDigest =>
      have baseline : (after H (r.on H e) es).baseline = r.baseline := baseline
      refine h.of_passed hgrows hroot horderly spent hround baseline still.log ?_
      intro hnew
      cases he with
      | digest => exact (byDigest rfl).imp_left baseline.trans
      | @body bytes hdigest =>
          have hheeded := Course.Heeded.after inj hon hbegun hawaits hdigest.symm
            (hes' hnew bytes (List.mem_singleton_self bytes)) hes
            (.waits (List.mem_append_right _ (List.mem_singleton_self bytes)))
          exact (hheeded.settled spent still).imp_left baseline.trans

/-- Where a history starts from, nothing was found: it is about to get some root, and this is only its
beginning. -/
theorem grown_start (inj : Function.Injective H) {c : Cache} (hgenuine : c.Genuine H)
    (hknown : ∀ d, c.known d = false) {start : Origin} {l₀ : List Name} {plan : List Event}
    (hopening : Opening H start l₀ plan) (firstName : Option Name) {es : List Event}
    (hes : announcements es = plan)
    (hadopted : (after H (create c start firstName) es).awaitsBaseline = false) :
    Grown H l₀ (after H (create c start firstName) es) l₀ := by
  have hy := honestTree_ofNames H []
  have hsetting : Setting H ((Node.ofNames []).digest H) start l₀
      (plan ++ [.announce ((Node.ofNames []).digest H)]) := by
    cases hopening with
    | empty => exact .empty .digest
    | root hx => exact .root hx .digest
    | current hx => exact .current hx .digest
  obtain ⟨baseline, hheld, hstands⟩ := hsetting.stands inj hgenuine hknown firstName
  obtain ⟨left, hleft, hafter⟩ := hstands.after inj (fun _ a ha => hheld ▸ ha)
    (hsetting.honest ⟨_, hy⟩) (by rw [hes]; exact List.prefix_append _ _)
  rw [hes] at hleft
  obtain rfl := List.append_cancel_left hleft
  rcases hafter with ⟨horderly, hat⟩ | ⟨-, hmistaken⟩
  · have hspent : ¬ Course.Spent [.announce ((Node.ofNames []).digest H)]
        (after H (create c start firstName) es).ledger := by
      intro hspent
      cases hspent.not_announces
    cases hat with
    | awaiting body rest still brings byDigest awaits bodies toCome =>
        cases hadopted.symm.trans awaits
    | missed still awaits toCome => cases hadopted.symm.trans awaits
    | during spent round baseline log completed finds => exact absurd spent hspent
    | closed spent round baseline recorded new log finds completed => exact absurd spent hspent
    | passed spent still baseline byDigest => exact absurd spent hspent
    | before still awaits hbaseline toCome byDigest =>
        have hlog : (after H (create c start firstName) es).journal.recorded = [] := still.log
        have hbaseline : (after H (create c start firstName) es).baseline = baseline := hbaseline
        have hwaiting := Course.waiting_cases toCome
        simp only [List.flatMap_cons, Event.roots, List.flatMap_nil, List.append_nil,
          List.cons_ne_nil, false_and, and_false, or_false] at hwaiting
        obtain ⟨hbodies, hroots⟩ := hwaiting
        refine ⟨horderly, hadopted, still.round, hbodies, hroots, hlog ▸ .nil, ?_, fun a ha => ha, ?_⟩
        · intro a
          rw [hlog]
          constructor
          · intro ha
            cases ha
          · rintro ⟨ha, hnot⟩
            exact absurd ha hnot
        · intro a ha
          rw [hbaseline, hheld]
          exact ha
  · cases hmistaken.spent.not_announces

/-- After each of a row of growing roots, the names found are those of the last root that the first
baseline did not hold, each found once. -/
theorem growing_history_exact (inj : Function.Injective H) {l₀ l : List Name}
    (h : Growth H l₀ r l) :
    r.journal.recorded.Nodup ∧ ∀ a, a ∈ r.journal.recorded ↔ a ∈ l ∧ a ∉ l₀ := by
  have hgrown : Grown H l₀ r l := by
    induction h with
    | start genuine unknown opening firstName announced adopted =>
        exact grown_start inj genuine unknown opening firstName announced adopted
    | byDigest before tree grows alone rests ih =>
        exact ih.round_exact inj tree grows .digest alone rests (fun _ _ hbody => nomatch hbody)
    | byBody before tree grows alone rests unhindered ih =>
        refine ih.round_exact inj tree grows (.body rfl) alone rests ?_
        intro hnew bytes hbytes
        obtain rfl := List.mem_singleton.mp hbytes
        exact unhindered hnew
  exact ⟨hgrown.nodup, hgrown.found⟩

end Reconciler

namespace Sample

/-- A branching root is announced by its digest. Every node is fetched when it is asked for. -/
def growing : List Event :=
  [.announce (root branching), .call] ++ stepping 2 ++ [fetched branching] ++ stepping 1 ++
    [fetched (flat [2])] ++ stepping 3 ++ [fetched (flat [1])] ++ stepping 9

/-- The body of a wider root is handed in. The branch that it refers to is there already. -/
def growingOn : List Event := [.handIn wider.encode, .call] ++ stepping 12

end Sample

namespace Reconciler

open Sample in
/-- From the baseline `{1}` the branching roots `{1, 2}` and `{1, 2, 3}` bring the names `2` and `3`. -/
theorem growing_history_exact_wider :
    (after Digest.mk (comparing (flat [1])) (growing ++ growingOn)).journal.recorded.Nodup ∧
      ∀ a, a ∈ (after Digest.mk (comparing (flat [1])) (growing ++ growingOn)).journal.recorded ↔
        a ∈ [name 1, name 2, name 3] ∧ a ∉ ascending ([1].map name) := by
  have hnothing : announcements [] = [] := rfl
  have hstart : Growth Digest.mk _ (comparing (flat [1])) _ :=
    .start (Cache.genuine_ofAttempts 3) (Cache.known_ofAttempts 3) (.root (honestTree_flat [1])) none
      hnothing rfl
  have hfirst : Growth Digest.mk _ (after Digest.mk (comparing (flat [1])) growing) _ :=
    .byDigest hstart honestTree_branching (by decide) rfl ⟨by decide +kernel, by decide +kernel⟩
  have hunhindered : Unhindered Digest.mk
      ((after Digest.mk (comparing (flat [1])) growing).handIn wider.encode) wider.encode
      ([.call] ++ stepping 12) := by
    refine unhindered_of_right ⟨wider, by decide +kernel⟩ ?_ (by simp [stepping])
    rintro ⟨wrong, hbody, -⟩
    have hempty : ((after Digest.mk (comparing (flat [1])) growing).cache.slot (root wider)).body =
        .empty := by decide +kernel
    cases hempty.symm.trans hbody
  rw [after_append]
  exact growing_history_exact injective_mk (.byBody hfirst honestTree_wider (by decide) rfl
    ⟨by decide +kernel, by decide +kernel⟩ (fun _ => hunhindered))

end Reconciler

end Reconcile

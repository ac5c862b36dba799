import Reconcile.Proofs.History.Selection
import Reconcile.Proofs.History.SingleRound
import Reconcile.Proofs.Reconciler.Dealing

/-! # A body in nothing's way is not lost

The body of a root waits until the next root is chosen. It is taken in then, if it can be read and no
wrong bytes lie unread under its digest, and its root gets a round unless there is no need for one. -/

namespace Reconcile.Reconciler

variable {H : Hashing} {S : Name → Prop} {r r' : Reconciler} {d : Digest} {body : Bytes} {e : Event}
  {es : List Event}

/-! ## Bodies that nothing hinders -/

/-- Nothing keeps a body from being taken in when the events `es` follow: it can be read, and as long as
it waits, no wrong bytes lie unread under its digest. -/
structure Unhindered (H : Hashing) (r : Reconciler) (body : Bytes) (es : List Event) : Prop where
  readable : ∃ n, Node.decode body = .ok n
  clear : ∀ front, front <+: es → body ∈ (after H r front).queue.bodies →
    ¬ ((after H r front).cache.slot (H body)).Obscured H (H body)

theorem Unhindered.tail (h : Unhindered H r body (e :: es)) : Unhindered H (r.on H e) body es where
  readable := h.readable
  clear front hfront := h.clear (e :: front) (List.cons_prefix_cons.mpr ⟨rfl, hfront⟩)

theorem Deals.not_obscured (h : Deals H r r') (hclear : ¬ (r.cache.slot d).Obscured H d) :
    ¬ (r'.cache.slot d).Obscured H d := by
  obtain ⟨deeds, hcache, -, hends⟩ := h
  rw [hcache, Cache.obscured_after_iff hclear]
  rintro ⟨before, wrong, since, rfl, -⟩
  exact hends d (.ok wrong) (by simp)

/-- Wrong bytes come with a fetch, if at all. -/
theorem not_obscured_on (hclear : ¬ (r.cache.slot d).Obscured H d)
    (he : ∀ bytes, e = .complete d (.ok bytes) → ∃ n, Node.decodeAs H d bytes = .ok n) :
    ¬ ((r.on H e).cache.slot d).Obscured H d := by
  rcases ends_or_deals (H := H) r e with ⟨d', result, rfl⟩ | ⟨-, hdeals⟩
  · intro hobscured
    have hdeed : ((r.cache.on H (.complete d' result)).slot d).Obscured H d := hobscured
    rcases Cache.obscured_on_iff.mp hdeed with ⟨hobscured, -⟩ | ⟨wrong, hwrong, -, hdecode⟩
    · exact hclear hobscured
    · obtain ⟨rfl, rfl⟩ := Deed.complete.inj hwrong
      obtain ⟨n, hn⟩ := he wrong rfl
      exact hdecode n hn
  · exact hdeals.not_obscured hclear

/-- A body that can be read is unhindered if no other bytes lie under its digest when it is handed in,
and none come. -/
theorem unhindered_of_right (hreadable : ∃ n, Node.decode body = .ok n)
    (hclear : ¬ (r.cache.slot (H body)).Obscured H (H body))
    (hes : ∀ bytes, .complete (H body) (.ok bytes) ∈ es →
      ∃ n, Node.decodeAs H (H body) bytes = .ok n) : Unhindered H r body es where
  readable := hreadable
  clear front hfront _ := by
    refine after_induction (P := fun r => ¬ (r.cache.slot (H body)).Obscured H (H body)) hclear ?_
    intro r e he hclear
    exact not_obscured_on hclear (fun bytes hbytes => hes bytes (hfront.subset (hbytes ▸ he)))

/-! ## What becomes of them -/

/-- A body that announces the root of a course is not lost. -/
inductive Course.Heeded (k : Course) (body : Bytes) (r : Reconciler) : Prop
  | waits (mem : body ∈ r.queue.bodies)
  | taken (round : r.round = some k.root ∨ k.completed < r.tally.completed)
  | needless (settled : k.baseline = some k.root ∨ r.cache.known k.root = true)

theorem Change.completed_le {known : Digest → Bool} {l l' : Ledger} (h : Change H known l l') :
    l.completed ≤ l'.completed := by
  cases h with
  | quiet phase => exact le_refl _
  | note y a round mem new => exact le_refl _
  | close y extra round kept => exact Nat.le_succ _
  | abandon y baseline extra round work kept => exact le_refl _
  | rest round adoption none_left => exact le_refl _
  | start best round adoption chosen => exact le_refl _

namespace Course

variable {k : Course} {known known' : Digest → Bool} {l l' : Ledger} {left : List Event}

/-- The only round there is compares the root of the course. -/
theorem At.of_round (h : k.At H left known l) {y : Digest} (hround : l.round = some y) :
    y = k.root ∧ Spent left l ∧ l.completed = k.completed := by
  have hstill : ¬ k.Still l := fun still => nomatch still.round.symm.trans hround
  cases h with
  | awaiting body rest still brings byDigest awaits bodies toCome => exact absurd still hstill
  | missed still awaits toCome => exact absurd still hstill
  | before still awaits baseline toCome byDigest => exact absurd still hstill
  | during spent round baseline log completed finds =>
      exact ⟨Option.some.inj (hround.symm.trans round), spent, completed⟩
  | closed spent round baseline recorded new log finds completed => cases round.symm.trans hround
  | passed spent still baseline byDigest => exact absurd still hstill

theorem At.taken_of_change (h : k.At H left known l) (hc : Change H known l l')
    (htaken : l.round = some k.root ∨ k.completed < l.completed) :
    l'.round = some k.root ∨ k.completed < l'.completed := by
  rcases htaken with hround | hmore
  · obtain ⟨-, spent, completed⟩ := h.of_round hround
    cases hc with
    | quiet phase => exact .inl hround
    | note y a round mem new => exact .inl hround
    | close y extra round kept => exact .inr (completed ▸ Nat.lt_succ_self _)
    | abandon y baseline extra round work kept => cases spent.hasWork_eq_false.symm.trans work
    | rest round adoption none_left => cases round.symm.trans hround
    | start best round adoption chosen => cases round.symm.trans hround
  · exact .inr (lt_of_lt_of_le hmore hc.completed_le)

/-- While the body of a root waits, nothing else does. -/
theorem At.alone_of_mem (h : k.At H [] known l) (hl : l.awaitsBaseline = false)
    (hbody : body ∈ l.queue.bodies) : k.Still l ∧ l.queue.roots = [] := by
  have hspent : ¬ Spent [] l := by
    intro hspent
    rw [(List.append_eq_nil_iff.mp hspent.bodies).1] at hbody
    cases hbody
  cases h with
  | awaiting body rest still brings byDigest awaits bodies toCome => cases hl.symm.trans awaits
  | missed still awaits toCome => cases hl.symm.trans awaits
  | before still awaits baseline toCome byDigest =>
      obtain ⟨front, back, hsplit⟩ := List.append_of_mem hbody
      rw [bodiesToCome, hsplit] at toCome
      exact ⟨still, (List.append_eq_nil_iff.mp (alone_of_append toCome).2.2).1⟩
  | during spent round baseline log completed finds => exact absurd spent hspent
  | closed spent round baseline recorded new log finds completed => exact absurd spent hspent
  | passed spent still baseline byDigest => exact absurd spent hspent

/-- A body that is in nothing's way is taken up when a root is chosen, unless there is no need. -/
theorem Heeded.choose (hr : r.Orderly H S) (hat : k.At H [] r.cache.known r.ledger)
    (hawaits : r.awaitsBaseline = false) (hroot : k.root = H body)
    (hreadable : ∃ n, Node.decode body = .ok n)
    (hclear : ¬ (r.cache.slot (H body)).Obscured H (H body)) (hbody : body ∈ r.queue.bodies)
    (hon : Evolves H S r (r.choose H)) : k.Heeded body (r.choose H) := by
  obtain ⟨still, hroots⟩ := hat.alone_of_mem hawaits hbody
  have hround : r.round = none := still.round
  have hroots : r.queue.roots = [] := hroots
  have hat' := hat.change_settled hawaits hon.known hon.change
  have htakes : r.cache.Takes H r.queue.bodies k.root := by
    obtain ⟨front, back, hsplit⟩ := List.append_of_mem hbody
    exact ⟨front, body, back, hsplit, hroot.symm, .inr ⟨hreadable, .inl (hroot ▸ hclear)⟩⟩
  rcases (choose_greatest hr.genuine hround).2 with ⟨hnone, hsub, hpassed⟩ | ⟨y, hy, -⟩
  · have hcompleted : (r.choose H).tally.completed = r.tally.completed := by
      obtain ⟨cache, awaits, baseline, queue, -, -, hchoose | ⟨best, hchoose⟩⟩ :=
        choose_eq (H := H) r
      · rw [hchoose]
      · rw [hchoose]
        rfl
    rcases hpassed k.root (.inr htakes) with hmem | hbaseline | hknown
    · rw [hroots] at hsub
      rw [List.sublist_nil.mp hsub] at hmem
      cases hmem
    · exact .needless (.inl (hat'.baseline_eq hon.orderly (hcompleted.trans still.completed)
        hbaseline.symm))
    · exact .needless (.inr (hon.known _ hknown))
  · obtain ⟨rfl, -⟩ := hat'.of_round hy
    exact .taken (.inl hy)

theorem Heeded.on (inj : Function.Injective H) (hr : r.Orderly H S)
    (hat : k.At H [] r.cache.known r.ledger) (hawaits : r.awaitsBaseline = false)
    (hroot : k.root = H body) (hes : Unhindered H r body (e :: es))
    (he : e.announces = false) (h : k.Heeded body r) : k.Heeded body (r.on H e) := by
  have hon := evolves_on inj hr he (fun hawaits' => nomatch hawaits.symm.trans hawaits')
  cases h with
  | taken round => exact .taken (hat.taken_of_change hon.change round)
  | needless settled => exact .needless (settled.imp_right (hon.known k.root))
  | waits hbody =>
      obtain ⟨still, -⟩ := hat.alone_of_mem hawaits hbody
      cases e with
      | announce d => cases he
      | handIn bytes => cases he
      | complete d result => exact .waits hbody
      | call => exact .waits hbody
      | step agent =>
          rcases hr.phase.mp still.round with hphase | hphase
          · have hchoose : r.on H (.step agent) = r.choose H := by simp [Reconciler.on, step, hphase]
            rw [hchoose] at hon ⊢
            exact .choose hr hat hawaits hroot hes.readable
              (hes.clear [] (List.nil_prefix) hbody) hbody hon
          · have hwork : r.hasWork = true := by
              simp [hasWork, List.ne_nil_of_mem hbody]
            have hwoke : r.on H (.step agent) = { r with phase := .choosing } := by
              simp [Reconciler.on, step, hphase, hwork]
            rw [hwoke]
            exact .waits hbody

/-- A body that nothing hinders is not lost while nothing else is announced. -/
theorem Heeded.after (inj : Function.Injective H) (hr : r.Orderly H S)
    (hat : k.At H [] r.cache.known r.ledger) (hawaits : r.awaitsBaseline = false)
    (hroot : k.root = H body) (hes : Unhindered H r body es)
    (hquiet : announcements es = []) (h : k.Heeded body r) : k.Heeded body (after H r es) := by
  induction es generalizing r with
  | nil => exact h
  | cons e es ih =>
      obtain ⟨he, hquiet⟩ := List.forall_mem_cons.mp (List.filter_eq_nil_iff.mp hquiet)
      have he : e.announces = false := by simpa using he
      have hon := evolves_on inj hr he (fun hawaits' => nomatch hawaits.symm.trans hawaits')
      exact ih hon.orderly (hat.change_settled hawaits hon.known hon.change)
        (awaits_false_on inj hr e hawaits) hes.tail (List.filter_eq_nil_iff.mpr hquiet)
        (h.on inj hr hat hawaits hroot hes he)

/-- A body that brought no round and waits no more was not needed. -/
theorem Heeded.settled (h : k.Heeded body r) (spent : Spent left r.ledger) (still : k.Still r.ledger) :
    k.baseline = some k.root ∨ r.cache.known k.root = true := by
  cases h with
  | waits mem =>
      have hnone : r.queue.bodies = [] := (List.append_eq_nil_iff.mp spent.bodies).1
      rw [hnone] at mem
      cases mem
  | taken taken =>
      rcases taken with round | more
      · cases still.round.symm.trans round
      · exact absurd still.completed (Nat.ne_of_gt more)
  | needless settled => exact settled

end Course

end Reconcile.Reconciler

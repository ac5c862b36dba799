import Mathlib.Data.Fintype.Card
import Reconcile.Proofs.Exchange.Converging
import Reconcile.Proofs.Node.Readable
import Reconcile.Proofs.Reconciler.Surveying

/-! # Any tree is judged by the row in which it is read

The nodes of a finite family may be in any disorder: names out of order or outside the ranges of their
nodes, subtrees without names, subtrees that are referred to time and again. A reconciler that starts
from nothing and gets one of them as a root finds the longest front in order of the row that the tree
reads as, and takes the root for its baseline just when that is all of the row. -/

namespace Reconcile

variable {H : Hashing} {published : Catalog Digest Bytes} {d e y : Digest}

/-! ## Families of nodes -/

/-- A finite family of nodes that has every node its own refer to. No node leads back to itself. -/
structure Family (H : Hashing) (published : Catalog Digest Bytes) : Prop where
  decodes : ∀ d bytes, published.get? d = some bytes → ∃ n, Node.decodeAs H d bytes = .ok n ∧
    ∀ e ∈ n.refs, (published.get? e).isSome
  acyclic : ∀ d, (published.get? d).isSome → ¬ Relation.TransGen (Refers H) d d

theorem Family.publishes (h : Family H published) (hd : (published.get? d).isSome) :
    Publishes H published d := by
  obtain ⟨bytes, hbytes⟩ := Option.isSome_iff_exists.mp hd
  obtain ⟨n, hn, -⟩ := h.decodes d bytes hbytes
  exact ⟨bytes, n, hbytes, hn⟩

theorem Family.closed (inj : Function.Injective H) (h : Family H published)
    (hd : (published.get? d).isSome) (hde : Refers H d e) : (published.get? e).isSome := by
  obtain ⟨bytes, hbytes⟩ := Option.isSome_iff_exists.mp hd
  obtain ⟨n, hn, hrefs⟩ := h.decodes d bytes hbytes
  obtain ⟨m, hm, he⟩ := hde
  obtain rfl := hm.unique inj (.of_decodeAs hn)
  exact hrefs e he

theorem Family.leads (inj : Function.Injective H) (h : Family H published) {i : Item}
    (hd : (published.get? d).isSome) (hde : Leads H (fun _ => False) (.ref d) i) (hi : i = .ref e) :
    (published.get? e).isSome := by
  generalize hj : Item.ref d = j at hde
  induction hde generalizing d with
  | refl =>
      obtain rfl := Item.ref.inj (hj.trans hi)
      exact hd
  | @into d' n j i kept denotes mem rest ih =>
      obtain rfl := Item.ref.inj hj
      cases j with
      | leaf a => cases rest.of_leaf.symm.trans hi
      | ref d'' => exact ih (h.closed inj hd ⟨n, denotes, Node.mem_refs.mpr mem⟩) hi rfl

/-- A tree stands under every node of a family: of finitely many nodes none of which leads back to itself,
none has endless ways down. -/
theorem Family.whole (inj : Function.Injective H) (h : Family H published)
    (hd : (published.get? d).isSome) : Whole H d := by
  have hkeys : {d : Digest | (published.get? d).isSome}.Finite := by
    refine (published.entries.map Prod.fst).finite_toSet.subset ?_
    intro d hd
    obtain ⟨bytes, hbytes⟩ := Option.isSome_iff_exists.mp hd
    exact List.mem_map.mpr ⟨_, Catalog.mem_entries_of_get? hbytes, rfl⟩
  have : Finite {d : Digest // (published.get? d).isSome} := hkeys
  let below : {d : Digest // (published.get? d).isSome} →
      {d : Digest // (published.get? d).isSome} → Prop :=
    fun e d => Relation.TransGen (Refers H) d.1 e.1
  have : IsTrans _ below := ⟨fun _ _ _ hab hbc => hbc.trans hab⟩
  have : Std.Irrefl below := ⟨fun d => h.acyclic d.1 d.2⟩
  have hwf : WellFounded below := Finite.wellFounded_of_trans_of_irrefl below
  refine hwf.induction (C := fun d => Whole H d.1) ⟨d, hd⟩ ?_
  rintro ⟨d, hd⟩ ih
  obtain ⟨bytes, n, -, hdecode⟩ := h.publishes hd
  have hn : Denotes H d n := .of_decodeAs hdecode
  have hbranches : ∀ e ∈ n.refs, Tree H (fun _ _ => True) e (listing H e) := by
    intro e he
    have hde : Refers H d e := ⟨n, hn, he⟩
    exact (ih ⟨e, h.closed inj hd hde⟩ (.single hde)).tree inj
  exact ⟨_, .node hn hbranches trivial⟩

/-! ## Histories of a survey -/

/-- A pass begins, a step is taken whose requests are accepted, or a fetch brings the node it was to
bring. -/
inductive Event.Faithful (H : Hashing) : Event → Prop
  | call : Faithful H .call
  | step : Faithful H (.step .accepting)
  | complete {d : Digest} {result : Except FetchFailure Bytes} (brings : Brings H d result) :
      Faithful H (.complete d result)

namespace Survey

variable {s : Survey H} {owed : List Digest} {start : Nat} {front row : List Entry}
  {r r' : Reconciler}

/-- A survey is to be begun, under way or over. -/
def Stage (s : Survey H) (r : Reconciler) : Prop :=
  (∃ owed start, s.Ready owed start r) ∨ ∃ outcome, s.Over r outcome

theorem Stage.on (h : s.Stage r) {event : Event} (hevent : event.Faithful H) :
    s.Stage (r.on H event) := by
  rcases h with ⟨owed, start, h⟩ | ⟨outcome, h⟩
  · cases hevent with
    | call => exact .inl ⟨owed, start, h.called⟩
    | step => exact h.step.imp_left (fun h => ⟨owed, start, h⟩)
    | complete brings => exact .inl (h.complete brings)
  · refine .inr ⟨outcome, ?_⟩
    cases hevent with
    | call => exact h.called
    | step => exact h.step _
    | complete brings => exact h.stays rfl rfl h.phase rfl rfl rfl ⟨rfl, rfl⟩ rfl

theorem Stage.after (h : s.Stage r) {es : List Event} (hes : ∀ event ∈ es, event.Faithful H) :
    s.Stage (r.after H es) :=
  Reconciler.after_induction h (fun _ event hevent h => h.on (hes event hevent))

/-- How a pass ends: with a fetch that has not ended yet, or with a verdict, given now or before. -/
inductive Concludes (y : Digest) (front row : List Entry) (r r' : Reconciler) : Outcome → Prop
  | waiting {d : Digest} (pending : r'.cache.pending d = true) : Concludes y front row r r' .waiting
  | now {outcome : Outcome} (verdict : Verdict y front row r' outcome) :
      Concludes y front row r r' outcome
  | before {outcome : Outcome} (given : Verdict y front row r outcome)
      (stands : Verdict y front row r' outcome) : Concludes y front row r r' .idle

/-- What holds at any time: what was found so far is a part of the front, no node is asked for twice,
and a pass ends. -/
structure Upholds (H : Hashing) (published : Catalog Digest Bytes) (y : Digest)
    (front row : List Entry) (r : Reconciler) : Prop where
  recorded : r.journal.recorded <+: front.map Entry.name
  nodup : r.journal.asked.Nodup
  asked : ∀ d ∈ r.journal.asked, (published.get? d).isSome
  pass : ∃ r' outcome, r.pass H .accepting = (r', some outcome) ∧
    Concludes y front row r r' outcome

theorem Verdict.recorded {outcome : Outcome} (h : Verdict y front row r outcome) :
    r.journal.recorded = front.map Entry.name := by
  cases h with
  | idle whole recorded => exact recorded
  | malformed proper recorded => exact recorded

theorem Verdict.ne_waiting {outcome : Outcome} (h : Verdict y front row r outcome) :
    outcome ≠ .waiting := by
  cases h <;> exact nofun

theorem Ready.recorded (h : s.Ready owed start r) :
    r.journal.recorded <+: s.front.map Entry.name := by
  cases h with
  | poised h => exact h.log ▸ List.nil_prefix
  | going h => exact h.log ▸ h.passed_front.map Entry.name

theorem Ready.concludes (h : s.Ready owed start r) :
    ∃ r' outcome, r.pass H .accepting = (r', some outcome) ∧
      Concludes s.y s.front s.row r r' outcome := by
  obtain ⟨r', outcome, hpass, hends⟩ := h.pass
  refine ⟨r', outcome, hpass, ?_⟩
  cases hends with
  | decided decided => exact .now decided.verdict
  | waiting going unanswered =>
      obtain ⟨d, hd⟩ := List.exists_mem_of_ne_nil _ unanswered
      exact .waiting ((going.supplied.pending d).mpr hd)

theorem Stage.upholds (h : s.Stage r) (hreaches : ∀ d, s.Reaches d → (published.get? d).isSome) :
    Upholds H published s.y s.front s.row r := by
  rcases h with ⟨owed, start, h⟩ | ⟨outcome, h⟩
  · exact ⟨h.recorded, h.supplied.nodup_asked (fun _ => id),
      fun d hd => hreaches d (h.supplied.scope d hd), h.concludes⟩
  · obtain ⟨r', hpass, hover⟩ := h.pass .accepting
    exact ⟨h.verdict.recorded ▸ List.prefix_rfl, h.nodup, fun d hd => hreaches d (h.scope d hd),
      r', .idle, hpass, .before h.verdict hover.verdict⟩

/-! ## Running and answering -/

/-- All that is owed is answered in a row. -/
theorem Ready.answers {fetch : Digest → Except FetchFailure Bytes}
    (hfetch : ∀ d, s.Reaches d → Brings H d (fetch d)) (h : s.Ready owed start r) :
    s.Ready [] start
      { r with cache := r.cache.completeAll (owed.map (fun d => (d, fetch d))) } := by
  induction owed generalizing r with
  | nil => exact h
  | cons d owed ih =>
      exact ih (h.keeps (Cache.keeps_complete _ _ _)
        (h.supplied.answer id False.elim (fun hd _ => hfetch d hd)))

theorem exists_scope (s : Survey H) : ∃ U : Finset Digest, ∀ d, s.Reaches d → d ∈ U := by
  have hfinite := (s.whole.tree s.inj).finite_leads (fun _ => False) s.inj
  exact ⟨hfinite.toFinset, fun d hd => (Set.Finite.mem_toFinset _).mpr hd⟩

/-- An exchange whose fetches bring every node of a tree, and whose reconciler surveys it. -/
structure Feeds (s : Survey H) (x : Exchange) : Prop where
  quiet : x.Quiet
  brings : ∀ d, s.Reaches d → Brings H d (x.fetch d)
  ready : s.Ready x.unanswered x.reconciler.journal.asked.length x.reconciler

/-- A run takes the round on; if it waits, a request is open. -/
theorem Feeds.runs {x : Exchange} (h : s.Feeds x) {U : Finset Digest}
    (hU : ∀ d, s.Reaches d → d ∈ U) :
    ∃ x' outcome, x.run H = (x', some outcome, []) ∧
      (s.Over x'.reconciler outcome ∨
        outcome = .waiting ∧ x'.unanswered ≠ [] ∧ s.Feeds x' ∧
          U.card * (s.limit + 1) - x'.reconciler.journal.asked.length <
            U.card * (s.limit + 1) - x.reconciler.journal.asked.length + x.unanswered.length) := by
  obtain ⟨r', outcome, hpass, hends⟩ := h.ready.pass
  refine ⟨_, outcome, h.quiet.run_of_pass hpass, ?_⟩
  cases hends with
  | decided decided => exact .inl decided
  | waiting going unanswered =>
      have hopen : x.unanswered ++ r'.journal.accepted.drop x.reconciler.journal.accepted.length =
          x.unanswered ++ r'.journal.asked.drop x.reconciler.journal.asked.length := by
        rw [going.supplied.accepted, h.ready.supplied.accepted]
      refine .inr ⟨rfl, hopen ▸ unanswered, ⟨?_, h.brings, ?_⟩, ?_⟩
      · exact ⟨h.quiet.accepts, h.quiet.turn, h.quiet.hooks⟩
      · exact .going { going with supplied := hopen ▸ going.supplied.rebase }
      · exact going.supplied.left_lt hU unanswered

/-- All open requests are answered, in any order. -/
theorem Feeds.answerIn {x : Exchange} (h : s.Feeds x) {order : Exchange → List Digest}
    (horder : (order x).Perm x.unanswered) : s.Feeds (x.answerIn order).1 := by
  have hready := h.ready.supplies (h.ready.supplied.perm horder)
  rw [Exchange.answerIn_fst]
  exact ⟨⟨h.quiet.accepts, h.quiet.turn, h.quiet.hooks⟩, h.brings, hready.answers h.brings⟩

theorem Feeds.converges {x : Exchange} (h : s.Feeds x) {order : Exchange → List Digest}
    (horder : ∀ x, (order x).Perm x.unanswered) :
    ∃ x' outcome, x.convergeIn H order = some (x', some outcome, []) ∧
      s.Over x'.reconciler outcome := by
  obtain ⟨U, hU⟩ := s.exists_scope
  refine Exchange.converges_of_less (I := s.Feeds) (fun x =>
    U.card * (s.limit + 1) - x.reconciler.journal.asked.length + x.unanswered.length) ?_ h
  intro x h
  obtain ⟨x', outcome, hrun, hends⟩ := h.runs hU
  refine ⟨x', outcome, hrun, ?_⟩
  rcases hends with decided | ⟨rfl, hopen, hfeeds, hless⟩
  · exact .inl ⟨decided.verdict.ne_waiting, decided⟩
  · refine .inr ⟨rfl, hopen, hfeeds.answerIn (horder x'), ?_⟩
    rw [Exchange.answerIn_fst]
    exact hless

end Survey

/-! ## The verdict on a tree -/

/-- One node of a family was announced as a root to a reconciler that knows nothing. -/
def Exchange.survey (attempts : Nat) (y : Digest) (firstName : Option Name)
    (published : Catalog Digest Bytes) : Exchange where
  reconciler := ((Reconciler.create (.ofAttempts attempts) .empty firstName).announce y).1
  published := published

theorem Survey.feeds (s : Survey H) {attempts : Nat} (hlimit : s.limit = max attempts 1)
    (hpublished : ∀ d, s.Reaches d → Publishes H published d) (firstName : Option Name) :
    s.Feeds (Exchange.survey attempts s.y firstName published) := by
  have hgenuine := Cache.genuine_ofAttempts (H := H) attempts
  refine ⟨⟨rfl, rfl, rfl⟩, fun d hd => Exchange.brings_fetch.mpr (hpublished d hd), .poised ?_⟩
  refine ⟨(Reconciler.regular_create hgenuine .empty firstName).on (.announce s.y), ?_, rfl, rfl, rfl,
    rfl, rfl, Cache.known_ofAttempts attempts, rfl, rfl, rfl, rfl⟩
  refine ⟨hlimit.symm, hlimit ▸ le_max_right attempts 1, fun d => .empty id, rfl, le_refl _,
    fun d hd => (nomatch hd), fun d => ?_, .nil⟩
  exact iff_of_false Bool.false_ne_true List.not_mem_nil

open Survey Reconciler in
/-- Whatever the nodes of a finite family are like, each tree in it reads as one row. A reconciler that
starts from nothing, gets the tree as a root and has every fetch answered by the right node, in any
order, records the longest front of that row in which each name lies in the range of its node and comes
after the name before it. If that is all of the row, the root becomes the baseline, and otherwise the
round is given up as malformed. -/
theorem Exchange.survey_judges (inj : Function.Injective H) (family : Family H published)
    (hy : (published.get? y).isSome) (attempts : Nat) (firstName : Option Name) :
    ∃ row front, (∀ l, Reading H y l ↔ l = row) ∧ Front front row ∧
      (∀ es : List Event, (∀ event ∈ es, event.Faithful H) →
        Upholds H published y front row
          (after H (survey attempts y firstName published).reconciler es)) ∧
      ∀ order : Exchange → List Digest, (∀ x, (order x).Perm x.unanswered) →
        ∃ x' outcome,
          (survey attempts y firstName published).convergeIn H order = some (x', some outcome, []) ∧
            Verdict y front row x'.reconciler outcome := by
  have hwhole := family.whole inj hy
  obtain ⟨row, hreading⟩ := hwhole.exists_reading
  obtain ⟨front, hfront⟩ := exists_front row
  let s : Survey H := ⟨y, row, front, max attempts 1, inj, hwhole, hreading, hfront⟩
  have hreaches : ∀ d, s.Reaches d → (published.get? d).isSome :=
    fun d hd => family.leads inj hy hd rfl
  have hfeeds : s.Feeds (survey attempts y firstName published) :=
    s.feeds rfl (fun d hd => family.publishes (hreaches d hd)) firstName
  refine ⟨row, front, ?_, hfront, ?_, ?_⟩
  · intro l
    constructor
    · exact fun hl => hl.unique inj hreading
    · rintro rfl
      exact hreading
  · intro es hes
    have hstage : s.Stage (survey attempts y firstName published).reconciler :=
      .inl ⟨_, _, hfeeds.ready⟩
    exact (hstage.after hes).upholds hreaches
  · intro order horder
    obtain ⟨x', outcome, hconverges, hover⟩ := hfeeds.converges horder
    exact ⟨x', outcome, hconverges, hover.verdict⟩

namespace Sample

/-- The names `1`, `5` and `4`, and a branch `{2}` that is referred to twice after the first. -/
def crooked : Node where
  items := [.leaf (name 1), .ref (root (flat [2])), .ref (root (flat [2])), .leaf (name 5),
    .leaf (name 4)]
  least := name 1
  greatest := name 9
  count := 0

def publishedCrooked : Catalog Digest Bytes :=
  (Catalog.empty.insert (root crooked) crooked.encode).insert (root (flat [2])) (flat [2]).encode

theorem fits_flat_two : (flat [2]).Fits :=
  ⟨by decide, by simp [show (flat [2]).items = [.leaf (name 2)] from rfl, Item.Fits]; decide,
    by decide, by decide⟩

theorem fits_crooked : crooked.Fits :=
  ⟨by decide, by simp [crooked, Item.Fits]; decide +kernel, by decide, by decide⟩

theorem refers_flat_two {e : Digest} : ¬ Refers Digest.mk (root (flat [2])) e := by
  rintro ⟨n, hn, he⟩
  obtain rfl := hn.unique injective_mk (denotes_digest Digest.mk (flat [2]))
  simp [Node.refs_ofNames, flat] at he

theorem refers_crooked {e : Digest} (h : Refers Digest.mk (root crooked) e) :
    e = root (flat [2]) := by
  obtain ⟨n, hn, he⟩ := h
  obtain rfl := hn.unique injective_mk (denotes_digest Digest.mk crooked)
  simpa [Node.refs, crooked, Item.ref?, eq_comm] using he

theorem family_crooked : Family Digest.mk publishedCrooked := by
  have hcases : ∀ {d bytes}, publishedCrooked.get? d = some bytes →
      d = root (flat [2]) ∧ bytes = (flat [2]).encode ∨
        d = root crooked ∧ bytes = crooked.encode := by
    intro d bytes h
    simp only [publishedCrooked, Catalog.get?_insert, Catalog.get?_empty] at h
    split_ifs at h with hflat hcrooked
    · exact .inl ⟨hflat.symm, (Option.some.inj h).symm⟩
    · exact .inr ⟨hcrooked.symm, (Option.some.inj h).symm⟩
  constructor
  · intro d bytes h
    rcases hcases h with ⟨rfl, rfl⟩ | ⟨rfl, rfl⟩
    · refine ⟨_, Node.decodeAs_digest Digest.mk fits_flat_two, ?_⟩
      simp [Node.refs_ofNames, flat]
    · refine ⟨_, Node.decodeAs_digest Digest.mk fits_crooked, ?_⟩
      intro e he
      obtain rfl := refers_crooked ⟨crooked, denotes_digest _ _, he⟩
      simp [publishedCrooked]
  · intro d hd hcycle
    obtain ⟨bytes, hbytes⟩ := Option.isSome_iff_exists.mp hd
    obtain ⟨e, hde, hed⟩ := Relation.TransGen.head'_iff.mp hcycle
    rcases hcases hbytes with ⟨rfl, -⟩ | ⟨rfl, -⟩
    · exact refers_flat_two hde
    · obtain rfl := refers_crooked hde
      rcases hed.cases_head with hroot | ⟨e', he', -⟩
      · exact absurd hroot (by decide +kernel)
      · exact refers_flat_two he'

/-- The branch is read once, and the names `5` and `4` after it. -/
theorem reading_crooked : Reading Digest.mk (root crooked)
    [⟨crooked, name 1⟩, ⟨flat [2], name 2⟩, ⟨crooked, name 5⟩, ⟨crooked, name 4⟩] := by
  have hbranch : Reads Digest.mk [] (flat [2]) (flat [2]).items [⟨flat [2], name 2⟩] [] :=
    .leaf .nil
  exact ⟨crooked, _, denotes_digest _ _, .leaf (.enter List.not_mem_nil
    (denotes_digest _ (flat [2])) hbranch (.again List.mem_cons_self (.leaf (.leaf .nil))))⟩

theorem front_crooked : Front [⟨crooked, name 1⟩, ⟨flat [2], name 2⟩, ⟨crooked, name 5⟩]
    [⟨crooked, name 1⟩, ⟨flat [2], name 2⟩, ⟨crooked, name 5⟩, ⟨crooked, name 4⟩] := by
  have hfront : InOrder [⟨crooked, name 1⟩, ⟨flat [2], name 2⟩, ⟨crooked, name 5⟩] :=
    ⟨by decide, by decide⟩
  exact front_of_refused hfront (fun h => absurd h.ascending (by decide))

end Sample

namespace Exchange

open Sample in
/-- The name `4` after `5` is refused, and the names before it are kept. -/
theorem survey_judges_crooked :
    ∃ x', (survey 3 (root crooked) none publishedCrooked).convergeIn Digest.mk unanswered =
        some (x', some .malformed, []) ∧
      x'.reconciler.journal.recorded = [1, 2, 5].map name ∧ x'.reconciler.tally.aborted = 1 := by
  obtain ⟨row, front, hrow, hfront, -, hconverges⟩ :=
    survey_judges injective_mk family_crooked (y := root crooked) (by decide +kernel) 3 none
  obtain rfl := (hrow _).mp reading_crooked
  obtain rfl := hfront.unique front_crooked
  obtain ⟨x', outcome, hx, hverdict⟩ := hconverges unanswered (fun _ => .refl _)
  cases hverdict with
  | idle whole => exact absurd whole (by decide)
  | malformed proper recorded round completed aborted => exact ⟨x', hx, recorded, aborted⟩

end Exchange

end Reconcile

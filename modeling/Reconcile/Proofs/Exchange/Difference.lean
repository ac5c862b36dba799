import Reconcile.Proofs.Exchange.Converging
import Reconcile.Proofs.Publish.Built

/-! # Trees that are built and published are compared to the end

Two trees of any shapes are built over two sets of names and published. A reconciler that starts from
the one and gets the other as its next root hands out just the names that are new, in order, and asks
for no node twice. -/

namespace Reconcile

variable {H : Hashing} {published : Catalog Digest Bytes}

namespace Publication

/-- Everything that was built is published. -/
def Within (p : Publication) (published : Catalog Digest Bytes) : Prop :=
  ∀ e ∈ p.nodes.entries, published.get? e.1 = some e.2

instance (p : Publication) (published : Catalog Digest Bytes) : Decidable (p.Within published) :=
  inferInstanceAs (Decidable (∀ e ∈ p.nodes.entries, published.get? e.1 = some e.2))

/-- Where every digest can be written, each node of a tree can be read back from what is published. -/
theorem Sound.publishes {width : Nat} {p : Publication} {names : List Name} {d : Digest}
    (h : p.Sound H width names) (hwithin : p.Within published)
    (hdigests : ∀ e ∈ published.entries, e.1.Fits)
    (hd : Leads H (fun _ => False) (.ref p.root) (.ref d)) : Publishes H published d := by
  have hstored : ∀ {e : Digest} {n : Node}, p.nodes.get? e = some n.encode →
      published.get? e = some n.encode :=
    fun hget => hwithin _ (Catalog.mem_entries_of_get? hget)
  obtain ⟨n, rfl, hget, hsized⟩ := h.held d hd
  have hrefs : ∀ e ∈ n.refs, e.Fits := by
    intro e he
    have hitem := hd.trans (leads_item id (denotes_digest H n) (Node.mem_refs.mp he))
    obtain ⟨m, -, hget, -⟩ := h.held e hitem
    exact hdigests _ (Catalog.mem_entries_of_get? (hstored hget))
  exact ⟨n.encode, n, hstored hget, Node.decodeAs_digest H (hsized.fits hrefs)⟩

end Publication

namespace Exchange

/-- A root that is the baseline already is not taken up. -/
theorem pass_of_same (attempts : Nat) (y : Digest) :
    Reconciler.pass H .accepting (opening attempts y y none published).reconciler =
      ({ Reconciler.create (.ofAttempts attempts) (.root y) none with
          phase := .done
          tally := { runs := 1 } }, some .idle) := by
  have hchoose : Reconciler.step H .accepting
      { (opening attempts y y none published).reconciler with tally := { runs := 1 } } =
      ({ Reconciler.create (.ofAttempts attempts) (.root y) none with
          phase := .done
          tally := { runs := 1 } }, none) := by
    simp [opening, Reconciler.create, Reconciler.announce, Reconciler.step, Reconciler.choose,
      Reconciler.takeBodies, ascending]
  have hrest : Reconciler.step H .accepting
      { Reconciler.create (.ofAttempts attempts) (.root y) none with
          phase := .done
          tally := { runs := 1 } } =
      ({ Reconciler.create (.ofAttempts attempts) (.root y) none with
          phase := .done
          tally := { runs := 1 } }, some .idle) := by
    simp [Reconciler.create, Reconciler.step, Reconciler.hasWork]
  have hsteps : Reconciler.steps H .accepting
      { (opening attempts y y none published).reconciler with tally := { runs := 1 } } =
      some ({ Reconciler.create (.ofAttempts attempts) (.root y) none with
          phase := .done
          tally := { runs := 1 } }, .idle) := (loop_of_none hchoose).trans (loop_of_some hrest)
  have hruns : (opening attempts y y none published).reconciler.tally = {} := rfl
  simp only [Reconciler.pass, hruns, Nat.zero_add, hsteps]

theorem converges_of_same (attempts : Nat) (y : Digest) (published : Catalog Digest Bytes)
    (order : Exchange → List Digest) :
    ∃ e, (opening attempts y y none published).convergeIn H order = some (e, some .idle, []) ∧
      e.reconciler.baseline = some y ∧ e.reconciler.tally.faults = 0 ∧
      e.reconciler.journal = {} := by
  have hrun := (quiet_opening attempts y y none published).run_eq (H := H)
  simp only [withReconciler, pass_of_same] at hrun
  exact ⟨_, convergeIn_of_last hrun (by decide), rfl, rfl, rfl⟩

section Published

variable {x y : Digest} (inj : Function.Injective H) (hx : Honest H x) (hy : Honest H y)
  (hpublished : ∀ d, Leads H (fun _ => False) (.ref y) (.ref d) ∨
    Leads H (fun _ => False) (.ref x) (.ref d) → Publishes H published d)
  (attempts : Nat) {order : Exchange → List Digest} (horder : ∀ e, (order e).Perm e.unanswered)

include inj hx hy hpublished horder

/-- Two trees are compared all of whose nodes are published. -/
theorem converges_of_published :
    ∃ e, (opening attempts x y none published).convergeIn H order = some (e, some .idle, []) ∧
      e.reconciler.journal.delivered =
        ((namesBelow H y).filter (· ∉ namesBelow H x)).map Name.parent ∧
      e.reconciler.baseline = some y ∧ e.reconciler.tally.faults = 0 ∧
      e.reconciler.journal.asked.Nodup := by
  by_cases hxy : x = y
  · subst hxy
    obtain ⟨e, hconverges, hbaseline, hfaults, hjournal⟩ :=
      converges_of_same (H := H) attempts x published order
    have hnone : (namesBelow H x).filter (· ∉ namesBelow H x) = [] := by
      rw [List.filter_eq_nil_iff]
      intro a ha
      simpa using ha
    refine ⟨e, hconverges, ?_, hbaseline, hfaults, ?_⟩
    · rw [hnone, hjournal]
      rfl
    · rw [hjournal]
      exact .nil
  · have hready := Reconciler.ready_opening (fun _ => False) inj hx hy hxy (fun _ _ => id) id
      attempts none published
    have hserves : (opening attempts x y none published).Serves (Task.opening
        (fun _ => False) inj hx hy hxy (fun _ _ => id) id attempts none) := by
      refine ⟨quiet_opening attempts x y none published, ?_, fun _ => False.elim⟩
      exact fun d hd _ => brings_fetch.mpr (hpublished d hd)
    obtain ⟨e, outcome, hconverges, -, hsettles⟩ := hserves.converges hready horder
    obtain rfl := hsettles.eq_idle (fun _ => id)
    obtain ⟨hbaseline, -, hfaults, -, hfound⟩ := hsettles.of_idle
    obtain ⟨hordered, hdelivered, hasked⟩ := hsettles.in_order (fun _ => id) rfl
    refine ⟨e, hconverges, ?_, hbaseline, hfaults, hasked⟩
    rw [hdelivered]
    refine congrArg _ (eq_of_mem_iff hordered ((hy.ordered inj).filter _) (fun a => ?_))
    rw [hfound a, List.mem_filter, decide_eq_true_eq]
    rfl

end Published

/-- Two trees of any shapes are built over the names `base` and `full` and published. From the one, a
reconciler runs and gets answers, in any order, until the other is its baseline. It hands out the
names of new content in the order of their full names, without a fault, and asks for no node
twice. -/
theorem built_trees_compared (inj : Function.Injective H) (s s' : Shape) (base full : List Name)
    (published : Catalog Digest Bytes) (hbase : (s.publish H base).Within published)
    (hfull : (s'.publish H full).Within published)
    (hdigests : ∀ e ∈ published.entries, e.1.Fits) (hnames : ∀ a ∈ base ++ full, a.Fits)
    (hlength : base.length < UInt64.size ∧ full.length < UInt64.size) (attempts : Nat)
    (order : Exchange → List Digest) (horder : ∀ e, (order e).Perm e.unanswered) :
    ∃ e, (opening attempts (s.publish H base).root (s'.publish H full).root none
        published).convergeIn H order = some (e, some .idle, []) ∧
      e.reconciler.journal.delivered =
        ((ascending full).filter (· ∉ base)).map Name.parent ∧
      e.reconciler.baseline = some (s'.publish H full).root ∧ e.reconciler.tally.faults = 0 ∧
      e.reconciler.journal.asked.Nodup := by
  have hx := Publication.sound_publish inj s hlength.1
    (fun a ha => hnames a (List.mem_append_left full ha))
  have hy := Publication.sound_publish inj s' hlength.2
    (fun a ha => hnames a (List.mem_append_right base ha))
  have hpublished : ∀ d, Leads H (fun _ => False) (.ref (s'.publish H full).root) (.ref d) ∨
      Leads H (fun _ => False) (.ref (s.publish H base).root) (.ref d) →
      Publishes H published d := by
    rintro d (hd | hd)
    · exact hy.publishes hfull hdigests hd
    · exact hx.publishes hbase hdigests hd
  have hdifference := converges_of_published inj ⟨_, hx.tree⟩ ⟨_, hy.tree⟩ hpublished attempts horder
  simpa only [hx.tree.namesBelow_eq inj, hy.tree.namesBelow_eq inj, mem_ascending] using hdifference

end Exchange

namespace Sample

/-- A flat tree. -/
def older : Publication := ({ fanout := 2, sizes := [] } : Shape).publish Digest.mk ([1, 4].map name)

/-- A tree of three levels. -/
def newer : Publication :=
  ({ fanout := 2, sizes := [1] } : Shape).publish Digest.mk ([1, 2, 3].map name)

def publishedBoth : Catalog Digest Bytes := newer.nodes.union older.nodes

end Sample

namespace Exchange

open Sample in
/-- From the baseline `{1, 4}`, the names `2` and `3` of `{1, 2, 3}` are found. -/
theorem built_trees_compared_samples :
    ∃ e, (opening 3 older.root newer.root none publishedBoth).convergeIn Digest.mk unanswered =
        some (e, some .idle, []) ∧
      e.reconciler.journal.delivered = ([2, 3].map name).map Name.parent ∧
      e.reconciler.baseline = some newer.root ∧ e.reconciler.tally.faults = 0 ∧
      e.reconciler.journal.asked.Nodup := by
  have hnew : (ascending ([1, 2, 3].map name)).filter (· ∉ [1, 4].map name) = [2, 3].map name := by
    decide
  have hcompared := built_trees_compared injective_mk { fanout := 2, sizes := [] }
    { fanout := 2, sizes := [1] } ([1, 4].map name) ([1, 2, 3].map name) publishedBoth
    (by decide +kernel) (by decide +kernel) (by decide +kernel)
    (by decide) ⟨by decide, by decide⟩ 3 unanswered (fun _ => .refl _)
  rwa [hnew] at hcompared

end Exchange

end Reconcile

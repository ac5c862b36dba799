import Mathlib.Data.List.Flatten
import Reconcile.Proofs.Live.Deliveries
import Reconcile.Proofs.Live.Quiet

/-! # Followed slices do not disturb each other

Of everything that is done with a directory, a session is moved only by what is done with its own
slice, by the time that passes and by what the store holds. Nothing is left of an earlier session of the
slice, not even its fetches that are on their way. -/

namespace Reconcile

variable {H : Hashing}

/-! ## What is done with a directory -/

namespace Directory

/-- Something that is done with the followed slices. -/
inductive Op
  | start (slice : Slice) (listener : String) (origin : Origin) (firstName : Option Name)
  | stop (id : SliceId)
  | announce (id : SliceId) (d : Digest)
  | handIn (id : SliceId) (bytes : Bytes)
  /-- Content comes in under a name. -/
  | content (name : Name) (bytes : Bytes)
  | wait (span : Nat)
  /-- A node comes into the store. -/
  | publish (d : Digest) (bytes : Bytes)
deriving Repr, DecidableEq

/-- The slice that an operation is meant for. Content tells it by its name. -/
def Op.addressee? (H : Hashing) : Op → Option SliceId
  | start slice _ _ _ => some (slice.id H)
  | stop id | announce id _ | handIn id _ => some id
  | content name _ => (Slice.parseFetchName? name).map Prod.fst
  | wait _ | publish _ _ => none

/-- The slice that is to be followed for a listener. -/
def Op.startsFor (H : Hashing) (listener : String) : Op → List SliceId
  | start slice listener' _ _ => if listener' = listener then [slice.id H] else []
  | _ => []

variable {x y : Directory} {id id' : SliceId} {op : Op} {ops : List Op} {listener : String}

/-- The directory after an operation. -/
def on (H : Hashing) (x : Directory) : Op → Directory
  | .start slice listener origin firstName => (x.start H slice listener origin firstName).1
  | .stop id => (x.stop id).1
  | .announce id d => (x.announce id d).1
  | .handIn id bytes => (x.handIn id bytes).1
  | .content name bytes => (x.receiveContent name bytes).1
  | .wait span => x.wait H span
  | .publish d bytes => x.publish d bytes

/-- The directory after a row of operations. -/
def after (H : Hashing) (x : Directory) (ops : List Op) : Directory := ops.foldl (on H) x

@[simp] theorem after_nil (x : Directory) : x.after H [] = x := rfl

@[simp] theorem after_cons (x : Directory) (op : Op) (ops : List Op) :
    x.after H (op :: ops) = (x.on H op).after H ops := rfl

theorem after_append (x : Directory) (ops ops' : List Op) :
    x.after H (ops ++ ops') = (x.after H ops).after H ops' := List.foldl_append

theorem after_concat (x : Directory) (ops : List Op) (op : Op) :
    x.after H (ops ++ [op]) = (x.after H ops).on H op := after_append x ops [op]

/-! ## What becomes of a follower -/

theorem get?_within {α : Type} (f : Subscription → Subscription × α) :
    (x.within id f).1.followers.get? id' =
      if id = id' then
        (x.followers.get? id').map (fun g => { g with subscription := (f g.subscription).1 })
      else x.followers.get? id' := by
  unfold within
  split
  · rename_i hnone
    split
    · rename_i h
      rw [← h, hnone]
      rfl
    · rfl
  · rename_i g hsome
    simp only [Table.get?_insert]
    split
    · rename_i h
      rw [← h, hsome]
      rfl
    · rfl

theorem get?_start {slice : Slice} {origin : Origin} {firstName : Option Name} :
    (x.start H slice listener origin firstName).1.followers.get? id =
      if slice.id H = id then
        some ((x.followers.get? id).getD
          { listener, subscription := .fresh x.settings origin firstName })
      else x.followers.get? id := by
  unfold start
  dsimp only
  split
  · rename_i hcontains
    split
    · rename_i h
      subst h
      obtain ⟨g, hg⟩ := Option.isSome_iff_exists.mp hcontains
      simp [hg]
    · rfl
  · rename_i hcontains
    simp only [Table.get?_insert]
    split
    · rename_i h
      subst h
      have hnone : x.followers.get? (slice.id H) = none := by
        simpa [Table.contains] using hcontains
      simp [hnone, Subscription.fresh]
    · rfl

theorem find_waitEach (depot : Depot) (now deadline : Nat) (entries : List (SliceId × Follower))
    (heard : Table String (List Name)) (reached : List Digest) :
    Table.find id (waitEach H depot now deadline entries heard reached).1 =
      (Table.find id entries).map (fun f =>
        { f with subscription := f.subscription.wait H depot now deadline }) := by
  induction entries generalizing heard reached with
  | nil => rfl
  | cons e rest ih =>
      obtain ⟨key, f⟩ := e
      simp only [waitEach, Table.find]
      split
      · rfl
      · exact ih _ _

theorem get?_wait (span : Nat) :
    (x.wait H span).followers.get? id =
      (x.followers.get? id).map (fun f =>
        { f with subscription := f.subscription.wait H x.depot x.clock (x.clock + span) }) :=
  find_waitEach x.depot x.clock (x.clock + span) x.followers.entries x.heard x.reached

/-- An operation for another slice leaves a follower alone. -/
theorem get?_on_other (hop : op.addressee? H ≠ none) (hne : op.addressee? H ≠ some id) :
    (x.on H op).followers.get? id = x.followers.get? id := by
  cases op with
  | start slice listener origin firstName =>
      have hid : slice.id H ≠ id := fun h => hne (congrArg some h)
      rw [on, get?_start, if_neg hid]
  | stop id' =>
      have hid : id' ≠ id := fun h => hne (congrArg some h)
      simp [on, stop, hid]
  | announce id' d =>
      have hid : id' ≠ id := fun h => hne (congrArg some h)
      rw [on, announce, get?_within, if_neg hid]
  | handIn id' bytes =>
      have hid : id' ≠ id := fun h => hne (congrArg some h)
      rw [on, handIn, get?_within, if_neg hid]
  | content name bytes =>
      simp only [on, receiveContent]
      split
      · rfl
      · rename_i id' d hname
        have hid : id' ≠ id := fun h => hne (by rw [Op.addressee?, hname, h]; rfl)
        rw [receive, get?_within, if_neg hid]
  | wait span => exact absurd rfl hop
  | publish d bytes => exact absurd rfl hop

/-! ## What all slices share -/

/-- The settings, the store and the clock. -/
structure Common where
  settings : Settings
  depot : Depot
  clock : Nat

def common (x : Directory) : Common := ⟨x.settings, x.depot, x.clock⟩

/-- What an operation does to that. -/
def Op.moves : Op → Common → Common
  | wait span, c => { c with clock := c.clock + span }
  | publish d bytes, c => { c with depot.published := c.depot.published.insert d bytes }
  | _, c => c

theorem common_within {α : Type} (f : Subscription → Subscription × α) :
    (x.within id f).1.common = x.common := by
  unfold within
  split <;> rfl

theorem common_on (x : Directory) (op : Op) : (x.on H op).common = op.moves x.common := by
  cases op with
  | start slice listener origin firstName =>
      simp only [on, start]
      split <;> rfl
  | announce id d => exact common_within _
  | handIn id bytes => exact common_within _
  | content name bytes =>
      simp only [on, receiveContent]
      split
      · rfl
      · exact common_within _
  | _ => rfl

theorem Op.moves_of_addressee (hop : op.addressee? H ≠ none) (c : Common) : op.moves c = c := by
  cases op with
  | wait span => exact absurd rfl hop
  | publish d bytes => exact absurd rfl hop
  | _ => rfl

/-- An operation does the same to a follower in two directories that share the rest. -/
theorem get?_on_alike (hcommon : x.common = y.common)
    (hid : x.followers.get? id = y.followers.get? id) (op : Op) :
    (x.on H op).followers.get? id = (y.on H op).followers.get? id := by
  have hsettings : x.settings = y.settings := congrArg Common.settings hcommon
  have hdepot : x.depot = y.depot := congrArg Common.depot hcommon
  have hclock : x.clock = y.clock := congrArg Common.clock hcommon
  cases op with
  | start slice listener origin firstName => simp only [on, get?_start, hid, hsettings]
  | stop id' => simp only [on, stop, Table.get?_erase, hid]
  | announce id' d => simp only [on, announce, get?_within, hid, hclock]
  | handIn id' bytes => simp only [on, handIn, get?_within, hid, hclock]
  | content name bytes =>
      simp only [on, receiveContent]
      cases Slice.parseFetchName? name with
      | none => exact hid
      | some target => simp only [receive, get?_within, hid, hclock]
  | wait span => simp only [on, get?_wait, hid, hdepot, hclock]
  | publish d bytes => exact hid

/-- Nobody is followed because time passes or something is published. -/
theorem get?_on_none (hop : op.addressee? H = none) (hid : x.followers.get? id = none) :
    (x.on H op).followers.get? id = none := by
  cases op with
  | content name bytes =>
      simp only [Op.addressee?, Option.map_eq_none_iff] at hop
      simpa [on, receiveContent, hop] using hid
  | wait span => rw [on, get?_wait, hid, Option.map_none]
  | publish d bytes => exact hid
  | _ => cases hop

/-! ## What concerns a session -/

/-- The operations that concern the present session of a slice: those that are meant for no slice, and
those that are meant for this one and came after it was last stopped. -/
def concerning (H : Hashing) (id : SliceId) : List Op → List Op
  | [] => []
  | op :: rest =>
    if op.addressee? H = none ∨ op.addressee? H = some id ∧ .stop id ∉ op :: rest then
      op :: concerning H id rest
    else concerning H id rest

/-- What the session of a slice hands out in an operation, each name with its time. -/
def tellings (H : Hashing) (id : SliceId) (x : Directory) : Op → List (Nat × Name)
  | .wait span =>
    match x.subscription? id with
    | none => []
    | some s => s.tellings H x.depot (x.clock + span) (s.budget x.depot) x.clock
  | _ => []

/-- What the present session of a slice handed out in a row of operations. A slice that is stopped has
no session. -/
def account (H : Hashing) (id : SliceId) : Directory → List (Nat × Name) → List Op → List (Nat × Name)
  | _, told, [] => told
  | x, told, op :: rest =>
    account H id (x.on H op) (if op = .stop id then [] else told ++ x.tellings H id op) rest

theorem tellings_alike (hcommon : x.common = y.common)
    (hid : x.followers.get? id = y.followers.get? id) (op : Op) :
    x.tellings H id op = y.tellings H id op := by
  have hdepot : x.depot = y.depot := congrArg Common.depot hcommon
  have hclock : x.clock = y.clock := congrArg Common.clock hcommon
  cases op with
  | wait span => simp only [tellings, subscription?, hid, hdepot, hclock]
  | _ => rfl

theorem tellings_none (hid : x.followers.get? id = none) (op : Op) : x.tellings H id op = [] := by
  cases op with
  | wait span => simp only [tellings, subscription?, hid, Option.map_none]
  | _ => rfl

theorem tellings_of_addressee (hop : op.addressee? H ≠ none) : x.tellings H id op = [] := by
  cases op with
  | wait span => exact absurd rfl hop
  | _ => rfl

/-- Two directories and what was handed out in them, before a row of operations that is done in full
in one and as far as it concerns a slice in the other. Until the slice was last stopped in the one, it
has no session in the other. -/
structure Abreast (id : SliceId) (ops : List Op) (x : Directory) (told : List (Nat × Name))
    (y : Directory) (told' : List (Nat × Name)) : Prop where
  common : x.common = y.common
  follower : y.followers.get? id = if .stop id ∈ ops then none else x.followers.get? id
  told : told' = if .stop id ∈ ops then [] else told

section Concerning

variable {rest : List Op} {told told' : List (Nat × Name)}

/-- Both take an operation that does not stop the slice. -/
theorem Abreast.both (h : Abreast id (op :: rest) x told y told') (hop : op ≠ .stop id)
    (hnone : .stop id ∈ rest → op.addressee? H = none) :
    Abreast id rest (x.on H op) (told ++ x.tellings H id op) (y.on H op)
      (told' ++ y.tellings H id op) := by
  obtain ⟨hcommon, hfollower, htold⟩ := h
  have hmem : .stop id ∈ op :: rest ↔ .stop id ∈ rest := by
    rw [List.mem_cons]
    exact ⟨fun h => h.resolve_left (Ne.symm hop), .inr⟩
  simp only [hmem] at hfollower htold
  refine ⟨by rw [common_on, common_on, hcommon], ?_, ?_⟩
  · by_cases hstop : .stop id ∈ rest
    · rw [if_pos hstop] at hfollower ⊢
      exact get?_on_none (hnone hstop) hfollower
    · rw [if_neg hstop] at hfollower ⊢
      exact get?_on_alike hcommon.symm hfollower op
  · by_cases hstop : .stop id ∈ rest
    · rw [if_pos hstop] at hfollower htold ⊢
      rw [htold, tellings_none hfollower, List.append_nil]
    · rw [if_neg hstop] at hfollower htold ⊢
      rw [htold, tellings_alike hcommon hfollower.symm]

/-- Only one takes an operation for another slice. -/
theorem Abreast.other (h : Abreast id (op :: rest) x told y told') (hop : op.addressee? H ≠ none)
    (hne : op.addressee? H ≠ some id) :
    Abreast id rest (x.on H op) (told ++ x.tellings H id op) y told' := by
  obtain ⟨hcommon, hfollower, htold⟩ := h
  have hstop : op ≠ .stop id := fun h => hne (by rw [h]; rfl)
  have hmem : .stop id ∈ op :: rest ↔ .stop id ∈ rest := by
    rw [List.mem_cons]
    exact ⟨fun h => h.resolve_left (Ne.symm hstop), .inr⟩
  simp only [hmem] at hfollower htold
  refine ⟨by rw [common_on, Op.moves_of_addressee hop, hcommon], ?_, ?_⟩
  · rw [get?_on_other hop hne, hfollower]
  · rw [tellings_of_addressee hop, List.append_nil, htold]

/-- Only one takes an operation on a session that is stopped later, or now. -/
theorem Abreast.stopped (h : Abreast id (op :: rest) x told y told')
    (hop : op.addressee? H = some id) (hstop : .stop id ∈ op :: rest) :
    Abreast id rest (x.on H op) (if op = .stop id then [] else told ++ x.tellings H id op) y
      told' := by
  obtain ⟨hcommon, hfollower, htold⟩ := h
  have haddressee : op.addressee? H ≠ none := by simp [hop]
  rw [if_pos hstop] at hfollower htold
  refine ⟨by rw [common_on, Op.moves_of_addressee haddressee, hcommon], ?_, ?_⟩
  · rw [hfollower]
    by_cases hlater : .stop id ∈ rest
    · rw [if_pos hlater]
    · obtain rfl : .stop id = op := (List.mem_cons.mp hstop).resolve_right hlater
      rw [if_neg hlater]
      simp [on, stop]
  · rw [htold]
    by_cases hlater : .stop id ∈ rest
    · rw [if_pos hlater]
    · obtain rfl : .stop id = op := (List.mem_cons.mp hstop).resolve_right hlater
      rw [if_neg hlater, if_pos rfl]

/-- What concerns a session is all that moves it. -/
theorem Abreast.after (h : Abreast id ops x told y told') :
    (y.after H (concerning H id ops)).followers.get? id = (x.after H ops).followers.get? id ∧
      account H id y told' (concerning H id ops) = account H id x told ops := by
  induction ops generalizing x y told told' with
  | nil => exact ⟨by simpa [concerning] using h.follower, by simpa [concerning, account] using h.told⟩
  | cons op rest ih =>
      by_cases hnone : op.addressee? H = none
      · have hop : op ≠ .stop id := fun h => by simp [h, Op.addressee?] at hnone
        rw [concerning, if_pos (.inl hnone)]
        simp only [after_cons, account, if_neg hop]
        exact ih (h.both hop (fun _ => hnone))
      · by_cases hself : op.addressee? H = some id
        · by_cases hstop : .stop id ∈ op :: rest
          · rw [concerning, if_neg (by simp [hnone, hstop])]
            simp only [after_cons, account]
            exact ih (h.stopped hself hstop)
          · have hop : op ≠ .stop id := fun h => hstop (h ▸ List.mem_cons_self)
            rw [concerning, if_pos (.inr ⟨hself, hstop⟩)]
            simp only [after_cons, account, if_neg hop]
            exact ih (h.both hop (fun h => absurd (List.mem_cons_of_mem op h) hstop))
        · have hop : op ≠ .stop id := fun h => hself (by rw [h]; rfl)
          rw [concerning, if_neg (by simp [hnone, hself])]
          simp only [after_cons, account, if_neg hop]
          exact ih (h.other hnone hself)

end Concerning

/-! ## What a listener hears -/

/-- The slices that are followed for a listener. -/
def listening (x : Directory) (listener : String) : List SliceId :=
  (x.followers.entries.filter (fun e => e.2.listener = listener)).map Prod.fst

theorem put_of_find_none {κ α : Type} [DecidableEq κ] {k : κ} (v : α) {l : List (κ × α)}
    (h : Table.find k l = none) : Table.put k v l = l ++ [(k, v)] := by
  induction l with
  | nil => rfl
  | cons e rest ih =>
      obtain ⟨key, value⟩ := e
      simp only [Table.find] at h
      split at h
      · cases h
      · rename_i hkey
        simp [Table.put, hkey, ih h]

theorem filter_put {p : Follower → Bool} {f g : Follower} {entries : List (SliceId × Follower)}
    (h : Table.find id entries = some g) (hp : p f = p g) :
    ((Table.put id f entries).filter (fun e => p e.2)).map Prod.fst =
      (entries.filter (fun e => p e.2)).map Prod.fst := by
  induction entries with
  | nil => cases h
  | cons e rest ih =>
      obtain ⟨key, value⟩ := e
      simp only [Table.find, Table.put] at h ⊢
      split at h
      · rename_i hkey
        obtain rfl := Option.some.inj h
        simp only [if_pos hkey, List.filter_cons, hp]
        split <;> rfl
      · rename_i hkey
        simp only [if_neg hkey, List.filter_cons]
        split
        · rw [List.map_cons, List.map_cons, ih h]
        · exact ih h

theorem listening_within {α : Type} (f : Subscription → Subscription × α) :
    (x.within id f).1.listening listener = x.listening listener := by
  unfold within
  split
  · rfl
  · rename_i g hsome
    exact filter_put (p := fun f => f.listener = listener) hsome rfl

theorem listening_waitEach (depot : Depot) (now deadline : Nat)
    (entries : List (SliceId × Follower)) (heard : Table String (List Name)) (reached : List Digest) :
    ((waitEach H depot now deadline entries heard reached).1.filter
        (fun e => e.2.listener = listener)).map Prod.fst =
      (entries.filter (fun e => e.2.listener = listener)).map Prod.fst := by
  induction entries generalizing heard reached with
  | nil => rfl
  | cons e rest ih =>
      obtain ⟨key, f⟩ := e
      simp only [waitEach, waitFor, List.filter_cons]
      split
      · rw [List.map_cons, List.map_cons, ih]
      · exact ih _ _

/-- A slice is followed for a listener only if it was started for it. -/
theorem listening_on (x : Directory) (op : Op) :
    ((x.on H op).listening listener).Sublist (x.listening listener ++ op.startsFor H listener) := by
  have hsame : ∀ {ds : List SliceId}, ds = x.listening listener →
      ds.Sublist (x.listening listener ++ op.startsFor H listener) :=
    fun h => h ▸ List.sublist_append_left _ _
  cases op with
  | start slice listener' origin firstName =>
      simp only [on, start]
      split
      · exact hsame rfl
      · rename_i hcontains
        have hnone : Table.find (slice.id H) x.followers.entries = none := by
          simpa [Table.contains, Table.get?] using hcontains
        simp only [listening, Table.insert, put_of_find_none _ hnone, List.filter_append,
          List.map_append, Op.startsFor]
        refine List.Sublist.append (List.Sublist.refl _) ?_
        by_cases h : listener' = listener <;> simp [h]
  | stop id =>
      refine List.Sublist.trans ?_ (hsame rfl)
      exact (List.filter_sublist.filter _).map _
  | announce id d => exact hsame (listening_within _)
  | handIn id bytes => exact hsame (listening_within _)
  | content name bytes =>
      simp only [on, receiveContent]
      split
      · exact hsame rfl
      · exact hsame (listening_within _)
  | wait span => exact hsame (listening_waitEach _ _ _ _ _ _)
  | publish d bytes => exact hsame rfl

theorem listening_after (x : Directory) (ops : List Op) :
    ((x.after H ops).listening listener).Sublist
      (x.listening listener ++ ops.flatMap (Op.startsFor H listener)) := by
  induction ops generalizing x with
  | nil => simp
  | cons op rest ih =>
      rw [after_cons, List.flatMap_cons, ← List.append_assoc]
      exact (ih (x.on H op)).trans ((listening_on x op).append (List.Sublist.refl _))

theorem heardBy_waitEach (depot : Depot) (now deadline : Nat) (entries : List (SliceId × Follower))
    (heard : Table String (List Name)) (reached : List Digest) :
    ((waitEach H depot now deadline entries heard reached).2.1.get? listener).getD [] =
      (heard.get? listener).getD [] ++
        (entries.filter (fun e => e.2.listener = listener)).flatMap (fun e =>
          (e.2.subscription.wait H depot now deadline).told.drop e.2.subscription.told.length) := by
  induction entries generalizing heard reached with
  | nil => simp [waitEach]
  | cons e rest ih =>
      obtain ⟨key, f⟩ := e
      simp only [waitEach, waitFor, ih, hear, Table.get?_insert, List.filter_cons]
      by_cases h : f.listener = listener
      · simp [h, Subscription.told]
      · simp [h]

theorem heardBy_within {α : Type} (f : Subscription → Subscription × α) :
    (x.within id f).1.heardBy listener = x.heardBy listener := by
  unfold within
  split <;> rfl

/-- Only while time passes does anybody hear anything. -/
theorem heardBy_on (hop : ∀ span, op ≠ .wait span) :
    (x.on H op).heardBy listener = x.heardBy listener := by
  cases op with
  | start slice listener' origin firstName =>
      simp only [on, start]
      split <;> rfl
  | announce id d => exact heardBy_within _
  | handIn id bytes => exact heardBy_within _
  | content name bytes =>
      simp only [on, receiveContent]
      split
      · rfl
      · exact heardBy_within _
  | wait span => exact absurd rfl (hop span)
  | _ => rfl

/-- A listener for whom no slice is followed hears nothing. -/
theorem heardBy_of_unheard (h : x.listening listener = []) (op : Op) :
    (x.on H op).heardBy listener = x.heardBy listener := by
  by_cases hop : ∃ span, op = .wait span
  · obtain ⟨span, rfl⟩ := hop
    have hnone := List.map_eq_nil_iff.mp h
    have hwait := @heardBy_waitEach H listener x.depot x.clock (x.clock + span)
      x.followers.entries x.heard x.reached
    rw [hnone, List.flatMap_nil, List.append_nil] at hwait
    exact hwait
  · exact heardBy_on (fun span h => hop ⟨span, h⟩)

/-- Nor does it later, unless a slice is started for it. -/
theorem heardBy_after_of_unheard (h : x.listening listener = [])
    (hops : ∀ op ∈ ops, op.startsFor H listener = []) :
    (x.after H ops).heardBy listener = x.heardBy listener := by
  induction ops generalizing x with
  | nil => rfl
  | cons op rest ih =>
      have hon : (x.on H op).listening listener = [] := by
        have hsub := @listening_on H listener x op
        rw [h, hops op List.mem_cons_self] at hsub
        exact List.sublist_nil.mp hsub
      rw [after_cons, ih hon (fun op hop => hops op (List.mem_cons_of_mem _ hop)),
        heardBy_of_unheard h]

/-- A directory that nobody has used yet. -/
def opened (settings : Settings) (depot : Depot) : Directory := { settings, depot }

theorem isSome_within {α : Type} (f : Subscription → Subscription × α) :
    ((x.within id' f).1.followers.get? id).isSome = (x.followers.get? id).isSome := by
  rw [get?_within]
  split
  · exact Option.isSome_map
  · rfl

/-- A slice is followed from its start on until it is stopped. -/
theorem isSome_on_iff : ((x.on H op).followers.get? id).isSome ↔
    (∃ slice listener origin firstName,
      op = .start slice listener origin firstName ∧ slice.id H = id) ∨
      (x.followers.get? id).isSome ∧ op ≠ .stop id := by
  cases op with
  | start slice listener origin firstName =>
      rw [on, get?_start]
      split
      · rename_i h
        exact iff_of_true rfl (.inl ⟨slice, listener, origin, firstName, rfl, h⟩)
      · rename_i h
        simp [h]
  | stop id' =>
      by_cases hid : id' = id
      · simp [on, stop, hid]
      · simp [on, stop, hid]
  | announce id' d => simp [on, announce, isSome_within]
  | handIn id' bytes => simp [on, handIn, isSome_within]
  | content name bytes =>
      simp only [on, receiveContent]
      split
      · simp
      · simp [receive, isSome_within]
  | wait span => simp [on, get?_wait]
  | publish d bytes => simp [on, publish]

theorem followed_on (hop : op ≠ .stop id) (h : (x.followers.get? id).isSome) :
    ((x.on H op).followers.get? id).isSome :=
  isSome_on_iff.mpr (.inr ⟨h, hop⟩)

theorem followed_after (hops : .stop id ∉ ops) (h : (x.followers.get? id).isSome) :
    ((x.after H ops).followers.get? id).isSome := by
  induction ops generalizing x with
  | nil => exact h
  | cons op rest ih =>
      rw [List.mem_cons, not_or] at hops
      exact ih hops.2 (followed_on (Ne.symm hops.1) h)

theorem follower_within {α : Type} {f : Follower} {u : Subscription → Subscription × α}
    (hu : ∀ s, (u s).1.told = s.told) (h : (x.within id' u).1.followers.get? id = some f) :
    ∃ g, x.followers.get? id = some g ∧ g.listener = f.listener ∧
      f.subscription.told = g.subscription.told := by
  rw [get?_within] at h
  split at h
  · obtain ⟨g, hg, rfl⟩ := Option.map_eq_some_iff.mp h
    exact ⟨g, hg, rfl, hu _⟩
  · exact ⟨f, h, rfl, rfl⟩

/-- Apart from time passing, nothing makes a session hand anything out. A follower was there before,
or has just been started. -/
theorem follower_on {f : Follower} (hop : ∀ span, op ≠ .wait span)
    (h : (x.on H op).followers.get? id = some f) :
    (∃ g, x.followers.get? id = some g ∧ g.listener = f.listener ∧
      f.subscription.told = g.subscription.told) ∨
      x.followers.get? id = none ∧ op.startsFor H f.listener = [id] ∧ f.subscription.told = [] := by
  cases op with
  | start slice listener origin firstName =>
      rw [on, get?_start] at h
      split at h
      · rename_i hid
        cases hget : x.followers.get? id with
        | none =>
            rw [hget] at h
            obtain rfl := Option.some.inj h
            exact .inr ⟨rfl, by simp [Op.startsFor, hid], rfl⟩
        | some g =>
            rw [hget] at h
            obtain rfl := Option.some.inj h
            exact .inl ⟨_, rfl, rfl, rfl⟩
      · exact .inl ⟨f, h, rfl, rfl⟩
  | stop id' =>
      simp only [on, stop, Table.get?_erase] at h
      split at h
      · cases h
      · exact .inl ⟨f, h, rfl, rfl⟩
  | announce id' d => exact .inl (follower_within (Subscription.told_announce _ _) h)
  | handIn id' bytes => exact .inl (follower_within (fun _ => rfl) h)
  | content name bytes =>
      simp only [on, receiveContent] at h
      split at h
      · exact .inl ⟨f, h, rfl, rfl⟩
      · exact .inl (follower_within (Subscription.told_receive _ _ _) h)
  | wait span => exact absurd rfl (hop span)
  | publish d bytes => exact .inl ⟨f, h, rfl, rfl⟩

theorem prefix_wait (depot : Depot) (now deadline : Nat) (s : Subscription) :
    s.told <+: (s.wait H depot now deadline).told := by
  rw [Subscription.wait, Subscription.told_elapse]
  exact List.prefix_append _ _

/-- While time passes the only follower of a listener is heard. -/
theorem heardBy_wait {f : Follower} {span : Nat} (hf : x.followers.get? id = some f)
    (hlistening : (x.listening f.listener).length ≤ 1) :
    (x.wait H span).heardBy f.listener = x.heardBy f.listener ++
      (f.subscription.wait H x.depot x.clock (x.clock + span)).told.drop
        f.subscription.told.length := by
  have hmem : (id, f) ∈ x.followers.entries.filter (fun e => e.2.listener = f.listener) :=
    List.mem_filter.mpr ⟨Table.mem_of_find hf, by simp⟩
  have honly : x.followers.entries.filter (fun e => e.2.listener = f.listener) = [(id, f)] := by
    rw [listening, List.length_map] at hlistening
    obtain ⟨e, he⟩ := List.length_eq_one_iff.mp
      (le_antisymm hlistening (List.length_pos_of_mem hmem))
    rw [he] at hmem ⊢
    rw [List.mem_singleton.mp hmem]
  have hwait := @heardBy_waitEach H f.listener x.depot x.clock (x.clock + span)
    x.followers.entries x.heard x.reached
  rw [honly, List.flatMap_singleton] at hwait
  exact hwait

/-- A listener that was given to one start only has heard what the session of that start handed out,
and nothing before. -/
theorem heardBy_after (settings : Settings) (depot : Depot) (ops : List Op)
    (honce : (ops.flatMap (Op.startsFor H listener)).length ≤ 1) :
    (ops.flatMap (Op.startsFor H listener) = [] →
      ((opened settings depot).after H ops).heardBy listener = []) ∧
      ∀ id f, ((opened settings depot).after H ops).followers.get? id = some f →
        f.listener = listener →
        ((opened settings depot).after H ops).heardBy listener = f.subscription.told := by
  have hlistening : ∀ ops : List Op, (((opened settings depot).after H ops).listening listener).Sublist
      (ops.flatMap (Op.startsFor H listener)) := fun ops => listening_after (opened settings depot) ops
  induction ops using List.reverseRecOn with
  | nil => exact ⟨fun _ => rfl, fun id f hf => nomatch hf⟩
  | append_singleton ops op ih =>
      rw [List.flatMap_append, List.flatMap_singleton] at honce ⊢
      obtain ⟨hnone, hsome⟩ := ih (le_trans (by simp) honce)
      have hbefore := hlistening ops
      rw [after_concat]
      generalize (opened settings depot).after H ops = x at hnone hsome hbefore
      have hlength : (x.listening listener).length ≤ 1 :=
        hbefore.length_le.trans (le_trans (by simp) honce)
      refine ⟨fun hstarts => ?_, fun id f hf hl => ?_⟩
      · have hops := (List.append_eq_nil_iff.mp hstarts).1
        rw [hops] at hbefore
        rw [heardBy_of_unheard (List.sublist_nil.mp hbefore), hnone hops]
      · subst hl
        by_cases hop : ∃ span, op = .wait span
        · obtain ⟨span, rfl⟩ := hop
          rw [on, get?_wait] at hf
          obtain ⟨g, hg, rfl⟩ := Option.map_eq_some_iff.mp hf
          obtain ⟨names, hnames⟩ := prefix_wait (H := H) x.depot x.clock (x.clock + span) g.subscription
          rw [on, heardBy_wait hg hlength, hsome id g hg rfl, ← hnames, List.drop_left]
        · have hop : ∀ span, op ≠ .wait span := fun span h => hop ⟨span, h⟩
          rw [heardBy_on hop]
          rcases follower_on hop hf with ⟨g, hg, hlistener, htold⟩ | ⟨hfresh, hstarts, htold⟩
          · rw [hsome id g hg hlistener, htold]
          · rw [hstarts, List.length_append, List.length_singleton] at honce
            rw [hnone (List.length_eq_zero_iff.mp (by omega)), htold]

/-! ## The present session -/

theorem concerning_sublist (H : Hashing) (id : SliceId) (ops : List Op) :
    (concerning H id ops).Sublist ops := by
  induction ops with
  | nil => exact .slnil
  | cons op rest ih =>
      rw [concerning]
      split
      · exact ih.cons_cons op
      · exact ih.cons op

/-- What a session has handed out is what its account says. -/
theorem names_account {f : Follower} {told : List (Nat × Name)}
    (htold : ∀ g, x.followers.get? id = some g → told.map Prod.snd = g.subscription.told)
    (hnone : x.followers.get? id = none → told = [])
    (h : (x.after H ops).followers.get? id = some f) :
    (account H id x told ops).map Prod.snd = f.subscription.told := by
  induction ops generalizing x told with
  | nil => exact htold f h
  | cons op rest ih =>
      rw [after_cons] at h
      rw [account]
      refine ih (fun g hg => ?_) (fun hg => ?_) h
      · by_cases hstop : op = .stop id
        · subst hstop
          simp [on, stop] at hg
        · rw [if_neg hstop]
          by_cases hop : ∃ span, op = .wait span
          · obtain ⟨span, rfl⟩ := hop
            rw [on, get?_wait] at hg
            obtain ⟨g', hg', rfl⟩ := Option.map_eq_some_iff.mp hg
            simp only [tellings, subscription?, hg', Option.map_some, List.map_append,
              htold g' hg', Subscription.wait, Subscription.told_elapse]
          · have hop : ∀ span, op ≠ .wait span := fun span h => hop ⟨span, h⟩
            have htellings : x.tellings H id op = [] := by
              cases op with
              | wait span => exact absurd rfl (hop span)
              | _ => rfl
            rw [htellings, List.append_nil]
            rcases follower_on hop hg with ⟨g', hg', -, hsame⟩ | ⟨hfresh, -, hsame⟩
            · rw [htold g' hg', hsame]
            · rw [hnone hfresh, hsame, List.map_nil]
      · by_cases hstop : op = .stop id
        · rw [if_pos hstop]
        · have hbefore : x.followers.get? id = none := by
            by_contra hsome
            have hon := followed_on (H := H) hstop (Option.isSome_iff_ne_none.mpr hsome)
            rw [hg] at hon
            cases hon
          rw [if_neg hstop, tellings_none hbefore, hnone hbefore, List.append_nil]

theorem listening_stop (x : Directory) (id : SliceId) :
    (x.on H (.stop id)).listening listener = (x.listening listener).filter (· ≠ id) := by
  simp only [on, stop, listening, Table.erase, List.filter_filter, List.filter_map, Function.comp_def,
    Bool.and_comm]

/-- Sessions do not disturb each other. Whatever is done with a directory, the session of a slice that
is followed is the one that it would be if nothing had been done but what concerns it: it has the same
state, counts and baseline, and has handed out the same names at the same times. A listener of its own
hears these names, and nothing more once the slice is stopped. -/
theorem sessions_isolated (H : Hashing) (settings : Settings) (depot : Depot) (ops : List Op)
    (id : SliceId) (f : Follower)
    (hf : ((opened settings depot).after H ops).followers.get? id = some f) :
    ((opened settings depot).after H (concerning H id ops)).followers.get? id = some f ∧
      account H id (opened settings depot) [] (concerning H id ops) =
        account H id (opened settings depot) [] ops ∧
      (account H id (opened settings depot) [] ops).map Prod.snd = f.subscription.told ∧
      (ops.flatMap (Op.startsFor H f.listener) = [id] →
        ((opened settings depot).after H ops).heardBy f.listener = f.subscription.told ∧
        ((opened settings depot).after H (concerning H id ops)).heardBy f.listener =
          f.subscription.told ∧
        ∀ later : List Op, (∀ op ∈ later, op.startsFor H f.listener = []) →
          ((opened settings depot).after H (ops ++ .stop id :: later)).heardBy f.listener =
            f.subscription.told) := by
  have habreast : Abreast id ops (opened settings depot) [] (opened settings depot) [] := by
    refine ⟨rfl, ?_, (ite_self _).symm⟩
    rw [opened, Table.get?_empty, ite_self]
  obtain ⟨hfollower, haccount⟩ := habreast.after (H := H)
  refine ⟨hfollower.trans hf, haccount, ?_, fun honce => ?_⟩
  · refine names_account (fun g hg => ?_) (fun _ => rfl) hf
    rw [opened, Table.get?_empty] at hg
    cases hg
  · have hown : ((concerning H id ops).flatMap (Op.startsFor H f.listener)).length ≤ 1 := by
      have hsub := ((concerning_sublist H id ops).flatMap (Op.startsFor H f.listener)).length_le
      rwa [honce] at hsub
    have hheard := (heardBy_after settings depot ops (by rw [honce]; rfl)).2 id f hf rfl
    refine ⟨hheard, (heardBy_after settings depot _ hown).2 id f (hfollower.trans hf) rfl, ?_⟩
    intro later hlater
    have hunheard : (((opened settings depot).after H ops).on H (.stop id)).listening f.listener =
        [] := by
      have hsub := @listening_after H f.listener (opened settings depot) ops
      rw [honce] at hsub
      rw [listening_stop]
      refine List.filter_eq_nil_iff.mpr (fun i hi => ?_)
      have hid : i = id := List.mem_singleton.mp (hsub.subset hi)
      simp [hid]
    rw [after_append, after_cons, heardBy_after_of_unheard hunheard hlater,
      heardBy_on (fun span h => Op.noConfusion h), hheard]

end Directory

namespace Sample

/-- Thirty-two bytes, those from the eighteenth on. -/
def cropped : Hashing := fun bytes => ⟨((bytes.drop 17) ++ List.replicate 32 0).take 32⟩

def upper : Slice := { region := ⟨[[114]]⟩, base := ⟨[[117]]⟩ }

def lower : Slice := { region := ⟨[[114]]⟩, base := ⟨[[108]]⟩ }

/-- A slice is followed anew while its first session has a fetch under way, and another slice is
followed meanwhile. -/
def restarted : List Directory.Op :=
  [ .start upper "early" .empty none
  , .start lower "aside" .empty none
  , .announce (upper.id cropped) ⟨[1]⟩
  , .wait 200
  , .stop (upper.id cropped)
  , .start upper "late" .empty none
  , .content (lower.fetchName cropped ⟨[2]⟩) [2]
  , .content (upper.fetchName cropped ⟨[2]⟩) [3]
  , .wait 60000 ]

open Directory in
theorem restarted_isolated :
    ∃ f, ((opened {} ⟨.empty, 500⟩).after cropped restarted).followers.get? (upper.id cropped) =
        some f ∧
      ((opened {} ⟨.empty, 500⟩).after cropped
        [ .wait 200
        , .start upper "late" .empty none
        , .content (upper.fetchName cropped ⟨[2]⟩) [3]
        , .wait 60000 ]).followers.get? (upper.id cropped) = some f := by
  have hstarted : ∀ x : Directory,
      ((x.on cropped (.start upper "late" .empty none)).followers.get? (upper.id cropped)).isSome := by
    intro x
    rw [on, get?_start, if_pos rfl]
    rfl
  have hkept : .stop (upper.id cropped) ∉ restarted.drop 6 := by decide
  obtain ⟨f, hf⟩ := Option.isSome_iff_exists.mp
    (followed_after hkept (hstarted ((opened {} ⟨.empty, 500⟩).after cropped (restarted.take 5))))
  have hisolated := sessions_isolated cropped {} ⟨.empty, 500⟩ restarted (upper.id cropped) f hf
  have hconcerning : concerning cropped (upper.id cropped) restarted =
      [ .wait 200
      , .start upper "late" .empty none
      , .content (upper.fetchName cropped ⟨[2]⟩) [3]
      , .wait 60000 ] := by decide
  exact ⟨f, hf, hconcerning ▸ hisolated.1⟩

end Sample

end Reconcile

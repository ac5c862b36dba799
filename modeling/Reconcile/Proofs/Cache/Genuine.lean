import Reconcile.Cache
import Reconcile.Proofs.Node.Written

/-! # The cache holds genuine nodes

Bytes are taken from anyone, but only those that a digest stands for are ever decoded under it. No
operation but the marking of a digest changes what is known in full. -/

namespace Reconcile

variable {H : Hashing}

/-! ## Slots -/

namespace Slot

/-- A decoded node in the slot of a digest is one that the digest denotes. -/
def Genuine (H : Hashing) (d : Digest) (s : Slot) : Prop := ∀ n, s.node? = some n → Denotes H d n

theorem Genuine.setPending {d : Digest} {s : Slot} (h : s.Genuine H d) (pending : Bool) :
    (s.setPending pending).Genuine H d := h

theorem Genuine.markKnown {d : Digest} {s : Slot} (h : s.Genuine H d) :
    s.markKnown.Genuine H d := h

theorem Genuine.fail {d : Digest} {s : Slot} (h : s.Genuine H d) (reason : String) :
    (s.fail reason).Genuine H d := by
  intro n hn
  cases hbody : s.body <;> simp [Slot.fail, node?, hbody] at hn
  exact h n (by simp [node?, hbody, hn])

theorem Genuine.holdBytes {d : Digest} {s : Slot} (h : s.Genuine H d) (bytes : Bytes) :
    (s.holdBytes bytes).Genuine H d := by
  intro n hn
  cases hbody : s.body <;> simp [Slot.holdBytes, node?, hbody] at hn
  exact h n (by simp [node?, hbody, hn])

theorem Genuine.look {d : Digest} {s : Slot} (h : s.Genuine H d) : (s.look H d).Genuine H d := by
  intro n hn
  cases hbody : s.body with
  | bytes bytes =>
      cases hdecode : Node.decodeAs H d bytes with
      | error e => simp [Slot.look, hbody, hdecode, Slot.fail, node?] at hn
      | ok m =>
          simp [Slot.look, hbody, hdecode, node?] at hn
          exact hn ▸ .of_decodeAs hdecode
  | empty | node m | spoilt =>
      exact h n (by simpa [Slot.look, hbody] using hn)

theorem genuine_holdNode {d : Digest} {n : Node} (hn : Denotes H d n) (s : Slot) :
    (s.holdNode n).Genuine H d := by
  intro m hm
  obtain rfl : n = m := by simpa [holdNode, node?] using hm
  exact hn

@[simp] theorem known_setPending (s : Slot) (pending : Bool) :
    (s.setPending pending).known = s.known := rfl

@[simp] theorem known_holdNode (s : Slot) (n : Node) : (s.holdNode n).known = s.known := rfl

@[simp] theorem known_fail (s : Slot) (reason : String) : (s.fail reason).known = s.known := rfl

@[simp] theorem known_holdBytes (s : Slot) (bytes : Bytes) :
    (s.holdBytes bytes).known = s.known := by
  cases hbody : s.body <;> simp [holdBytes, hbody]

@[simp] theorem known_look (s : Slot) (d : Digest) : (s.look H d).known = s.known := by
  cases hbody : s.body with
  | bytes bytes => cases hdecode : Node.decodeAs H d bytes <;> simp [look, hbody, hdecode]
  | empty | node m | spoilt => simp [look, hbody]

end Slot

/-! ## The cache -/

namespace Cache

/-- Every decoded node is one that its digest denotes. -/
def Genuine (H : Hashing) (c : Cache) : Prop := ∀ d, (c.slot d).Genuine H d

/-- One cache is as good as another: its nodes are genuine too, and the same is known in full. -/
structure Keeps (H : Hashing) (c c' : Cache) : Prop where
  genuine : c.Genuine H → c'.Genuine H
  known : ∀ d, c'.known d = c.known d

theorem Keeps.refl (c : Cache) : Keeps H c c := ⟨id, fun _ => rfl⟩

theorem Keeps.trans {c c' c'' : Cache} (h : Keeps H c c') (h' : Keeps H c' c'') : Keeps H c c'' :=
  ⟨h'.genuine ∘ h.genuine, fun d => (h'.known d).trans (h.known d)⟩

theorem genuine_modify {c : Cache} {d : Digest} {f : Slot → Slot} (h : c.Genuine H)
    (hf : (f (c.slot d)).Genuine H d) : (c.modify d f).Genuine H := by
  intro e
  rw [slot_modify]
  split
  · rename_i hd
    exact hd ▸ hf
  · exact h e

theorem keeps_modify {c : Cache} {d : Digest} {f : Slot → Slot}
    (hgenuine : (c.slot d).Genuine H d → (f (c.slot d)).Genuine H d)
    (hknown : (f (c.slot d)).known = (c.slot d).known) : Keeps H c (c.modify d f) := by
  refine ⟨fun h => genuine_modify h (hgenuine (h d)), ?_⟩
  intro e
  simp only [known, slot_modify]
  split
  · rename_i hd
    rw [hknown, hd]
  · rfl

theorem slot_ofAttempts (attempts : Nat) (d : Digest) : (ofAttempts attempts).slot d = {} := rfl

theorem genuine_ofAttempts (attempts : Nat) : (ofAttempts attempts).Genuine H := by
  intro d n hn
  rw [slot_ofAttempts] at hn
  cases hn

theorem known_ofAttempts (attempts : Nat) (d : Digest) : (ofAttempts attempts).known d = false :=
  rfl

theorem genuine_markKnown {c : Cache} (d : Digest) (h : c.Genuine H) : (c.markKnown d).Genuine H :=
  genuine_modify h (h d).markKnown

theorem known_markKnown (c : Cache) (d e : Digest) :
    (c.markKnown d).known e = (decide (d = e) || c.known e) := by
  simp only [known, markKnown, slot_modify]
  split <;> simp [Slot.markKnown, *]

/-! ### Looking -/

/-- A look mentions no digest, so the slot of one that was never mentioned is left out. -/
theorem look_fst (c : Cache) (d : Digest) :
    (c.look H d).1 = c ∨ (c.look H d).1 = c.modify d (Slot.look H d) := by
  unfold look modify slot
  cases hget : c.slots.get? d with
  | none => exact .inl rfl
  | some s => exact .inr rfl

theorem look_snd (c : Cache) (d : Digest) :
    (c.look H d).2 = view c.limit ((c.slot d).look H d) := by
  unfold look slot
  cases hget : c.slots.get? d with
  | none => rfl
  | some s => rfl

theorem keeps_look (c : Cache) (d : Digest) : Keeps H c (c.look H d).1 := by
  rcases c.look_fst d with h | h
  · rw [h]
    exact .refl c
  · rw [h]
    exact keeps_modify Slot.Genuine.look (Slot.known_look _ d)

/-- One cache becomes another by nothing but looks. -/
inductive Looks (H : Hashing) (c : Cache) : Cache → Prop
  | refl : Looks H c c
  | look {c' : Cache} (before : Looks H c c') (d : Digest) : Looks H c (c'.look H d).1

theorem Looks.trans {c c' c'' : Cache} (h : Looks H c c') (h' : Looks H c' c'') :
    Looks H c c'' := by
  induction h' with
  | refl => exact h
  | look _ d ih => exact ih.look d

theorem Looks.keeps {c c' : Cache} (h : Looks H c c') : Keeps H c c' := by
  induction h with
  | refl => exact .refl c
  | look _ d ih => exact ih.trans (keeps_look _ d)

theorem denotes_of_look {c : Cache} (hc : c.Genuine H) {d : Digest} {n : Node}
    (h : (c.look H d).2 = .present n) : Denotes H d n := by
  rw [look_snd] at h
  refine (hc d).look n ?_
  unfold view at h
  split at h
  · rename_i m hbody
    simp only [Finding.present.injEq] at h
    simp [Slot.node?, hbody, h]
  · cases h
  · cases h
  · cases h

/-! ### Asking for nodes and taking them -/

theorem keeps_request (c : Cache) (d : Digest) (refusal : Option FetchFailure) :
    Keeps H c (c.request d refusal).1 := by
  unfold request
  cases c.obstacle? d with
  | some r => exact keeps_modify id rfl
  | none =>
      cases refusal with
      | none =>
          dsimp only
          exact keeps_modify (fun h => h.setPending true) rfl
      | some e =>
          dsimp only
          exact keeps_modify (fun h => h.setPending false) rfl

theorem keeps_complete (c : Cache) (d : Digest) (result : Except FetchFailure Bytes) :
    Keeps H c (c.complete d result).1 := by
  unfold complete
  dsimp only
  split
  · dsimp only
    exact keeps_modify (fun h => h.setPending false) rfl
  · cases result with
    | error e =>
        dsimp only
        exact keeps_modify (fun h => (h.setPending false).fail e.message) rfl
    | ok bytes =>
        dsimp only
        exact keeps_modify (fun h => (h.setPending false).holdBytes bytes) (by simp)

/-- What the slot of handed-in bytes comes to. -/
def taken (H : Hashing) (c : Cache) (bytes : Bytes) : Slot :=
  let s := c.slot (H bytes)
  (if s.isFilled then s else s.holdBytes bytes).look H (H bytes)

theorem putBytes_fst (c : Cache) (bytes : Bytes) :
    (c.putBytes H bytes).1 = c.modify (H bytes) (fun _ => c.taken H bytes) := by
  unfold putBytes taken
  dsimp only
  split
  · rfl
  · split <;> rfl

theorem genuine_taken {c : Cache} {bytes : Bytes} (h : (c.slot (H bytes)).Genuine H (H bytes)) :
    (c.taken H bytes).Genuine H (H bytes) := by
  unfold taken
  dsimp only
  split
  · exact h.look
  · exact (h.holdBytes bytes).look

theorem keeps_putBytes (c : Cache) (bytes : Bytes) : Keeps H c (c.putBytes H bytes).1 := by
  rw [putBytes_fst]
  refine keeps_modify genuine_taken ?_
  unfold taken
  dsimp only
  split <;> simp

/-- Bytes that are taken as a node go by their own digest, which denotes a node. -/
theorem denotes_of_putBytes {c : Cache} (hc : c.Genuine H) {bytes : Bytes} {d : Digest}
    (h : (c.putBytes H bytes).2 = .ok d) : d = H bytes ∧ ∃ n, Denotes H (H bytes) n := by
  cases hnode : (c.taken H bytes).node? with
  | none =>
      unfold putBytes at h
      unfold taken at hnode
      dsimp only at h hnode
      rw [hnode] at h
      dsimp only at h
      split at h <;> cases h
  | some n =>
      have hn := genuine_taken (hc (H bytes)) n hnode
      unfold putBytes at h
      unfold taken at hnode
      dsimp only at h hnode
      rw [hnode] at h
      exact ⟨(Except.ok.inj h).symm, n, hn⟩

theorem keeps_putNode (c : Cache) (n : Node) : Keeps H c (c.putNode H n).1 := by
  unfold putNode
  dsimp only
  split
  · exact keeps_modify Slot.Genuine.look (Slot.known_look _ _)
  · refine keeps_modify (fun _ => Slot.genuine_holdNode (denotes_digest H n) _) ?_
    simp

end Cache

end Reconcile

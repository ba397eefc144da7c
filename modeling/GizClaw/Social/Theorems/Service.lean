import GizClaw.KV.Theorems.Typed
import GizClaw.Social.Service

-- What a call knows after each of its actions, for any invariant of the shared state.

namespace GizClaw.Social

open Interleaving
open PendingDeletion (Text Time)
open KV.Typed (Mutation Effect)

variable {κ ν α : Type} [DecidableEq κ] [DecidableEq ν]

-- A mutation went through. It changes nothing but the store and the revisions handed out.
structure Applied (m : Mutation κ ν Text) (s s' : State κ ν) : Prop where
  mutation : s.store.applyMutation m = .ok (some s'.store)
  names : s'.names = s.names
  workspaces : s'.workspaces = s.workspaces
  revisions : s.revisions ⊆ s'.revisions

theorem Applied.names_le {s s' : State κ ν} (h : Applied m s s') (w : Text) (t : Text × Text)
    (hw : s.names w = some t) : s'.names w = some t := by
  rw [h.names]
  exact hw

-- A mutation goes through, with or without a reply, or nothing happens.
theorem State.apply_cases {s s' : State κ ν} {revisions : List Text}
    (h : Effect s (s.apply m revisions).snd (s.apply m revisions).fst r s') :
    (Applied m s s' ∧ revisions.toFinset ⊆ s'.revisions ∧
      (s.apply m revisions).fst = .ok true ∧ r ≠ .ok false) ∨
    (s' = s ∧ r ≠ .ok true ∧ (r = .ok false → s.store.applyMutation m = .ok none)) := by
  unfold State.apply at h ⊢
  split at h
  case h_1 σ hσ =>
    have ha : Applied m s
        { s with store := σ, revisions := s.revisions ∪ revisions.toFinset } :=
      ⟨hσ, rfl, rfl, Finset.subset_union_left⟩
    cases h
    case failed => exact .inr ⟨rfl, nofun, nofun⟩
    case replyLost message | done => exact .inl ⟨ha, Finset.subset_union_right, rfl, nofun⟩
  case h_2 hσ =>
    cases h
    case failed message | replyLost message => exact .inr ⟨rfl, nofun, nofun⟩
    case done => exact .inr ⟨rfl, nofun, fun _ => hσ⟩
  case h_3 =>
    cases h
    case failed message | replyLost message | done => exact .inr ⟨rfl, nofun, nofun⟩

-- The actions of `Does`, of which mutations that go through satisfy `C` and Workspaces that are
-- created satisfy `W`.
def Guarded (P : Platform) (C : State κ ν → Mutation κ ν Text → Prop)
    (W : State κ ν → Workspace → Prop) : Exec (Act κ ν) Reply (State κ ν)
  | .apply draws m, s, r, s' => ∃ revisions, s.Fresh draws revisions ∧
      ((s.apply (m revisions) revisions).fst = .ok true → C s (m revisions)) ∧
      Effect s (s.apply (m revisions) revisions).snd (s.apply (m revisions) revisions).fst r s'
  | .createSystemWorkspace w, s, r, s' => W s w ∧ Does P (.createSystemWorkspace w) s r s'
  | a, s, r, s' => Does P a s r s'

-- Without conditions nothing is left out.
theorem Guarded.of_does (hC : ∀ s m, C s m) (hW : ∀ s w, W s w) (a : Act κ ν) (s : State κ ν)
    (r : Reply a) (s' : State κ ν) (h : Does P a s r s') : Guarded P C W a s r s' := by
  cases a
  case apply =>
    obtain ⟨revisions, hf, he⟩ := h
    exact ⟨revisions, hf, fun _ => hC s _, he⟩
  case createSystemWorkspace w => exact ⟨hW s w, h⟩
  all_goals exact h

theorem Guarded.does {s' : State κ ν} (h : Guarded P C W a s r s') : Does P a s r s' := by
  cases a
  case apply =>
    obtain ⟨revisions, hf, -, he⟩ := h
    exact ⟨revisions, hf, he⟩
  case createSystemWorkspace => exact h.right
  all_goals exact h

section Perform

variable (P : Platform) (C : State κ ν → Mutation κ ν Text → Prop)
  (W : State κ ν → Workspace → Prop)
variable [∀ s m, Decidable (C s m)] [∀ s w, Decidable (W s w)]

def performGuarded (ch : Choice) : (a : Act κ ν) → State κ ν → Option (Reply a × State κ ν)
  | .apply draws m, s =>
    if C s (m ch.revisions) then perform P ch (.apply draws m) s else none
  | .createSystemWorkspace w, s =>
    if W s w then perform P ch (.createSystemWorkspace w) s else none
  | a, s => perform P ch a s

variable {P C W}

theorem guarded_of_perform (ch : Choice) (a : Act κ ν) (s : State κ ν) (r : Reply a)
    (s' : State κ ν) (h : performGuarded P C W ch a s = some (r, s')) : Guarded P C W a s r s' := by
  cases a
  case apply =>
    simp only [performGuarded, perform, Option.ite_none_right_eq_some, Option.some.injEq] at h
    refine ⟨ch.revisions, h.right.left, fun _ => h.left, ?_⟩
    rw [h.right.right]
    exact .done
  case createSystemWorkspace =>
    simp only [performGuarded, Option.ite_none_right_eq_some] at h
    exact ⟨h.left, does_of_perform P ch _ s r s' h.right⟩
  all_goals exact does_of_perform P ch _ s r s' h

end Perform

variable {P : Platform} {C : State κ ν → Mutation κ ν Text → Prop}
  {W : State κ ν → Workspace → Prop}
variable {Inv : State κ ν → Prop} {Next : State κ ν → State κ ν → Prop} {s : State κ ν}
variable (hrefl : ∀ s, Next s s)

include hrefl

section Reads

variable {k : κ}

theorem safe_load (h : ∀ s₁ v, Next s s₁ → Inv s₁ → s₁.store k = v.map .record → Q s₁ v) :
    SafeOk (Guarded P C W) Inv Next Q s (load k) := by
  intro s₁ hn hi r s₂ he
  cases he
  case failed message | replyLost message => exact ⟨hi, hrefl _, fun _ h => nomatch h⟩
  case done =>
    refine ⟨hi, hrefl _, ?_⟩
    have hv := fun v => h s₁ v hn hi
    cases hg : s₁.store.get k
    case ok =>
      intro a ha
      cases ha
      exact hv _ (KV.Typed.Store.get_eq_ok.mp hg)
    case error err =>
      cases err
      case notFound =>
        intro a ha
        cases ha
        exact hv none (KV.Typed.Store.get_eq_notFound.mp hg)
      all_goals exact fun _ h => nomatch h

theorem safe_readJSONValue {Q : State κ ν → Option α → Prop}
    (hnone : ∀ s₁, Next s s₁ → Inv s₁ → s₁.store k = none → Q s₁ none)
    (hsome : ∀ s₁ v a, Next s s₁ → Inv s₁ → s₁.store k = some (.record v) → decode v = some a →
      Q s₁ (some a)) : SafeOk (Guarded P C W) Inv Next Q s (readJSONValue decode k) := by
  refine .bind (safe_load hrefl fun s₁ v hn hi hv => And.intro hn (And.intro hi hv)) ?_
  rintro s₁ v ⟨hn, hi, hv⟩
  cases v
  case none => exact .pure (hnone s₁ hn hi hv)
  case some v =>
    simp only
    split
    case h_1 a ha => exact .pure (hsome s₁ v a hn hi hv ha)
    case h_2 => exact .throw

theorem safe_listMembers (h : ∀ s₁, Next s s₁ → Inv s₁ → Q s₁ (s₁.store.members false k)) :
    SafeOk (Guarded P C W) Inv Next Q s (listMembers k) := by
  intro s₁ hn hi r s₂ he
  cases he
  case failed message | replyLost message => exact ⟨hi, hrefl _, fun _ h => nomatch h⟩
  case done =>
    refine ⟨hi, hrefl _, fun a ha => ?_⟩
    have hq := h s₁ hn hi
    unfold KV.Typed.Store.members at hq
    unfold KV.Typed.Store.listMembers at ha
    split at ha
    case h_1 hk | h_2 s hk => cases ha; rwa [hk] at hq
    case h_3 => cases ha

theorem safe_now (h : ∀ s₁ t, Next s s₁ → Inv s₁ → Q s₁ t) :
    SafeOk (Guarded P C W) Inv Next Q s now := by
  rintro s₁ hn hi t s₂ rfl
  refine ⟨hi, hrefl _, fun a ha => ?_⟩
  cases ha
  exact h _ t hn hi

theorem safe_newRoomToken (h : ∀ s₁ t, Next s s₁ → Inv s₁ → Q s₁ t) :
    SafeOk (Guarded P C W) Inv Next Q s newRoomToken := by
  rintro s₁ hn hi t s₂ rfl
  exact ⟨hi, hrefl _, fun a _ => h _ a hn hi⟩

theorem safe_peerAvailability (h : ∀ s₁, Next s s₁ → Inv s₁ → P.isPublicKey peer → Q s₁ ()) :
    SafeOk (Guarded P C W) Inv Next Q s (peerAvailability peer) := by
  rintro s₁ hn hi r s₂ ⟨hp, rfl⟩
  refine ⟨hi, hrefl _, fun a ha => ?_⟩
  cases r
  case error => cases ha
  case ok => exact h _ hn hi (hp rfl)

end Reads

section Writes

variable {n : Nat} {m : List Text → Mutation κ ν Text}

-- The mutation keeps the invariant whenever it goes through.
theorem safe_applyDrawn {Q : State κ ν → Bool → Prop}
    (ht : ∀ s₁ s₂ revisions, Next s s₁ → Inv s₁ → s₁.Fresh n revisions → C s₁ (m revisions) →
      Applied (m revisions) s₁ s₂ → revisions.toFinset ⊆ s₂.revisions →
      Inv s₂ ∧ Next s₁ s₂ ∧ Q s₂ true) (hf : ∀ s₁, Next s s₁ → Inv s₁ → Q s₁ false) :
    SafeOk (Guarded P C W) Inv Next Q s (applyDrawn n m) := by
  rintro s₁ hn hi r s₂ ⟨revisions, hfresh, hC, he⟩
  rcases State.apply_cases he with ⟨ha, hsub, hok, hr⟩ | ⟨rfl, hr, -⟩
  case inl =>
    have ⟨hi', hn', hq⟩ := ht s₁ s₂ revisions hn hi hfresh (hC hok) ha hsub
    refine ⟨hi', hn', fun b hb => ?_⟩
    cases r <;> cases hb
    cases b
    case false => exact absurd rfl hr
    case true => exact hq
  case inr =>
    refine ⟨hi, hrefl _, fun b hb => ?_⟩
    cases r <;> cases hb
    cases b
    case false => exact hf _ hn hi
    case true => exact absurd rfl hr

theorem safe_apply {m : Mutation κ ν Text}
    (ht : ∀ s₁ s₂, Next s s₁ → Inv s₁ → C s₁ m → Applied m s₁ s₂ → Inv s₂ ∧ Next s₁ s₂ ∧ Q s₂ true)
    (hf : ∀ s₁, Next s s₁ → Inv s₁ → Q s₁ false) : SafeOk (Guarded P C W) Inv Next Q s (apply m) :=
  safe_applyDrawn hrefl (fun s₁ s₂ _ hn hi _ hC ha _ => ht s₁ s₂ hn hi hC ha) hf

omit hrefl in
theorem safe_newID
    (h : ∀ s₁ id, Next s s₁ → Inv s₁ → s₁.names (name id) = none →
      Inv (s₁.mint scope (name id) id) ∧ Next s₁ (s₁.mint scope (name id) id) ∧
      Q (s₁.mint scope (name id) id) id) :
    SafeOk (Guarded P C W) Inv Next Q s (newID scope name) := by
  rintro s₁ hn hi id s₂ ⟨hfree, rfl⟩
  have ⟨hi, hn, hq⟩ := h s₁ id hn hi hfree
  refine ⟨hi, hn, fun a ha => ?_⟩
  cases ha
  exact hq

theorem safe_createSystemWorkspace
    (h : ∀ s₁, Next s s₁ → Inv s₁ → W s₁ w → Inv (s₁.create w).snd ∧ Next s₁ (s₁.create w).snd ∧
      Q (s₁.create w).snd (s₁.create w).fst) :
    SafeOk (Guarded P C W) Inv Next Q s (createSystemWorkspace w) := by
  rintro s₁ hn hi r s₂ ⟨hW, he⟩
  have ⟨hi', hn', hq⟩ := h s₁ hn hi hW
  cases he
  case failed => exact ⟨hi, hrefl _, fun _ h => nomatch h⟩
  case replyLost => exact ⟨hi', hn', fun _ h => nomatch h⟩
  case done =>
    refine ⟨hi', hn', fun a ha => ?_⟩
    cases ha
    exact hq

-- What is left has no Workspace of this name.
theorem safe_deleteSystemWorkspace
    (h : ∀ s₁, Next s s₁ → Inv s₁ → Inv (s₁.delete name).snd ∧ Next s₁ (s₁.delete name).snd ∧
      Q (s₁.delete name).snd ()) :
    SafeOk (Guarded P C W) Inv Next Q s (deleteSystemWorkspace name) := by
  intro s₁ hn hi r s₂ he
  have ⟨hi', hn', hq⟩ := h s₁ hn hi
  cases he
  case failed => exact ⟨hi, hrefl _, fun _ h => nomatch h⟩
  case replyLost => exact ⟨hi', hn', fun _ h => nomatch h⟩
  case done =>
    refine ⟨hi', hn', ?_⟩
    have hr : (s₁.delete name).fst = .ok () ∨ (s₁.delete name).fst = .error .notFound := by
      unfold State.delete
      split
      · exact .inl rfl
      · exact .inr rfl
    rcases hr with hr | hr <;> rw [hr] <;> exact fun _ _ => hq

theorem safe_retireSystemWorkspaceByID {id : Text}
    (h : ∀ s₁, Next s s₁ → Inv s₁ → Inv (s₁.retire id) ∧ Next s₁ (s₁.retire id) ∧
      Q (s₁.retire id) ()) :
    SafeOk (Guarded P C W) Inv Next Q s (retireSystemWorkspaceByID id) := by
  intro s₁ hn hi r s₂ he
  have ⟨hi', hn', hq⟩ := h s₁ hn hi
  cases he
  case failed => exact ⟨hi, hrefl _, fun _ h => nomatch h⟩
  case replyLost => exact ⟨hi', hn', fun _ h => nomatch h⟩
  case done => exact ⟨hi', hn', fun _ _ => hq⟩

end Writes

end GizClaw.Social

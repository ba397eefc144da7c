import GizClaw.Friend.Theorems.Calls
import GizClaw.Lib.Exclusive

-- Which relation a call is about. What tells how far the relation's creation has come is changed by
-- calls about this relation only.

namespace GizClaw.Friend

open Interleaving
open PendingDeletion (Text Time)
open Social hiding Call

attribute [local simp] deleteIntentMutation creationIntentKey KV.Typed.Mutation.groups
  RecoveryIndex.remove Work.index completeMutation retirementIntentKey retireMutation
  RecoveryIndex.add friendCollectionKey adminFriendMembership friendPageMembership friendPageKey
  cancelMutation createIntentMutation

-- The relation that a key is part of, for keys that tell how far a creation has come.
def Key.relation? : Key → Option Text
  | friend _ x => some x
  | creationIntent x => some x
  | creationDecision x _ => some x
  | _ => none

@[local simp]
def Key.Within (y : Option Text) (k : Key) : Prop :=
  k.relation? = none ∨ k.relation? = y

structure Stays (y : Option Text) (m : Mutation) : Prop where
  entries : ∀ e ∈ m.entries, e.key.Within y
  deletes : ∀ k ∈ m.deleteKeys, k.Within y
  groups : ∀ g ∈ m.groups, g.key.relation? = none

def ActStays (y : Option Text) : Act Key Value → Prop
  | .apply _ m => ∀ revisions, Stays y (m revisions)
  | _ => True

-- Nothing about the relation is different.
def Aside (x : Text) (s s' : State) : Prop :=
  ∀ k : Key, k.relation? = some x → s'.store k = s.store k

-- The errors that report records which do not fit together.
def internalErrors : List String := [
  "social: committed Friend creation is missing reciprocal rows",
  "social: reciprocal Friend relationship is incomplete",
  "social: reciprocal Friend relationship is inconsistent",
  "social: active Friend relationship conflicts with creation intent",
  "social: active Friend relationship conflicts with creation decision"]

def internal : Err → Bool
  | .text message => message ∈ internalErrors
  | .join e e' => internal e || internal e'
  | _ => false

variable {P : Platform} {s s' s'' : State} {x : Text} {y : Option Text} {α : Type}

namespace Aside

theorem refl (s : State) : Aside x s s :=
  fun _ _ => rfl

theorem trans (h : Aside x s s') (h' : Aside x s' s'') : Aside x s s'' :=
  fun k hk => (h' k hk).trans (h k hk)

theorem of_store (h : s'.store = s.store) : Aside x s s' :=
  fun k _ => congrFun h k

theorem of_applied (h : Applied m s s') (hm : Stays y m) (hy : y ≠ some x) : Aside x s s' := by
  intro k hk
  have hne {k' : Key} (hw : k'.Within y) : k' ≠ k := by
    rintro rfl
    rcases hw with hw | hw
    case inl => nomatch hk.symm.trans hw
    case inr => exact hy (hw.symm.trans hk)
  refine KV.Typed.Store.applyMutation_of_untouched h.mutation (fun e he => hne (hm.entries e he))
    (fun hd => hne (hm.deletes k hd) rfl) fun g hg => ?_
  rintro rfl
  exact nomatch hk.symm.trans (hm.groups g hg)

end Aside

-- An action about something else.
theorem aside_of_does (ha : ActStays y a) (hy : y ≠ some x)
    (h : Does P a s r s') : Aside x s s' := by
  have heffect {β : Type} {t : State} {r₀ r : Except KV.Err β} (ht : t.store = s.store)
      (h : KV.Typed.Effect s t r₀ r s') : Aside x s s' := by
    cases h
    case failed => exact .refl s
    case replyLost message | done => exact .of_store ht
  cases a
  case get k | listMembers k => exact heffect rfl h
  case now | newRoomToken => exact .of_store (congrArg _ h)
  case newID => exact .of_store (by rw [h.right]; rfl)
  case peerAvailability => exact .of_store (congrArg _ h.right)
  case retireSystemWorkspaceByID id => exact heffect (t := s.retire id) rfl h
  case createSystemWorkspace =>
    refine heffect ?_ h
    unfold State.create
    split <;> rfl
  case deleteSystemWorkspace =>
    refine heffect ?_ h
    unfold State.delete
    split <;> rfl
  case apply =>
    obtain ⟨revisions, -, he⟩ := h
    rcases State.apply_cases he with ⟨hm, -⟩ | ⟨rfl, -⟩
    case inl => exact .of_applied hm (ha revisions) hy
    case inr => exact .refl _

section Mutations

theorem Stays.of_none (h : Stays none m) : Stays y m where
  entries := fun e he => .inl ((h.entries e he).elim id id)
  deletes := fun k hk => .inl ((h.deletes k hk).elim id id)
  groups := h.groups

theorem ActStays.of_none (h : ActStays none a) : ActStays y a := by
  cases a
  case apply => exact fun revisions => (h revisions).of_none
  all_goals exact h

theorem stays_deleteIntent (i current : CreationIntent) :
    Stays (some (escapeStoreSegment P i.relationID)) (deleteIntentMutation P i current) where
  entries := fun _ h => nomatch h
  deletes := by simp [Key.relation?]
  groups := by
    simp [Key.relation?]

theorem stays_complete (i stored : RetirementIntent) :
    Stays none (completeMutation P i stored) where
  entries := by simp [retirementReceiptKey, Key.relation?]
  deletes := by simp [Key.relation?]
  groups := by
    simp [Key.relation?]

theorem stays_retire (hr : i.relationID = r) :
    Stays (some (escapeStoreSegment P r)) (retireMutation P owner other i) where
  entries := by simp [Key.relation?]
  deletes := by
    simp [friendKey, workspaceBindingKey, Key.relation?, hr]
  groups := by
    simp [Key.relation?]

theorem stays_cancel (creation : CreationIntent) (i : RetirementIntent) :
    Stays (some (escapeStoreSegment P creation.relationID)) (cancelMutation P creation i) where
  entries := by
    simp [creationDecisionKey, Key.relation?]
  deletes := fun _ h => nomatch h
  groups := by
    simp [Key.relation?]

theorem stays_createIntent (i : CreationIntent) :
    Stays (some (escapeStoreSegment P i.relationID)) (createIntentMutation P i) where
  entries := by simp [Key.relation?]
  deletes := fun _ h => nomatch h
  groups := by
    simp [Key.relation?]

section Commit

variable {a b : Text} {i : CreationIntent} {workspace : Workspace} {capacity : List Condition}
variable {t : Time} {revisions : List Text} (hc : ∀ c ∈ capacity, c.key.relation? = none)

include hc

theorem commit_entry (he : e ∈ (commitMutation P a b i workspace capacity t revisions).entries) :
    e.key.relation? = none ∨
    (∃ o peer, e = ⟨.friend o (escapeStoreSegment P (relationID P a b)),
      .friend (friendRow (relationID P a b) peer i t)⟩) ∨
    e = ⟨creationDecisionKey P (relationID P a b) i.incarnationID,
      .creationDecision (i.decision .committed)⟩ := by
  rcases List.mem_append.mp he with he | he
  case inl =>
    simp only [workspaceLocatorEntries, List.cons_append, List.nil_append, List.mem_cons,
      List.not_mem_nil, or_false] at he
    rcases he with rfl | rfl | rfl | rfl | rfl
    · exact .inr (.inl ⟨_, b, rfl⟩)
    · exact .inr (.inl ⟨_, a, rfl⟩)
    all_goals exact .inl rfl
  case inr =>
    rcases List.mem_cons.mp he with rfl | he
    case inl => exact .inr (.inr rfl)
    case inr =>
      rw [← List.map_uncurry_zip_eq_zipWith] at he
      obtain ⟨⟨c, revision⟩, hm, rfl⟩ := List.mem_map.mp he
      exact .inl (hc c (List.of_mem_zip hm).left)

theorem stays_commit : Stays (some (escapeStoreSegment P (relationID P a b)))
    (commitMutation P a b i workspace capacity t revisions) where
  entries := by
    intro e he
    rcases commit_entry hc he with hnone | ⟨o, peer, rfl⟩ | rfl
    · exact .inl hnone
    all_goals exact .inr rfl
  deletes := fun _ h => nomatch h
  groups := by
    simp [commitMutation, adminFriendDirectoryMembership, Key.relation?]

end Commit

theorem stays_repair (ha : ∀ g ∈ additions, g.key.relation? = none) :
    Stays none (repairMutation work bucket member conditions additions) where
  entries := fun _ h => nomatch h
  deletes := fun _ h => nomatch h
  groups := by
    intro g hg
    simp only [KV.Typed.Mutation.groups, repairMutation, Work.index, List.map_cons, List.map_nil,
      List.append_nil, List.mem_append, List.mem_map, List.mem_singleton] at hg
    rcases hg with ⟨a, hm, rfl⟩ | rfl
    case inl => exact ha a hm
    case inr => rfl

end Mutations

section Errors

variable {e : Err}

-- What a check reports when it fails.
theorem internal_check {p : Prop} [Decidable p] (hm : internal (.text message) = false)
    (h : (if p then .ok a else .error (.text message)) = Except.error e) : internal e = false := by
  split at h
  case isTrue => cases h
  case isFalse => cases h; exact hm

theorem internal_validateCreationIntent
    (h : validateCreationIntent P i r wo = .error e) : internal e = false := by
  unfold validateCreationIntent at h
  split at h
  case isTrue => cases h; decide
  case isFalse => exact internal_check (by decide) h

theorem internal_validateCreationDecision
    (h : validateCreationDecision d i = .error e) : internal e = false :=
  internal_check (by decide) h

theorem internal_validateRetirementIntent
    (h : validateRetirementIntent P i r = .error e) : internal e = false :=
  internal_check (by decide) h

theorem internal_validateRetirementReceipt
    (h : validateRetirementReceipt P i r = .error e) : internal e = false :=
  internal_check (by decide) h

theorem internal_validate {row : FriendRecord} (h : row.validate P = .error e) :
    internal e = false :=
  internal_check (by decide) h

theorem internal_validateWorkspaceBinding
    (h : validateWorkspaceBinding P b r = .error e) : internal e = false := by
  unfold validateWorkspaceBinding SFUBinding.validate at h
  split at h
  case isFalse => cases h; decide
  case isTrue =>
    split at h
    case isTrue => cases h; decide
    case isFalse =>
      split at h
      case isTrue => cases h; decide
      case isFalse =>
        split at h
        case isTrue => cases h; decide
        case isFalse => cases h

theorem internal_locator {l : WorkspaceBindingLocator}
    (h : (l.validate P).mapError .text = .error e) : internal e = false := by
  unfold WorkspaceBindingLocator.validate at h
  split at h
  case isTrue => cases h
  case isFalse => cases h; decide

end Errors

section Asides

-- The call does nothing about any relation, and its errors are not internal ones.
abbrev Plain (Q : α → Prop) (c : Call α) : Prop :=
  AllElse (ActStays none) (internal · = false) Q c

theorem plain_mapError (r : Except KV.Err α) :
    (Program.pure (r.mapError .kv) : Program (Act Key Value) Reply (Except Err α)).AllTo
      (ActStays none) (Ends (internal · = false) fun _ => True) := by
  cases r
  case ok => trivial
  case error => rfl

theorem plain_listMembers (k : Key) : Plain (fun _ => True) (listMembers k) :=
  ⟨trivial, plain_mapError⟩

theorem plain_apply (hm : Stays none m) : Plain (fun _ => True) (apply m) :=
  ⟨fun _ => hm, plain_mapError⟩

theorem plain_now : Plain (fun _ => True) now :=
  ⟨trivial, fun _ => trivial⟩

theorem plain_newRoomToken : Plain (fun _ => True) newRoomToken :=
  ⟨trivial, plain_mapError⟩

theorem plain_peerAvailability (peer : Text) : Plain (fun _ => True) (peerAvailability peer) :=
  ⟨trivial, plain_mapError⟩

theorem plain_createSystemWorkspace (w : Workspace) :
    Plain (fun _ => True) (createSystemWorkspace w) :=
  ⟨trivial, plain_mapError⟩

theorem plain_retireSystemWorkspaceByID (id : Text) :
    Plain (fun _ => True) (retireSystemWorkspaceByID id) :=
  ⟨trivial, plain_mapError⟩

theorem plain_load (k : Key) : Plain (fun _ => True) (load k : Call (Option Value)) := by
  refine ⟨trivial, fun r => ?_⟩
  cases r
  case ok => trivial
  case error err => cases err <;> trivial

theorem plain_readJSONValue (decode : Value → Option α) (k : Key) :
    Plain (fun _ => True) (readJSONValue decode k) := by
  refine .bind (plain_load k) fun v _ => ?_
  cases v
  case none => exact .pure trivial
  case some =>
    dsimp only
    split
    case h_1 => exact .pure trivial
    case h_2 => exact .throw (by decide)

theorem plain_deleteSystemWorkspace (name : Text) :
    Plain (fun _ => True) (deleteSystemWorkspace name : Call Unit) := by
  refine ⟨trivial, fun r => ?_⟩
  cases r
  case ok => trivial
  case error err => cases err <;> trivial

theorem plain_readPeerFriendCapacity (peers : List Text) :
    Plain (fun cs => ∀ c ∈ cs, c.key.relation? = none) (readPeerFriendCapacity P peers) := by
  induction peers
  case nil => exact .pure (fun _ h => nomatch h)
  case cons hi =>
    refine .bind (plain_load _) fun revision _ => ?_
    refine .bind (plain_listMembers _) fun friends _ => ?_
    refine .guard rfl fun _ => ?_
    refine .bind hi fun cs hcs => .pure fun c hc => ?_
    rcases List.mem_cons.mp hc with rfl | hc
    case inl => rfl
    case inr => exact hcs c hc

theorem plain_peerFriendRevisionsChanged (cs : List Condition) :
    Plain (fun _ => True) (peerFriendRevisionsChanged cs) := by
  induction cs
  case nil => exact .pure trivial
  case cons hi =>
    refine .bind (plain_load _) fun current _ => ?_
    split
    case isTrue => exact .pure trivial
    case isFalse => exact hi

theorem plain_readWorkspaceBinding (r : Text) :
    Plain (fun _ => True) (readWorkspaceBinding P r) := by
  refine .bind (plain_readJSONValue _ _) fun b _ => ?_
  cases b
  case none => exact .throw rfl
  case some =>
    exact .bindLift (fun _ => internal_validateWorkspaceBinding) fun _ _ => .pure trivial

theorem plain_getFriendRelationByID (owner r : Text) :
    Plain (fun _ => True) (getFriendRelationByID P owner r) := by
  refine .bind (plain_readJSONValue _ _) fun row _ => ?_
  cases row
  case none => exact .pure trivial
  case some =>
    refine .bindLift (fun _ => internal_validate) fun _ _ => ?_
    exact .guard (by decide) fun _ => .pure trivial

theorem plain_replaceWithReceipt (i : RetirementIntent) :
    Plain (fun _ => True) (replaceWithReceipt P i) := by
  refine .bind (plain_readJSONValue _ _) fun stored _ => ?_
  cases stored
  case none => exact .pure trivial
  case some stored =>
    refine .bindLift (fun _ => internal_validateRetirementIntent) fun current _ => ?_
    split
    case isTrue => exact .pure trivial
    case isFalse => exact .map (plain_apply (stays_complete i stored)) fun _ _ => trivial

theorem plain_completeFriendRetirement (i : RetirementIntent) :
    Plain (fun _ => True) (completeFriendRetirement P i) := by
  refine .bindLift (fun _ => internal_validateRetirementIntent) fun _ _ => ?_
  split
  case isTrue => exact .bind (plain_deleteSystemWorkspace _) fun _ _ => plain_replaceWithReceipt i
  case isFalse =>
    exact .bind (plain_retireSystemWorkspaceByID _) fun _ _ => plain_replaceWithReceipt i

theorem plain_completedFriendDeletion (owner r : Text) :
    Plain (fun _ => True) (completedFriendDeletion P owner r) := by
  refine .guard rfl fun _ => ?_
  refine .bind (plain_readJSONValue _ _) fun receipt _ => ?_
  cases receipt
  case none => exact .throw rfl
  case some =>
    refine .bindLift (fun _ => internal_validateRetirementReceipt) fun _ _ => ?_
    exact .guard rfl fun _ => .pure trivial

theorem plain_deletionPeers (owner r : Text) : Plain (fun _ => True) (deletionPeers P owner r) := by
  refine .bind (plain_getFriendRelationByID owner r) fun current _ => ?_
  cases current
  case some => exact .pure trivial
  case none =>
    refine .bind (plain_readJSONValue _ _) fun creation _ => ?_
    cases creation
    case some => exact .pure trivial
    case none =>
      refine .bind (plain_readJSONValue _ _) fun retirement _ => ?_
      cases retirement <;> exact .pure trivial

theorem plain_ensureCreationWorkspace (i : CreationIntent) :
    Plain (fun _ => True) (ensureCreationWorkspace P i) := by
  refine .bind (plain_createSystemWorkspace _) fun workspace _ => ?_
  exact .guard (by decide) fun _ => .pure trivial

theorem plain_reconcileRetirementIntent (r : Text) :
    Plain (fun _ => True) (reconcileRetirementIntent P r) := by
  refine .bind (plain_readJSONValue _ _) fun intent _ => ?_
  cases intent
  case none => exact .pure trivial
  case some =>
    refine .guard (by decide) fun _ => ?_
    refine .bind (plain_readJSONValue _ _) fun current _ => ?_
    cases current
    case none => exact .pure trivial
    case some current =>
      exact .bindLift (fun _ => internal_validateRetirementIntent)
        fun current _ => plain_completeFriendRetirement current

theorem plain_repairMember (work : Work) (bucket member : Text) :
    Plain (fun _ => True) (repairMember P work bucket member) := by
  have hrepair (conditions : List Condition) (id : Text) {additions}
      (ha : additions = [] ∨ additions = work.index.add P id) : Plain (fun _ => True)
      (discard (apply (repairMutation work bucket member conditions additions)) : Call Unit) := by
    refine .map (plain_apply (stays_repair fun g hg => ?_)) fun _ _ => trivial
    rcases ha with rfl | rfl
    case inl => nomatch hg
    case inr =>
      simp only [RecoveryIndex.add, Work.index, List.mem_cons, List.not_mem_nil, or_false] at hg
      rcases hg with rfl | rfl <;> rfl
  unfold repairMember
  dsimp only
  split
  case isTrue => exact hrepair _ [] (.inl rfl)
  case isFalse =>
    refine .bind (plain_load _) fun value _ => ?_
    cases value
    case none => exact hrepair _ [] (.inl rfl)
    case some =>
      dsimp only
      split
      case isTrue => exact .pure trivial
      case isFalse => exact hrepair _ _ (.inr rfl)

end Asides


theorem validateCreationIntent_peers
    (h : validateCreationIntent P i r wo = .ok i') : relationID P i'.firstPeer i'.secondPeer = r ∧
      P.trimSpace i'.firstPeer = i'.firstPeer ∧ P.trimSpace i'.secondPeer = i'.secondPeer := by
  have ⟨_, h⟩ := Except.ite_error_eq_ok.mp h
  split at h
  case isFalse => cases h
  case isTrue hc =>
    cases h
    simp only [isTrimmed, decide_eq_true_eq] at hc
    obtain ⟨-, -, h₁, h₂, hr, -⟩ := hc
    exact ⟨hr, h₁.right.symm, h₂.right.symm⟩

section Operations

variable (P) in
-- The relation of a call. Repairs of the recovery index have none.
def Op.about : Op → Option Text
  | addFriend _ owner peer _ =>
    some (escapeStoreSegment P (relationID P owner peer))
  | adminCreateFriend _ owner peer _ =>
    some (escapeStoreSegment P (relationID P owner peer))
  | adminCreateFriendResource _ _ owner peer _ =>
    some (escapeStoreSegment P (relationID P owner peer))
  | deleteFriend owner name =>
    some (escapeStoreSegment P (relationID P owner name))
  | adminDeleteFriend _ id => some (escapeStoreSegment P id)
  | retirePeerFriend _ snapshot => some (escapeStoreSegment P snapshot.relationID)
  | reconcileCreationIntent r => some (escapeStoreSegment P r)
  | reconcileRetirementIntent r => some (escapeStoreSegment P r)
  | repairMember .. => none

theorem relationID_trimSpace (a b : Text) :
    relationID P (P.trimSpace a) (P.trimSpace b) = relationID P a b := by
  unfold relationID
  rw [P.trimSpace_idem, P.trimSpace_idem]

theorem relationID_trimSpace_left (a b : Text) :
    relationID P (P.trimSpace a) b = relationID P a b := by
  unfold relationID
  rw [P.trimSpace_idem]

end Operations

end GizClaw.Friend

import GizClaw.Friend.Theorems.Actions

-- Every call of the service keeps the invariant, whatever other calls do between its actions.

namespace GizClaw.Friend

open Interleaving
open PendingDeletion (Text Time)
open Social hiding Call

variable {P : Platform} {G : Prop} {s : State} {α : Type}

-- The call is safe, and what it returns satisfies `Q`.
abbrev Keeps (P : Platform) (G : Prop) (Q : State → α → Prop) (s : State) (x : Call α) : Prop :=
  SafeOk (Acts P G) (Inv P G) (Next P G) Q s x

section Checks

theorem validateCreationIntent_eq_ok
    (h : validateCreationIntent P i r wo = .ok i') : i' = i ∧ i.relationID = r := by
  have ⟨_, h⟩ := Except.ite_error_eq_ok.mp h
  split at h
  case isTrue hc => cases h; exact ⟨rfl, hc.right.left⟩
  case isFalse => cases h

theorem validateRetirementIntent_eq_ok
    (h : validateRetirementIntent P i r = .ok i') : i' = i ∧ i.relationID = r := by
  unfold validateRetirementIntent at h
  split at h
  case isTrue hv =>
    cases h
    simp only [validRetirement, decide_eq_true_eq] at hv
    exact ⟨rfl, hv.right.left⟩
  case isFalse => cases h

theorem checkRelationship_eq_ok (h : checkRelationship P r fromPeer toPeer a b = .ok item) :
    item = a.peerObject ∧ a.relationID = r ∧ a.validate P = .ok () := by
  have ⟨_, hv, h⟩ := Except.bind_eq_ok.mp h
  have ⟨_, _, h⟩ := Except.bind_eq_ok.mp h
  have ⟨hc, h⟩ := Except.ite_error_eq_ok.mp h
  have ⟨_, h⟩ := Except.ite_error_eq_ok.mp h
  cases h
  simp only [not_or, not_not] at hc
  exact ⟨rfl, hc.left, hv⟩

theorem trimSpace_of_validate {row : FriendRecord} (h : row.validate P = .ok ()) :
    P.trimSpace row.workspaceName = row.workspaceName := by
  unfold FriendRecord.validate at h
  split at h
  case isTrue hc =>
    simp only [isTrimmed, decide_eq_true_eq] at hc
    exact hc.right.right.left.right.symm
  case isFalse => cases h

end Checks

section Reads

variable {owner r : Text}

theorem keeps_now : Keeps P G Any s now :=
  safe_now .refl fun _ _ _ _ => trivial

theorem keeps_peerAvailability (peer : Text) :
    Keeps P G (fun _ _ => P.isPublicKey peer) s (peerAvailability peer) :=
  safe_peerAvailability .refl fun _ _ _ hp => hp

-- The row of one of two friends has been seen.
structure Seen (P : Platform) (s : State) (owner r : Text) (item : FriendObject) : Prop where
  peers : ∃ p : Pair P, owner = p.fst ∧ item.peerPublicKey = p.snd ∧ r = p.relation
  decided : ∃ inc, Minted P s r inc item.workspaceName ∧ Decided P s r inc
  trimmed : P.trimSpace item.workspaceName = item.workspaceName

theorem stable_seen (owner r : Text) (item : FriendObject) :
    Stable (Next P G) fun s => Seen P s owner r item := by
  constructor
  intro s s' h hn
  obtain ⟨inc, hm, hd⟩ := h.decided
  exact ⟨h.peers, ⟨inc, hn.minted hm, hn.decided hd⟩, h.trimmed⟩

theorem row_seen {row : FriendRecord} (hi : Inv P G s)
    (hrow : s.store (friendKey P owner r) = some (.record (.friend row))) (hr : row.relationID = r)
    (hv : row.validate P = .ok ()) : Seen P s (P.trimSpace owner) r row.peerObject := by
  obtain ⟨p, ho, hx⟩ := hi.friends.rows _ _ (by rw [← friendKey, hrow]; simp)
  have hk : friendKey P owner r = friendKey P p.fst p.relation := by
    rw [friendKey, friendKey, trimSpace_of_isPublicKey p.isPublicKey_fst, ho, hx]
  rw [hk] at hrow
  rcases hi.friends.whole p with hp | ⟨inc, w, hm, hc, ha⟩
  case inl =>
    rw [hp.fst.row] at hrow
    cases hrow
  case inr =>
    obtain ⟨row', hrow', hr', hp', rfl⟩ := ha.fst.row
    rw [hrow] at hrow'
    cases hrow'
    rw [escapeStoreSegment_inj (P.trimSpace_idem _)
      (trimSpace_of_isPublicKey p.isPublicKey_fst)] at ho
    obtain rfl := hr.symm.trans hr'
    exact ⟨⟨p, ho, hp', rfl⟩, ⟨inc, hm, hc.decided⟩, trimSpace_of_validate hv⟩

theorem friend?_eq_some {v : Value} (h : v.friend? = some row) : v = .friend row := by
  cases v <;> cases h
  rfl

theorem keeps_readFriend (owner r : Text) :
    Keeps P G (fun s row => ∀ v ∈ row, v.relationID = r → v.validate P = .ok () →
      Seen P s (P.trimSpace owner) r v.peerObject) s
      (readJSONValue Value.friend? (friendKey P owner r)) := by
  refine safe_readJSONValue .refl (fun _ _ _ _ _ h => nomatch h) ?_
  intro s₁ v row hn hi hv hrow v' hv' hr hvalid
  cases hv'
  exact row_seen hi (friend?_eq_some hrow ▸ hv) hr hvalid

theorem keeps_readActiveRelationship :
    Keeps P G (fun s item => ∀ i ∈ item, Seen P s (P.trimSpace a) (relationID P a b) i) s
      (readActiveRelationship P a b) := by
  refine .bind (keeps_readFriend a _) fun s₁ fromItem hseen => ?_
  refine .bindKeep (K := fun s => ∀ v ∈ fromItem, v.relationID = relationID P a b →
    v.validate P = .ok () → Seen P s (P.trimSpace a) (relationID P a b) v.peerObject) ?_ hseen
      (keeps_readFriend b _) ?_
  · exact ⟨fun h hn v hv hr hvalid => (stable_seen _ _ _).later (h v hv hr hvalid) hn⟩
  intro s₂ toItem hseen _
  cases fromItem <;> cases toItem
  case none.none => exact .pure fun _ h => nomatch h
  case some.some =>
    refine .bindLift fun item hc => ?_
    obtain ⟨rfl, hr, hvalid⟩ := checkRelationship_eq_ok hc
    refine .pure fun i hi => ?_
    cases hi
    exact hseen _ rfl hr hvalid
  all_goals exact .throw

theorem creationIntent?_eq_some {v : Value} (h : v.creationIntent? = some i) :
    v = .creationIntent i := by
  cases v <;> cases h
  rfl

theorem retirementIntent?_eq_some {v : Value}
    (h : v.retirementIntent? = some i) : v = .retirementIntent i := by
  cases v <;> cases h
  rfl

theorem workspaceBinding?_eq_some {v : Value}
    (h : v.workspaceBinding? = some b) : v = .workspaceBinding b := by
  cases v <;> cases h
  rfl

theorem keeps_readCreationIntent (r : Text) :
    Keeps P G (fun s v => ∀ i ∈ v, Genuine P s i ∧ HasIntent P s i) s (readCreationIntent P r) := by
  refine safe_readJSONValue .refl (fun _ _ _ _ _ h => nomatch h) ?_
  intro s₁ v i hn hi hv hd i' hi'
  cases hi'
  rw [creationIntent?_eq_some hd] at hv
  obtain ⟨i', hi', hx, hg⟩ := hi.records.intents _ _ hv
  cases hi'
  refine ⟨hg, .inl ?_⟩
  rw [creationIntentKey, ← hx]
  exact hv

theorem keeps_readCreationDecision (i : CreationIntent) :
    Keeps P G (fun s v => v ≠ none → Decided P s i.relationID i.incarnationID) s
      (readCreationDecision P i) := by
  refine safe_readJSONValue .refl (fun _ _ _ _ h => absurd rfl h) ?_
  intro s₁ v d hn hi hv _ _
  unfold Decided
  rw [hv]
  simp

theorem keeps_readRetirementIntent (r : Text) :
    Keeps P G (fun s v => ∀ i ∈ v, Settled P s i) s (readRetirementIntent P r) := by
  refine safe_readJSONValue .refl (fun _ _ _ _ _ h => nomatch h) ?_
  intro s₁ v i hn hi hv hd i' hi'
  cases hi'
  rw [retirementIntent?_eq_some hd] at hv
  obtain ⟨i', hi', -, hs⟩ := hi.records.retirements _ _ hv
  cases hi'
  exact hs

-- A binding that is there belongs to peers that are friends.
theorem keeps_readWorkspaceBinding (r : Text) :
    Keeps P G (fun _ b => b.workspaceID = b.workspaceName) s (readWorkspaceBinding P r) := by
  refine .bind (Q := fun _ v => ∀ b ∈ v, b.workspaceID = b.workspaceName)
    (safe_readJSONValue .refl (fun _ _ _ _ _ h => nomatch h) ?_) fun s₁ v hv => ?_
  · intro s₁ v b hn hi hv hd b' hb'
    cases hb'
    rw [workspaceBinding?_eq_some hd] at hv
    obtain ⟨p, hx⟩ := hi.friends.bindings _ (by rw [← workspaceBindingKey, hv]; simp)
    rw [workspaceBindingKey, hx] at hv
    rcases hi.friends.whole p with hp | ⟨inc, w, hm, hc, ha⟩
    case inl =>
      have hb := hp.binding
      rw [workspaceBindingKey, hv] at hb
      cases hb
    case inr =>
      obtain ⟨b', hb', -, hid, hname⟩ := ha.binding
      rw [workspaceBindingKey, hv] at hb'
      cases hb'
      exact hid.trans hname.symm
  · cases v
    case none => exact .throw
    case some b => exact .bindLift fun _ _ => .pure (hv b rfl)

end Reads

section Retirement

variable {owner r : Text} {i : RetirementIntent} {creation : CreationIntent}

theorem keeps_deleteCreationIntent {i : CreationIntent}
    (hd : Decided P s i.relationID i.incarnationID) :
    Keeps P G Any s (deleteCreationIntent P i) := by
  refine .bindKeep (stable_decided _ _) hd (keeps_readCreationIntent _) fun s₁ v hd _ => ?_
  cases v
  case none => exact .pure trivial
  case some =>
    refine .bindLift fun current' hc => ?_
    obtain ⟨rfl, hr⟩ := validateCreationIntent_eq_ok hc
    split
    case isTrue => exact .pure trivial
    case isFalse he =>
      simp only [not_or, not_not] at he
      refine .map (Q := Any) (safe_apply .refl ?_ fun _ _ _ => trivial)
        fun _ _ _ => trivial
      intro s₂ s₃ hn hi _ ha
      have ⟨hi', hn'⟩ := deleteIntent_keeps ha hi hr he.left (hn.decided hd)
      exact ⟨hi', hn', trivial⟩

-- Once the Workspace is gone it does not come back, as its incarnation has been decided.
def Gone (P : Platform) (G : Prop) (s : State) (i : RetirementIntent) : Prop :=
  Settled P s i ∧ (G → s.workspaces i.workspaceName = none)

theorem stable_gone (i : RetirementIntent) : Stable (Next P G) fun s => Gone P G s i := by
  constructor
  rintro s s' ⟨hs, hw⟩ hn
  obtain ⟨inc, hm, hd⟩ := hs.decided
  exact ⟨(stable_settled i).later hs hn, fun hG => hn.gone hG _ _ _ hm hd (hw hG)⟩

theorem keeps_replaceWithReceipt (hgone : Gone P G s i) :
    Keeps P G Any s (replaceWithReceipt P i) := by
  refine .bindKeep (stable_gone i) hgone (keeps_readRetirementIntent _) fun s₁ v hgone _ => ?_
  cases v
  case none => exact .pure trivial
  case some =>
    refine .bindLift fun current hc => ?_
    obtain ⟨rfl, hr⟩ := validateRetirementIntent_eq_ok hc
    split
    case isTrue => exact .pure trivial
    case isFalse he =>
      simp only [not_or, not_not] at he
      refine .map (Q := Any) (safe_apply .refl ?_ fun _ _ _ => trivial)
        fun _ _ _ => trivial
      intro s₂ s₃ hn hi _ ha
      have ⟨hi', hn'⟩ := complete_keeps ha hi he.right.left ((stable_gone i).later hgone hn).right
      exact ⟨hi', hn', trivial⟩

theorem keeps_completeFriendRetirement (hs : Settled P s i) :
    Keeps P G Any s (completeFriendRetirement P i) := by
  refine .bindLift fun i' _ => ?_
  split
  case isTrue =>
    refine .bind (safe_deleteSystemWorkspace .refl fun s₁ hn hi => ?_)
      fun _ _ hgone => keeps_replaceWithReceipt hgone
    have ⟨hi', hn'⟩ := delete_keeps (w := i.workspaceName) hi
    exact ⟨hi', hn', (stable_settled i).later ((stable_settled i).later hs hn) hn', fun _ =>
      delete_workspaces⟩
  case isFalse hc =>
    refine .bind (safe_retireSystemWorkspaceByID .refl fun s₁ hn hi => ?_)
      fun _ _ hgone => keeps_replaceWithReceipt hgone
    have ⟨hi', hn'⟩ := retireByID_keeps i.workspaceID hi
    refine ⟨hi', hn', (stable_settled i).later ((stable_settled i).later hs hn) hn', fun _ => ?_⟩
    rw [hs.workspace (by simpa using hc)]
    exact retire_workspaces hi

theorem keeps_getFriendRelationByID (owner r : Text) :
    Keeps P G (fun s item => ∀ i ∈ item, Seen P s (P.trimSpace owner) r i) s
      (getFriendRelationByID P owner r) := by
  refine .bind (keeps_readFriend owner r) fun s₁ row hseen => ?_
  cases row
  case none => exact .pure fun _ h => nomatch h
  case some record =>
    refine .bindLift fun _ hvalid => ?_
    refine .guard fun hr => ?_
    refine .pure fun i hi => ?_
    cases hi
    exact hseen record rfl (not_not.mp hr) hvalid

theorem keeps_applyRetire {p : Pair P} (hs : Settled P s i) (hr : i.relationID = p.relation) :
    Keeps P G (fun s _ => Settled P s i) s (apply (retireMutation P p.fst p.snd i)) := by
  refine safe_apply .refl (fun s₁ s₂ hn hi hC ha => ?_) fun s₁ hn _ =>
    (stable_settled i).later hs hn
  have hs₁ := (stable_settled i).later hs hn
  have hw : ∀ e ∈ (retireMutation P p.fst p.snd i).entries, ∀ w', e.value.keeps = some w' →
      w' = i.workspaceName := by
    intro e he w' hw'
    simp only [retireMutation, List.mem_singleton] at he
    subst he
    cases hw'
    rfl
  obtain ⟨hi', hn'⟩ := retire_keeps ha hr hi hs₁
    (fun hG => (hC hG).clearsRetirement ⟨_, List.mem_singleton_self _, rfl⟩ hw)
    (fun hG => (hC hG).clearsBinding (.inr (by simp [retireMutation])) hw)
  exact ⟨hi', hn', (stable_settled i).later hs₁ hn'⟩

theorem keeps_retireActiveFriend {item : FriendObject} (h : Seen P s owner r item) :
    Keeps P G Any s (retireActiveFriend P owner r item) := by
  obtain ⟨p, rfl, hp, rfl⟩ := h.peers
  unfold retireActiveFriend
  rw [hp, trimSpace_of_isPublicKey p.isPublicKey_snd, h.trimmed]
  refine .guard fun _ => ?_
  refine .bindKeep (stable_seen _ _ item) h (keeps_readWorkspaceBinding _) ?_
  intro s₁ binding h hb
  refine .guard fun hbw => ?_
  refine .bindKeep (stable_seen _ _ item) h keeps_now ?_
  intro s₂ deletedAt h _
  refine .bind (keeps_applyRetire
    ⟨⟨p, rfl⟩, h.decided, fun _ => hb.trans (not_not.mp hbw)⟩ rfl) fun s₃ _ hs => ?_
  exact .bind (keeps_completeFriendRetirement hs) fun _ _ _ => .pure trivial

theorem keeps_resumeCancellation {intent : RetirementIntent}
    (hd : Decided P s creation.relationID creation.incarnationID) :
    Keeps P G Any s (resumeCancellation P owner r creation intent) := by
  refine .bindKeep (stable_decided _ _) hd (keeps_readRetirementIntent r) fun s₁ v hd hs => ?_
  cases v
  case none => exact .bind (keeps_deleteCreationIntent hd) fun _ _ _ => .pure trivial
  case some =>
    refine .bindLift fun persisted' hv => ?_
    obtain ⟨rfl, -⟩ := validateRetirementIntent_eq_ok hv
    split
    case isFalse => exact .bind (keeps_deleteCreationIntent hd) fun _ _ _ => .pure trivial
    case isTrue =>
      refine .bindKeep (stable_settled _) (hs _ rfl) (keeps_deleteCreationIntent hd) ?_
      intro s₂ _ hs _
      exact .bind (keeps_completeFriendRetirement hs) fun _ _ _ => .pure trivial

theorem keeps_applyCancel (hg : Genuine P s creation) (hr : i.relationID = creation.relationID)
    (hw : i.workspaceName = creation.workspace) (hc : i.cancelCreation = true) :
    Keeps P G (fun s b => b = true → Settled P s i ∧
      Decided P s creation.relationID creation.incarnationID) s
      (apply (cancelMutation P creation i)) := by
  refine safe_apply .refl (fun s₁ s₂ hn hi hC ha => ?_) fun s₁ hn _ h => by cases h
  have hg₁ := (stable_genuine creation).later hg hn
  have hkeeps : ∀ e ∈ (cancelMutation P creation i).entries, ∀ w', e.value.keeps = some w' →
      w' = i.workspaceName := by
    intro e he w' hw'
    simp only [cancelMutation, List.mem_cons, List.not_mem_nil, or_false] at he
    rcases he with rfl | rfl <;> cases hw'
    rfl
  obtain ⟨hi', hn'⟩ := cancel_keeps ha hi hg₁ hr hw hc fun hG =>
    (hC hG).clearsRetirement ⟨_, List.mem_cons_of_mem _ (List.mem_singleton_self _), rfl⟩ hkeeps
  exact ⟨hi', hn', fun _ => ⟨cancel_settled ha hg₁ hr hw hc, cancel_decided ha⟩⟩

-- A peer of a creation, and the other one.
theorem Genuine.pair (hg : Genuine P s creation)
    (ho : ¬(owner ≠ creation.firstPeer ∧ owner ≠ creation.secondPeer)) :
    ∃ p : Pair P, owner = p.fst ∧ otherPeer owner creation.firstPeer creation.secondPeer = p.snd ∧
      creation.relationID = p.relation := by
  obtain ⟨p, h₁, h₂, hr⟩ := hg.peers
  rw [h₁, h₂] at ho ⊢
  by_cases hf : owner = p.fst
  case pos => exact ⟨p, hf, by rw [otherPeer, if_pos hf], hr⟩
  case neg =>
    have hs : owner = p.snd := by
      by_contra hs
      exact ho ⟨hf, hs⟩
    exact ⟨p.swap, hs, by rw [otherPeer, if_neg hf]; rfl, by rw [Pair.relation_swap, hr]⟩

theorem keeps_cancelFriendCreation (hg : Genuine P s creation) :
    Keeps P G Any s (cancelFriendCreation P owner r creation) := by
  refine .bindLift fun creation' hv => ?_
  obtain ⟨rfl, hr⟩ := validateCreationIntent_eq_ok hv
  refine .guard fun ho => ?_
  obtain ⟨p, rfl, hother, hp⟩ := hg.pair ho
  obtain rfl := hr.symm.trans hp
  rw [hother]
  have hactive {s₁ : State} : Keeps P G (fun s item => ∀ i ∈ item, Seen P s p.fst p.relation i) s₁
      (readActiveRelationship P p.fst p.snd) := by
    have h := keeps_readActiveRelationship (P := P) (G := G) (s := s₁) (a := p.fst) (b := p.snd)
    rwa [trimSpace_of_isPublicKey p.isPublicKey_fst] at h
  refine .bindKeep (stable_genuine _) hg hactive fun s₁ item hg hseen => ?_
  cases item
  case some item => exact keeps_retireActiveFriend (hseen item rfl)
  case none =>
    refine .bindKeep (stable_genuine _) hg keeps_now ?_
    intro s₂ deletedAt hg _
    refine .bindKeep (stable_genuine _) hg (keeps_applyCancel hg rfl rfl rfl) ?_
    intro s₃ applied hg happlied
    split
    case isTrue ha =>
      have ⟨hs, hd⟩ := happlied ha
      refine .bindKeep (stable_settled _) hs (keeps_deleteCreationIntent hd) fun s₄ _ hs _ => ?_
      exact .bind (keeps_completeFriendRetirement hs) fun _ _ _ => .pure trivial
    case isFalse =>
      refine .bind (keeps_readCreationDecision creation') fun s₄ decision hd => ?_
      cases decision
      case none => exact .throw
      case some decision =>
        refine .bindLift fun _ _ => ?_
        cases decision.state
        case committed =>
          refine .bind hactive fun s₅ item hseen => ?_
          cases item
          case none => exact .throw
          case some item => exact keeps_retireActiveFriend (hseen item rfl)
        case cancelled => exact keeps_resumeCancellation (hd (by simp))

theorem keeps_deletionPeers : Keeps P G Any s (deletionPeers P owner r) := by
  refine .bind (keeps_getFriendRelationByID owner r) fun s₁ current _ => ?_
  cases current
  case some => exact .pure trivial
  case none =>
    refine .bind (keeps_readCreationIntent r) fun s₂ creation _ => ?_
    cases creation
    case some => exact .pure trivial
    case none =>
      refine .bind (keeps_readRetirementIntent r) fun s₃ retirement _ => ?_
      cases retirement <;> exact .pure trivial

theorem keeps_readRetirementReceipt (r : Text) :
    Keeps P G Any s (readRetirementReceipt P r) :=
  safe_readJSONValue .refl (fun _ _ _ _ => trivial) fun _ _ _ _ _ _ _ => trivial

theorem keeps_completedFriendDeletion :
    Keeps P G Any s (completedFriendDeletion P owner r) := by
  refine .guard fun _ => ?_
  refine .bind (keeps_readRetirementReceipt r) fun s₁ receipt _ => ?_
  cases receipt
  case none => exact .throw
  case some =>
    refine .bindLift fun _ _ => ?_
    exact .guard fun _ => .pure trivial

theorem keeps_deleteFriendByRelationID {peerRetirement : Bool} (ho : P.trimSpace owner = owner) :
    Keeps P G Any s (deleteFriendByRelationID P peerRetirement owner r) := by
  refine .bind keeps_deletionPeers fun s₁ _ _ => ?_
  refine .bind (keeps_getFriendRelationByID owner r) fun s₂ item hseen => ?_
  cases item
  case some item =>
    have hseen := hseen item rfl
    rw [ho] at hseen
    dsimp only
    split
    case isFalse => exact keeps_retireActiveFriend hseen
    case isTrue =>
      refine .bindKeep (stable_seen _ _ _) hseen (keeps_peerAvailability _) fun s₃ _ hseen _ => ?_
      refine .bindKeep (stable_seen _ _ _) hseen (keeps_peerAvailability _) fun s₄ _ hseen _ => ?_
      exact keeps_retireActiveFriend hseen
  case none =>
    refine .bind (keeps_readCreationIntent r) fun s₃ creation hg => ?_
    cases creation
    case some creation => exact keeps_cancelFriendCreation (hg creation rfl).left
    case none =>
      refine .bind (keeps_readRetirementIntent r) fun s₄ intent hs => ?_
      cases intent
      case none => exact keeps_completedFriendDeletion
      case some =>
        refine .bindLift fun intent' hv => ?_
        obtain ⟨rfl, -⟩ := validateRetirementIntent_eq_ok hv
        refine .guard fun _ => ?_
        exact .bind (keeps_completeFriendRetirement (hs _ rfl)) fun _ _ _ => .pure trivial

end Retirement

section Creation

variable {i : CreationIntent}
variable {srv : Server} {p : Pair P} {ws : Workspace} {capacity : List Condition}

-- Every peer had room when its friends were counted.
def Rooms (P : Platform) (s : State) : List Text → List Condition → Prop :=
  List.Forall₂ fun peer c => c.key = peerFriendRevisionKey P peer ∧
    Room s (escapeStoreSegment P (P.trimSpace peer)) c.expected

theorem Rooms.pair (h : Rooms P s [p.fst, p.snd] capacity) :
    ∃ e₁ e₂, capacity = capacityAt p e₁ e₂ ∧
      Room s (escapeStoreSegment P (P.trimSpace p.fst)) e₁ ∧
      Room s (escapeStoreSegment P (P.trimSpace p.snd)) e₂ := by
  cases h with
  | @cons _ c₁ _ _ h₁ h =>
    cases h with
    | @cons _ c₂ _ _ h₂ h =>
      cases h
      exact ⟨c₁.expected, c₂.expected, by rw [capacityAt, ← h₁.left, ← h₂.left], h₁.right, h₂.right⟩

theorem keeps_loadRevision (peer : Text) :
    Keeps P G (fun s v => ∀ x ∈ v, IsDrawn s x) s (load (peerFriendRevisionKey P peer)) := by
  refine safe_load .refl fun s₁ v hn hi hv x hx => ?_
  cases hx
  obtain ⟨x', hx', hd⟩ := hi.friends.known _ _ hv
  cases hx'
  exact hd

theorem keeps_readPeerFriendCapacity :
    Keeps P G (fun s capacity => Rooms P s peers capacity) s (readPeerFriendCapacity P peers) := by
  induction peers generalizing s
  case nil => exact .pure .nil
  case cons peer peers ih =>
    refine .bind (keeps_loadRevision peer) fun s₁ revision hd => ?_
    refine .bindKeep (stable_drawn revision) hd
      (Q := fun s members => Known s (escapeStoreSegment P (P.trimSpace peer)) ∧
        members = friends s (escapeStoreSegment P (P.trimSpace peer)))
      (safe_listMembers .refl fun s₂ _ hi => ⟨hi.friends.known _, rfl⟩) ?_
    rintro s₂ members hd ⟨hk, rfl⟩
    refine .guard fun hlim => ?_
    have hroom : Room s₂ (escapeStoreSegment P (P.trimSpace peer)) revision :=
      ⟨hk, hd, fun _ => not_le.mp hlim⟩
    refine .bindKeep (stable_room _ _) hroom ih fun s₃ capacity hroom hrest => ?_
    exact .pure (.cons ⟨rfl, hroom⟩ hrest)

theorem keeps_peerFriendRevisionsChanged :
    Keeps P G Any s (peerFriendRevisionsChanged capacity) := by
  induction capacity generalizing s
  case nil => exact .pure trivial
  case cons ih =>
    refine .bind (safe_load .refl fun _ _ _ _ _ => trivial) fun s₁ current _ => ?_
    split
    case isTrue => exact .pure trivial
    case isFalse => exact ih

theorem keeps_applyCommit (hg : Genuine P s i) (hr : i.relationID = p.relation)
    (hn : ws.name = i.workspace) (hw : ws.id = ws.name)
    (hR₁ : Room s (escapeStoreSegment P (P.trimSpace p.fst)) e₁)
    (hR₂ : Room s (escapeStoreSegment P (P.trimSpace p.snd)) e₂) :
    Keeps P G (fun s b => b = true → Decided P s i.relationID i.incarnationID) s
      (applyDrawn 2 (commitMutation P p.fst p.snd i ws (capacityAt p e₁ e₂) updatedAt)) := by
  refine safe_applyDrawn .refl (fun s₁ s₂ us hnext hi hfresh hC ha hus => ?_)
    fun s₁ _ _ h => by cases h
  obtain ⟨u₁, u₂, rfl⟩ := List.length_eq_two.mp hfresh.left
  have hkeeps : ∀ e ∈ (commitMutation P p.fst p.snd i ws (capacityAt p e₁ e₂) updatedAt
      [u₁, u₂]).entries, ∀ w', e.value.keeps = some w' → w' = i.workspace := by
    intro e he w' hw'
    simp only [commitMutation, capacityAt, workspaceLocatorEntries, List.mem_append, List.mem_cons,
      List.not_mem_nil, or_false, List.zipWith_cons_cons, List.zipWith_nil_left] at he
    rcases he with ((rfl | rfl | rfl) | rfl | rfl) | rfl | rfl | rfl <;> cases hw'
    exact hn
  have hkey : ⟨workspaceBindingKey P p.relation, .workspaceBinding (newBinding p.relation i ws)⟩ ∈
      (commitMutation P p.fst p.snd i ws (capacityAt p e₁ e₂) updatedAt [u₁, u₂]).entries := by
    simp [commitMutation, Pair.relation]
  obtain ⟨hi', hn'⟩ := commit_keeps ha
    ⟨hfresh.right.right u₁ (by simp), hus (by simp)⟩ ⟨hfresh.right.right u₂ (by simp),
      hus (by simp)⟩
    ((stable_room _ _).later hR₁ hnext) ((stable_room _ _).later hR₂ hnext)
    ((stable_genuine i).later hg hnext) hr hn hw hi
    fun hG => (hC hG).clearsBinding (.inl ⟨_, hkey, rfl⟩) hkeeps
  refine ⟨hi', hn', fun _ => ?_⟩
  rw [hr]
  exact (commit_committed ha hr).decided

theorem keeps_deleteSystemWorkspace (name : Text) :
    Keeps P G Any s (deleteSystemWorkspace name) := by
  refine safe_deleteSystemWorkspace .refl fun s₁ _ hi => ?_
  have ⟨hi', hn'⟩ := delete_keeps (w := name) hi
  exact ⟨hi', hn', trivial⟩

theorem keeps_resolveCommit {fromPeer toPeer : Text} :
    Keeps P G Any s (resolveCommit P fromPeer toPeer i ws capacity) := by
  refine .bind (keeps_readCreationDecision i) fun s₁ decision hd => ?_
  cases decision
  case none =>
    refine .bind keeps_peerFriendRevisionsChanged fun s₂ changed _ => ?_
    split <;> exact .throw
  case some decision =>
    have hd := hd (by simp)
    refine .bindLift fun _ _ => ?_
    cases decision.state
    case cancelled =>
      refine .bindKeep (stable_decided _ _) hd (keeps_deleteSystemWorkspace _) fun s₂ _ hd _ => ?_
      exact .bind (keeps_deleteCreationIntent hd) fun _ _ _ => .throw
    case committed =>
      refine .bindKeep (stable_decided _ _) hd (keeps_readWorkspaceBinding _)
        fun s₂ binding hd _ => ?_
      refine .guard fun _ => ?_
      refine .bindKeep (stable_decided _ _) hd keeps_readActiveRelationship
        fun s₃ active hd _ => ?_
      cases active
      case none => exact .bind (keeps_deleteCreationIntent hd) fun _ _ _ => .throw
      case some =>
        exact .guard fun _ => .bind (keeps_deleteCreationIntent hd) fun _ _ _ => .pure trivial

theorem keeps_cancelFull (hg : Genuine P s i) : Keeps P G Q s (cancelFull P fromPeer r i err) := by
  unfold cancelFull
  split
  case isFalse => exact .throw
  case isTrue =>
    refine .bind (Q := Any) (.tryCatch ?_ fun _ _ => .throw) fun _ _ _ => .throw
    exact .map (keeps_cancelFriendCreation hg) fun _ _ _ => trivial

theorem keeps_commitFriendCreation (hg : Genuine P s i) (hr : i.relationID = p.relation)
    (hn : ws.name = i.workspace) (hw : ws.id = ws.name) :
    Keeps P G Any s (commitFriendCreation P p.fst p.snd i ws) := by
  refine .bindKeep (stable_genuine i) hg (.tryCatchKeep (stable_genuine i) hg
    keeps_readPeerFriendCapacity fun s₁ err hg => keeps_cancelFull hg)
      fun s₁ capacity hg hrooms => ?_
  obtain ⟨e₁, e₂, rfl, hR₁, hR₂⟩ := hrooms.pair
  refine .bindKeep ((stable_genuine i).and ((stable_room _ e₁).and (stable_room _ e₂)))
    ⟨hg, hR₁, hR₂⟩ keeps_now ?_
  rintro s₂ updatedAt ⟨hg, hR₁, hR₂⟩ _
  refine .bindLift fun _ _ => ?_
  refine .bind (keeps_applyCommit hg hr hn hw hR₁ hR₂) fun s₃ applied hd => ?_
  split
  case isTrue ha => exact .bind (keeps_deleteCreationIntent (hd ha)) fun _ _ _ => .pure trivial
  case isFalse => exact keeps_resolveCommit

theorem stable_minted (r inc w : Text) : Stable (Next P G) fun s => Minted P s r inc w :=
  ⟨fun h hn => hn.minted h⟩

-- The peers in the order that intents have them in.
theorem Pair.exists_sorted (p : Pair P) : ∃ q : Pair P, min p.fst p.snd = q.fst ∧
    max p.fst p.snd = q.snd ∧ p.relation = q.relation := by
  rcases le_total p.fst p.snd with h | h
  · exact ⟨p, min_eq_left h, max_eq_right h, rfl⟩
  · exact ⟨p.swap, min_eq_right h, max_eq_left h, p.relation_swap.symm⟩

theorem keeps_applyCreateIntent (hg : Genuine P s i) :
    Keeps P G (fun s b => b = true → Genuine P s i ∧ HasIntent P s i) s
      (apply (createIntentMutation P i)) := by
  refine safe_apply .refl (fun s₁ s₂ hn hi _ ha => ?_) fun s₁ _ _ h => nomatch h
  have hg₁ := (stable_genuine i).later hg hn
  have ⟨hi', hn'⟩ := createIntent_keeps ha hi hg₁
  refine ⟨hi', hn', fun _ => ⟨(stable_genuine i).later hg₁ hn', .inl ?_⟩⟩
  rw [createIntent_store ha rfl, if_pos rfl]

theorem keeps_validIntent (h : Genuine P s i ∧ HasIntent P s i) :
    Keeps P G (fun s i => (Genuine P s i ∧ HasIntent P s i) ∧ i.relationID = r) s
      (liftM (validateCreationIntent P i r wo)) := by
  refine .lift fun i' hv => ?_
  obtain ⟨rfl, hr⟩ := validateCreationIntent_eq_ok hv
  exact ⟨h, hr⟩

theorem keeps_getOrCreateCreationIntent :
    Keeps P G (fun s i => (Genuine P s i ∧ HasIntent P s i) ∧ i.relationID = p.relation) s
      (getOrCreateCreationIntent P srv p.fst p.snd wo) := by
  refine .bind (keeps_readCreationIntent _) fun s₁ v hv => ?_
  cases v
  case some intent => exact keeps_validIntent (hv intent rfl)
  case none =>
    refine .guard fun _ => ?_
    refine .bind (Q := fun s id => Minted P s p.relation (P.trimSpace id)
      (directWorkspaceIncarnationName P p.relation (P.trimSpace id)))
      (safe_newID fun s₂ id _ hi hfree => ?_) fun s₂ id hm => ?_
    · have ⟨hi', hn'⟩ := mint_keeps p.relation id hi hfree
      exact ⟨hi', hn', mint_minted⟩
    refine .guard fun _ => ?_
    refine .bindKeep (stable_minted _ _ _) hm
      (safe_newRoomToken .refl fun _ _ _ _ => trivial) fun s₃ roomToken hm _ => ?_
    refine .bindKeep (stable_minted _ _ _) hm keeps_now fun s₄ createdAt hm _ => ?_
    refine .bindLift fun intent hv => ?_
    obtain ⟨rfl, hr⟩ := validateCreationIntent_eq_ok hv
    refine .bind (keeps_applyCreateIntent ⟨p.exists_sorted, hm⟩) fun s₅ applied happlied => ?_
    split
    case isTrue ha => exact .pure ⟨happlied ha, hr⟩
    case isFalse =>
      refine .bind (keeps_readCreationIntent _) fun s₆ existing hv => ?_
      cases existing
      case none => exact .throw
      case some existing => exact keeps_validIntent (hv existing rfl)

theorem keeps_ensureCreationWorkspace (hg : Genuine P s i) (hint : HasIntent P s i) :
    Keeps P G (fun _ ws => ws.name = i.workspace ∧ ws.id = ws.name) s
      (ensureCreationWorkspace P i) := by
  refine .bind (Q := fun _ ws => ws.name = i.workspace ∧ ws.id = ws.name)
    (safe_createSystemWorkspace .refl fun s₁ hn hi hc => ?_) fun s₁ ws hws => ?_
  · have ⟨hi', hn'⟩ := create_keeps hi ((stable_genuine i).later hg hn)
      ((stable_hasIntent i).later hint hn) hc
    have ⟨hname, hid⟩ := create_fst (w := i.workspace) hi
    exact ⟨hi', hn', hname, hid.trans hname.symm⟩
  · split
    case isTrue => exact .throw
    case isFalse => exact .pure hws

theorem keeps_reconcileCreationDecision :
    Keeps P G (fun _ _ => True) s (reconcileCreationDecision P i) := by
  refine .bind (keeps_readCreationDecision i) fun s₁ decision hd => ?_
  cases decision
  case none => exact .pure trivial
  case some decision =>
    have hd := hd (by simp)
    refine .bindLift fun _ _ => ?_
    cases decision.state
    case cancelled =>
      refine .bindKeep (stable_decided _ _) hd (keeps_deleteSystemWorkspace _) fun s₂ _ hd _ => ?_
      exact .bind (keeps_deleteCreationIntent hd) fun _ _ _ => .pure trivial
    case committed =>
      refine .bindKeep (stable_decided _ _) hd keeps_readActiveRelationship fun s₂ active hd _ => ?_
      exact .guard fun _ => .bind (keeps_deleteCreationIntent hd) fun _ _ _ => .pure trivial

theorem keeps_createFriend (hne : a ≠ b) (rounds : Nat) :
    Keeps P G Any s (createFriend P srv a b wo rounds) := by
  induction rounds generalizing s
  case zero => exact .throw
  case succ ih =>
    refine .bind keeps_readActiveRelationship fun s₁ existing _ => ?_
    cases existing
    case some => exact .pure trivial
    case none =>
      refine .bind (keeps_peerAvailability a) fun s₂ _ ha => ?_
      refine .bind (keeps_peerAvailability b) fun s₃ _ hb => ?_
      let p : Pair P := ⟨a, b, ha, hb, hne⟩
      refine .bind keeps_readPeerFriendCapacity fun s₄ _ _ => ?_
      refine .bind (keeps_getOrCreateCreationIntent (p := p)) fun s₅ intent hintent => ?_
      obtain ⟨hg, hr⟩ := hintent
      refine .bindKeep ((stable_genuine intent).and (stable_hasIntent intent)) hg
        keeps_reconcileCreationDecision fun s₆ decision hg _ => ?_
      cases decision
      case some state =>
        cases state
        case cancelled => exact .throw
        case committed => exact ih
      case none =>
        refine .bindKeep (stable_genuine intent) hg.left
          (keeps_ensureCreationWorkspace hg.left hg.right) fun s₇ ws hg hws => ?_
        refine .tryCatch (keeps_commitFriendCreation (p := p) hg hr hws.left hws.right) ?_
        intro s₈ err
        split
        case isTrue => exact ih
        case isFalse => exact .throw

end Creation

section Recovery

theorem keeps_reconcileCreationIntent {r : Text} :
    Keeps P G Any s (reconcileCreationIntent P r) := by
  refine .bind (keeps_readCreationIntent r) fun s₁ listed _ => ?_
  cases listed
  case none => exact .pure trivial
  case some =>
    refine .guard fun _ => ?_
    refine .bind (keeps_readCreationIntent r) fun s₂ current hg => ?_
    cases current
    case none => exact .pure trivial
    case some =>
      refine .bindLift fun current' hv => ?_
      obtain ⟨rfl, hr⟩ := validateCreationIntent_eq_ok hv
      have hstable := (stable_genuine (P := P) (G := G) current').and (stable_hasIntent current')
      refine .bindKeep hstable (hg _ rfl) keeps_reconcileCreationDecision
        fun s₃ decision hg _ => ?_
      cases decision
      case some => exact .pure trivial
      case none =>
        obtain ⟨p, hfst, hsnd, hp⟩ := hg.left.peers
        refine .bindKeep hstable hg keeps_readActiveRelationship fun s₄ existing hg hseen => ?_
        cases existing
        case some existing =>
          refine .guard fun he => ?_
          -- The peers are friends by this incarnation, so it has been decided.
          obtain ⟨inc, hm, hd⟩ := (hseen existing rfl).decided
          rw [hfst, hsnd, ← Pair.relation, ← hp] at hm hd
          rw [not_not.mp he] at hm
          obtain ⟨-, rfl⟩ := hg.left.minted.eq hm
          exact keeps_deleteCreationIntent hd
        case none =>
          refine .bindKeep (stable_genuine _) hg.left
            (keeps_ensureCreationWorkspace hg.left hg.right) fun s₅ ws hg hws => ?_
          refine .tryCatch (.map (Q := Any) ?_ fun _ _ _ => trivial) fun s₆ err => ?_
          · rw [hfst, hsnd]
            exact keeps_commitFriendCreation hg hp hws.left hws.right
          · split
            case isTrue => exact .pure trivial
            case isFalse => exact .throw

theorem keeps_reconcileRetirementIntent :
    Keeps P G Any s (reconcileRetirementIntent P r) := by
  refine .bind (keeps_readRetirementIntent r) fun s₁ intent _ => ?_
  cases intent
  case none => exact .pure trivial
  case some =>
    refine .guard fun _ => ?_
    refine .bind (keeps_readRetirementIntent r) fun s₂ current hs => ?_
    cases current
    case none => exact .pure trivial
    case some =>
      refine .bindLift fun current' hv => ?_
      obtain ⟨rfl, -⟩ := validateRetirementIntent_eq_ok hv
      exact keeps_completeFriendRetirement (hs _ rfl)

-- A member may go if no work is recorded that it stands for.
theorem keeps_applyRepair (id : Text) (ha : additions = [] ∨ additions = work.index.add P id)
    (hm : ∀ (s : State) (p : Pair P), (∀ c ∈ cs, s.store c.key = c.expected.map .record) →
      p.relation = member → P.bucket p.relation = b →
        s.store (work.recordKey P p.relation) = none) :
    Keeps P G Any s
      (discard (apply (repairMutation work b member cs additions))) := by
  refine .map (Q := Any) (safe_apply .refl (fun s₁ s₂ _ hi _ h => ?_)
    fun _ _ _ => trivial) fun _ _ _ => trivial
  have hc := (KV.Typed.Store.applyMutation_eq_some h.mutation).left
  have ⟨hi', hn'⟩ := repair_keeps h ha hi fun p => hm s₁ p hc
  exact ⟨hi', hn', trivial⟩

theorem keeps_repairMember : Keeps P G Any s (repairMember P work b member) := by
  have hid (p : Pair P) (hp : p.relation = member) : P.trimSpace member = p.relation := by
    rw [← hp, p.trimSpace_relation]
  unfold repairMember
  dsimp only
  split
  case isTrue hnil =>
    refine keeps_applyRepair [] (.inl rfl) fun s p _ hp _ => ?_
    exact absurd ((hid p hp).symm.trans hnil) p.relation_ne_nil
  case isFalse =>
    refine .bind (safe_load .refl fun _ _ _ _ _ => trivial) fun s₁ value _ => ?_
    cases value
    case none =>
      refine keeps_applyRepair [] (.inl rfl) fun s p hc hp _ => ?_
      rw [← hid p hp]
      exact hc _ (List.mem_singleton_self _)
    case some =>
      dsimp only
      split
      case isTrue => exact .pure trivial
      case isFalse hb =>
        refine keeps_applyRepair _ (.inr rfl) fun s p _ hp hbucket => ?_
        exact absurd ⟨hp.symm.trans (hid p hp).symm, by rw [hid p hp, hbucket]⟩ hb

end Recovery

section Operations

variable {srv : Server} {rounds : Nat}

theorem keeps_retirePeerFriend :
    Keeps P G Any s (retirePeerFriend P owner snapshot) := by
  refine .guard fun ho => ?_
  refine .guard fun _ => ?_
  refine .guard fun _ => ?_
  refine .bind (keeps_getFriendRelationByID owner _) fun s₁ active _ => ?_
  cases active
  case none =>
    refine .bind (keeps_readRetirementReceipt _) fun s₂ receipt _ => ?_
    cases receipt
    case none => exact .throw
    case some =>
      exact .guard fun _ => .pure trivial
  case some =>
    refine .guard fun _ => ?_
    refine .bind (keeps_readWorkspaceBinding _) fun s₂ binding _ => ?_
    refine .guard fun _ => ?_
    simp only [not_or, not_not] at ho
    exact .map (keeps_deleteFriendByRelationID ho.right.symm) fun _ _ _ => trivial

theorem keeps_addFriend : Keeps P G Any s (addFriend P srv owner toPeer rounds) := by
  unfold addFriend
  refine .guard fun _ => ?_
  refine .guard fun _ => ?_
  refine .guard fun hne => ?_
  refine .bind keeps_readActiveRelationship fun s₁ existing _ => ?_
  cases existing
  case some => exact .pure trivial
  case none => exact keeps_createFriend hne rounds

theorem keeps_adminCreateFriend :
    Keeps P G Any s (adminCreateFriend P srv owner peer rounds) := by
  unfold adminCreateFriend
  refine .guard fun _ => ?_
  exact .guard fun hne => keeps_createFriend hne rounds

theorem keeps_adminCreateFriendResource {id owner peer : Text} :
    Keeps P G Any s (adminCreateFriendResource P srv id owner peer rounds) := by
  unfold adminCreateFriendResource
  refine .guard fun _ => ?_
  refine .guard fun hne => ?_
  simp only [not_or] at hne
  refine .bind keeps_readActiveRelationship fun s₁ existing _ => ?_
  cases existing
  case some => exact .throw
  case none => exact keeps_createFriend hne.right.right rounds

theorem keeps_deleteFriend : Keeps P G Any s (deleteFriend P owner name) := by
  unfold deleteFriend
  exact .guard fun _ => keeps_deleteFriendByRelationID (P.trimSpace_idem _)

theorem keeps_adminDeleteFriend {owner id : Text} :
    Keeps P G Any s (adminDeleteFriend P owner id) := by
  exact .guard fun _ => keeps_deleteFriendByRelationID (P.trimSpace_idem _)

theorem safe_call (op : Op) : Safe (Acts P G) (Inv P G) (Next P G) Any s
    (op.call P).run := by
  have hmap {β : Type} {x : Call β} {f : β → Option FriendObject}
      (h : Keeps P G Any s x) : Keeps P G Any s (f <$> x) :=
    .map h fun _ _ _ => trivial
  refine SafeOk.safe (Q := Any) ?_
  cases op
  case addFriend => exact hmap keeps_addFriend
  case adminCreateFriend => exact hmap keeps_adminCreateFriend
  case adminCreateFriendResource => exact hmap keeps_adminCreateFriendResource
  case deleteFriend => exact hmap keeps_deleteFriend
  case adminDeleteFriend => exact hmap keeps_adminDeleteFriend
  case retirePeerFriend => exact hmap keeps_retirePeerFriend
  case reconcileCreationIntent => exact hmap keeps_reconcileCreationIntent
  case reconcileRetirementIntent => exact hmap keeps_reconcileRetirementIntent
  case repairMember => exact hmap keeps_repairMember

end Operations

section Runs

theorem inv_init : Inv P G .init where
  friends := {
    whole := fun p => by
      have hside (owner r : Text) : NoSide P (Social.State.init : State).store owner r :=
        ⟨rfl, Finset.notMem_empty _, Finset.notMem_empty _, Finset.notMem_empty _⟩
      exact .inl ⟨hside _ _, hside _ _, rfl⟩
    rows := fun _ _ h => absurd rfl h
    bindings := fun _ h => absurd rfl h
    known := fun _ _ h => nomatch h
    limit := fun _ => Nat.zero_le _ }
  records := {
    decisions := fun _ _ _ h => nomatch h
    intents := fun _ _ h => nomatch h
    retirements := fun _ _ h => nomatch h
    indexed := fun work _ h => absurd rfl h }
  workspaces := fun _ _ h => nomatch h
  named := fun _ _ h => absurd rfl h

abbrev GuardedStep (P : Platform) (G : Prop) : System → System → Prop :=
  Interleaving.Step (Acts P G) (fun op : Op => (op.call P).run)

abbrev GuardedReachable (P : Platform) (G : Prop) : System → Prop :=
  Interleaving.Reachable (Acts P G) (fun op : Op => (op.call P).run) .init

variable {c c' : System}

theorem sound (h : GuardedReachable P G c) : c.Sound (Acts P G) (Inv P G) (Next P G) :=
  Interleaving.Reachable.sound .refl .trans (fun op _ _ => safe_call op) inv_init h

theorem steps_next (h : GuardedReachable P G c)
    (hs : Relation.ReflTransGen (GuardedStep P G) c c') : Next P G c.shared c'.shared :=
  ((sound h).steps .refl .trans (fun op _ _ => safe_call op) hs).right

-- Without a condition on the actions nothing is left out.
theorem GuardedReachable.of_reachable (h : Reachable P c) : GuardedReachable P False c :=
  h.mono (Guarded.of_does (fun _ _ => False.elim) fun _ _ => False.elim)

theorem GuardedStep.of_step (h : Step P c c') : GuardedStep P False c c' :=
  h.mono (Guarded.of_does (fun _ _ => False.elim) fun _ _ => False.elim)

end Runs

end GizClaw.Friend

import GizClaw.Friend.Theorems.Relations
import GizClaw.Friend.Theorems.Stages

-- Calls about a relation that come one after the other find its records as they expect them.

namespace GizClaw.Friend

open Interleaving
open PendingDeletion (Text Time ascii)
open Social hiding Call

variable {P : Platform} {x r : Text} {s s' : State} {i : CreationIntent}

section Mutations

theorem agrees_of_noIntent (h : s.store (.creationIntent x) = none) : Agrees P x s :=
  fun _ hi => nomatch h.symm.trans hi

-- Other intents of the relation are out of the way.
theorem agrees_of_stored (h : Stored x i s) (hs : Stage P x i s) : Agrees P x s := by
  intro j hj
  cases h.symm.trans hj
  exact hs

theorem deleteIntent_agrees (h : Applied (deleteIntentMutation P i current) s s') :
    Agrees P (escapeStoreSegment P i.relationID) s' :=
  agrees_of_noIntent ((deleteIntent_store h rfl).trans (if_pos rfl))

theorem retire_agrees (h : Applied (retireMutation P owner other j) s s')
    (ht : Tidy s (retireMutation P owner other j)) :
    Agrees P (escapeStoreSegment P j.relationID) s' := by
  have hnone : s.store (.creationIntent (escapeStoreSegment P j.relationID)) = none :=
    ht _ (.head _) _ rfl
  have hkeep := KV.Typed.Store.applyMutation_of_untouched h.mutation
    (k := .creationIntent (escapeStoreSegment P j.relationID))
    (by simp [retireMutation, retirementIntentKey])
    (by simp [retireMutation, friendKey, workspaceBindingKey])
    (by simp [KV.Typed.Mutation.groups, retireMutation, RecoveryIndex.add, Work.index,
      friendCollectionKey, adminFriendMembership, friendPageMembership, friendPageKey])
  exact agrees_of_noIntent (hkeep.trans hnone)

theorem cancel_agrees (h : Applied (cancelMutation P i j) s s')
    (hi : Stored (escapeStoreSegment P i.relationID) i s)
    (hidle : Idle (escapeStoreSegment P i.relationID) s) :
    Agrees P (escapeStoreSegment P i.relationID) s' := by
  refine agrees_of_stored (i := i) ?_ (.cancelled ?_ fun o => ?_)
  · exact (cancel_store h rfl).trans hi
  · refine (cancel_store h rfl).trans ?_
    exact if_pos rfl
  · exact (cancel_store h rfl).trans (hidle o)

theorem createIntent_agrees (h : Applied (createIntentMutation P i) s s')
    (hd : DecidedAs P (escapeStoreSegment P i.relationID) i s none)
    (hidle : Idle (escapeStoreSegment P i.relationID) s) :
    Stored (escapeStoreSegment P i.relationID) i s' ∧ Idle (escapeStoreSegment P i.relationID) s' ∧
    Agrees P (escapeStoreSegment P i.relationID) s' := by
  have hi : Stored (escapeStoreSegment P i.relationID) i s' :=
    (createIntent_store h rfl).trans (if_pos rfl)
  have hidle' : Idle (escapeStoreSegment P i.relationID) s' :=
    fun o => (createIntent_store h rfl).trans (hidle o)
  exact ⟨hi, hidle', agrees_of_stored hi (.undecided ((createIntent_store h rfl).trans hd) hidle')⟩

theorem commit_agrees (hc : ∀ c ∈ capacity, c.key.relation? = none)
    (h : Applied (commitMutation P a b i workspace capacity t revisions) s s')
    (hi : Stored (escapeStoreSegment P (relationID P a b)) i s) :
    Agrees P (escapeStoreSegment P (relationID P a b)) s' := by
  have hlookup {k : Key} (hk : k.relation? = some (escapeStoreSegment P (relationID P a b))) :
      s'.store k =
        s.store.putAll (commitMutation P a b i workspace capacity t revisions).entries k := by
    refine (KV.Typed.Store.lookup_applyMutation h.mutation ?_).trans (if_neg List.not_mem_nil)
    rintro g hg rfl
    nomatch hk.symm.trans ((stays_commit hc).groups g hg)
  have hwritten {k : Key} (hk : k.relation? = some (escapeStoreSegment P (relationID P a b)))
      (hmem : ∃ e ∈ (commitMutation P a b i workspace capacity t revisions).entries, e.key = k) :
      ∃ e ∈ (commitMutation P a b i workspace capacity t revisions).entries, e.key = k ∧
        s'.store k = some (.record e.value) := by
    rw [hlookup hk]
    exact KV.Typed.Store.exists_putAll hmem
  refine agrees_of_stored (i := i) ?_ (.committed ?_ ?_)
  · refine ((hlookup rfl).trans (KV.Typed.Store.putAll_of_notMem fun e he hk => ?_)).trans hi
    rcases commit_entry hc he with hnone | ⟨o, peer, rfl⟩ | rfl
    case inl => rw [hk] at hnone; nomatch hnone
    case inr.inl | inr.inr => nomatch hk
  · obtain ⟨e, he, hk, hput⟩ := hwritten rfl ⟨_, List.mem_append_right _ (.head _), rfl⟩
    refine hput.trans ?_
    rcases commit_entry hc he with hnone | ⟨o, peer, rfl⟩ | rfl
    case inl => rw [hk] at hnone; nomatch hnone
    case inr.inl => nomatch hk
    case inr.inr => rfl
  · obtain ⟨e, he, hk, hput⟩ := hwritten rfl ⟨⟨friendKey P a (relationID P a b), _⟩, .head _, rfl⟩
    rcases commit_entry hc he with hnone | ⟨o, peer, rfl⟩ | rfl
    case inl => rw [hk] at hnone; nomatch hnone
    case inr.inl => exact ⟨_, _, hput, rfl⟩
    case inr.inr => nomatch hk

end Mutations

section Retirement

variable {owner : Text} {item : FriendObject}

theorem solo_deleteCreationIntent (hx : escapeStoreSegment P i.relationID = x) :
    Solo P x Any s (deleteCreationIntent P i) := by
  refine solo_bindPlain (plain_readJSONValue _ _) local_true trivial fun s₁ current _ _ => ?_
  cases current
  case none => exact .pure trivial
  case some current =>
    refine .bindLift (fun _ => internal_validateCreationIntent) fun current _ => ?_
    split
    case isTrue => exact .pure trivial
    case isFalse =>
      refine .map (Q := Any) (solo_apply (hx ▸ stays_deleteIntent i _) ?_ ?_)
        fun _ _ _ => trivial
      · exact fun _ _ _ _ _ _ hm => ⟨hx ▸ deleteIntent_agrees hm, trivial⟩
      · exact fun _ _ _ _ _ => trivial

theorem solo_retireActiveFriend (hx : escapeStoreSegment P r = x) :
    Solo P x Any s (retireActiveFriend P owner r item) := by
  unfold retireActiveFriend
  refine .guard (by decide) fun _ => ?_
  refine solo_bindPlain (plain_readWorkspaceBinding r) local_true trivial fun s₁ binding _ _ => ?_
  refine .guard (by decide) fun _ => ?_
  refine solo_bindPlain plain_now local_true trivial fun s₂ deletedAt _ _ => ?_
  refine .bind (Q := Any) (solo_apply (hx ▸ stays_retire rfl) ?_ ?_) fun s₃ _ _ => ?_
  · exact fun _ _ _ _ _ ht hm => ⟨hx ▸ retire_agrees hm ht, trivial⟩
  · exact fun _ _ _ _ _ => trivial
  refine solo_bindPlain (plain_completeFriendRetirement _) local_true trivial fun s₄ _ _ _ => ?_
  exact .pure trivial

theorem solo_resumeCancellation (hx : escapeStoreSegment P i.relationID = x) :
    Solo P x Any s (resumeCancellation P owner r i intent) := by
  refine solo_bindPlain (plain_readJSONValue _ _) local_true trivial fun s₁ persisted _ _ => ?_
  cases persisted
  case none => exact .bind (solo_deleteCreationIntent hx) fun _ _ _ => .pure trivial
  case some persisted =>
    refine .bindLift (fun _ => internal_validateRetirementIntent) fun persisted _ => ?_
    split
    case isFalse => exact .bind (solo_deleteCreationIntent hx) fun _ _ _ => .pure trivial
    case isTrue =>
      refine .bind (solo_deleteCreationIntent hx) fun s₂ _ _ => ?_
      exact solo_bindPlain (plain_completeFriendRetirement _) local_true trivial
        fun _ _ _ _ => .pure trivial

-- The peer that is not the owner, for one of two peers.
theorem otherPeer_relation (h : relationID P first second = r)
    (ho : owner = first ∨ owner = second) :
    relationID P owner (otherPeer owner first second) = r := by
  unfold otherPeer
  split
  case isTrue he => exact he ▸ h
  case isFalse he => rw [ho.resolve_left he, relationID_comm]; exact h

theorem solo_cancelFriendCreation (hx : escapeStoreSegment P r = x) (hi : Stored x i s) :
    Solo P x Any s (cancelFriendCreation P owner r i) := by
  refine .bindLift (fun _ => internal_validateCreationIntent) fun i' hv => ?_
  have ⟨hrelation, hfirst, hsecond⟩ := validateCreationIntent_peers hv
  obtain ⟨rfl, hr⟩ := validateCreationIntent_eq_ok hv
  obtain rfl : escapeStoreSegment P i'.relationID = x := by rw [hr]; exact hx
  refine .guard rfl fun ho => ?_
  have ho : owner = i'.firstPeer ∨ owner = i'.secondPeer := by
    rw [not_and_or, not_not, not_not] at ho
    exact ho
  have hother := otherPeer_relation hrelation ho
  have htrim : P.trimSpace owner = owner ∧
      P.trimSpace (otherPeer owner i'.firstPeer i'.secondPeer) =
        otherPeer owner i'.firstPeer i'.secondPeer := by
    unfold otherPeer
    split
    case isTrue he => exact ⟨he ▸ hfirst, hsecond⟩
    case isFalse he => exact ⟨ho.resolve_left he ▸ hsecond, hfirst⟩
  refine .bind (solo_readActiveRelationship htrim.left htrim.right (by rw [hother]; exact hx)
    (local_stored i') hi) fun s₁ item ⟨hi, _, htells⟩ => ?_
  cases item
  case some => exact solo_retireActiveFriend hx
  case none =>
    have hK := (local_stored (x := escapeStoreSegment P i'.relationID) i').and local_idle
    refine solo_bindPlain plain_now hK ⟨hi, htells⟩ fun s₂ deletedAt ⟨hi, hidle⟩ _ => ?_
    -- The decision fails only if the incarnation has been cancelled, as its rows are not there.
    refine .bind (Q := fun s ok => Stored (escapeStoreSegment P i'.relationID) i' s ∧
      (ok = false → DecidedAs P (escapeStoreSegment P i'.relationID) i' s (some .cancelled)))
      (solo_apply (stays_cancel i' _) ?_ ?_) ?_
    · intro s₃ s₄ haside _ _ _ hm
      have ⟨hi, hidle⟩ := hK.aside haside ⟨hi, hidle⟩
      exact ⟨cancel_agrees hm hi hidle, (cancel_store hm rfl).trans hi, nofun⟩
    · intro s₃ haside _ hs hnone
      have ⟨hi, hidle⟩ := hK.aside haside ⟨hi, hidle⟩
      refine ⟨hi, fun _ => ?_⟩
      cases hs i' hi
      case cancelled hd _ => exact hd
      case committed hl => exact absurd hl hidle.not_live
      case undecided hd _ =>
        refine absurd hnone (KV.Typed.Store.applyMutation_ne_none fun c hc => ?_)
        rw [List.mem_singleton.mp hc]
        exact hd
    · intro s₃ ok ⟨hi, hd⟩
      split
      case isTrue =>
        refine .bind (solo_deleteCreationIntent rfl) fun s₄ _ _ => ?_
        exact solo_bindPlain (plain_completeFriendRetirement _) local_true trivial
          fun _ _ _ _ => .pure trivial
      case isFalse hok =>
        refine .bind (solo_readCreationDecision rfl
          (local_decidedAs i' (some .cancelled)) (hd (by simpa using hok)) hi) ?_
        rintro s₄ decision ⟨hd, _, _, hd'⟩
        cases decision
        case none => exact .throw rfl
        case some decision =>
          refine .bindLift (fun _ => internal_validateCreationDecision) fun _ _ => ?_
          have hstate : decision.state = .cancelled := Option.some.inj (hd'.eq hd)
          rw [hstate]
          exact solo_resumeCancellation rfl

theorem solo_deleteFriendByRelationID (hx : escapeStoreSegment P r = x) :
    Solo P x Any s (deleteFriendByRelationID P peerRetirement owner r) := by
  refine solo_bindPlain (plain_deletionPeers owner r) local_true trivial fun s₁ _ _ _ => ?_
  refine solo_bindPlain (plain_getFriendRelationByID owner r) local_true trivial ?_
  intro s₂ item _ _
  cases item
  case some =>
    dsimp only
    split
    case isFalse => exact solo_retireActiveFriend hx
    case isTrue =>
      refine solo_bindPlain (plain_peerAvailability _) local_true trivial fun s₃ _ _ _ => ?_
      refine solo_bindPlain (plain_peerAvailability _) local_true trivial fun s₄ _ _ _ => ?_
      exact solo_retireActiveFriend hx
  case none =>
    refine .bind (solo_readCreationIntent hx local_true trivial) fun s₃ creation ⟨_, hi⟩ => ?_
    cases creation
    case some => exact solo_cancelFriendCreation hx hi
    case none =>
      refine solo_bindPlain (plain_readJSONValue _ _) local_true trivial fun s₄ intent _ _ => ?_
      cases intent
      case none =>
        exact solo_of_plain (plain_completedFriendDeletion owner r)
      case some intent =>
        refine .bindLift (fun _ => internal_validateRetirementIntent) fun intent _ => ?_
        refine .guard rfl fun _ => ?_
        exact solo_bindPlain (plain_completeFriendRetirement _) local_true trivial
          fun _ _ _ _ => .pure trivial

end Retirement

section Creation

variable {a b wo : Text} {srv : Server} {workspace : Workspace}

-- The intent is stored and nothing has come of it.
structure Pending (P : Platform) (x : Text) (i : CreationIntent) (s : State) : Prop where
  stored : Stored x i s
  idle : Idle x s
  undecided : DecidedAs P x i s none

theorem local_pending (i : CreationIntent) : Local x (Pending P x i) :=
  ⟨fun ha h => ⟨(local_stored i).aside ha h.stored, local_idle.aside ha h.idle,
    (local_decidedAs i none).aside ha h.undecided⟩⟩

theorem solo_reconcileCreationDecision (hx : escapeStoreSegment P i.relationID = x)
    (hr : relationID P i.firstPeer i.secondPeer = i.relationID)
    (hfirst : P.trimSpace i.firstPeer = i.firstPeer)
    (hsecond : P.trimSpace i.secondPeer = i.secondPeer) (hi : Stored x i s) :
    Solo P x (fun s d => d = none → Pending P x i s) s (reconcileCreationDecision P i) := by
  refine .bind (solo_readCreationDecision hx local_true trivial hi) ?_
  rintro s₁ decision ⟨-, hi, hstage, hd⟩
  cases decision
  case none =>
    refine .pure fun _ => ?_
    cases hstage
    case undecided hd' hidle => exact ⟨hi, hidle, hd'⟩
    case committed hd' _ | cancelled hd' _ => nomatch hd.eq hd'
  case some =>
    refine .bindLift (fun _ => internal_validateCreationDecision) fun _ _ => ?_
    split
    case h_1 =>
      refine solo_bindPlain (plain_deleteSystemWorkspace _) local_true trivial fun s₂ _ _ _ => ?_
      exact .bind (solo_deleteCreationIntent hx) fun _ _ _ => .pure nofun
    case h_2 hstate =>
      have hlive : Live x s₁ i.workspace := by
        cases hstage
        case undecided hd' _ => nomatch hd.eq hd'
        case cancelled hd' _ => nomatch hstate.symm.trans (Option.some.inj (hd.eq hd'))
        case committed hl => exact hl
      refine .bind (solo_readActiveRelationship hfirst hsecond (by rw [hr]; exact hx)
        (local_live i.workspace) hlive) ?_
      rintro s₂ active ⟨hlive, hinv, htells⟩
      split
      case isFalse => exact .bind (solo_deleteCreationIntent hx) fun _ _ _ => .pure nofun
      case isTrue hne =>
        cases active
        case none => nomatch hne
        case some =>
          refine absurd ?_ (by simpa using hne)
          exact Live.eq hinv htells hlive

-- An intent that has been checked.
structure Checked (P : Platform) (r : Text) (i : CreationIntent) : Prop where
  relation : i.relationID = r
  peers : relationID P i.firstPeer i.secondPeer = r
  first : P.trimSpace i.firstPeer = i.firstPeer
  second : P.trimSpace i.secondPeer = i.secondPeer

theorem checked_of_validate (h : validateCreationIntent P i r wo = .ok i') :
    i' = i ∧ Checked P r i := by
  have ⟨hr, hfirst, hsecond⟩ := validateCreationIntent_peers h
  obtain ⟨rfl, hi⟩ := validateCreationIntent_eq_ok h
  exact ⟨rfl, hi, hr, hfirst, hsecond⟩

theorem solo_validateCreationIntent (h : Checked P r i → Q s i) :
    Solo P x Q s (validateCreationIntent P i r wo : Call CreationIntent) := by
  cases hv : validateCreationIntent P i r wo
  case error => exact internal_validateCreationIntent hv
  case ok =>
    have ⟨hi', hc⟩ := checked_of_validate hv
    exact hi' ▸ h hc

theorem solo_getOrCreateCreationIntent (ha : P.trimSpace a = a) (hb : P.trimSpace b = b)
    (hr : relationID P a b = r) (hx : escapeStoreSegment P r = x) (hidle : Idle x s) :
    Solo P x (fun s i => Stored x i s ∧ Checked P r i) s
      (getOrCreateCreationIntent P srv a b wo) := by
  have htrim : P.trimSpace r = r := hr ▸ trimSpace_relationID ha hb
  unfold getOrCreateCreationIntent
  rw [hr]
  refine .bind (solo_readCreationIntent hx local_idle hidle) fun s₁ intent ⟨hidle, hi⟩ => ?_
  cases intent
  case some => exact solo_validateCreationIntent fun hc => ⟨hi, hc⟩
  case none =>
    refine .guard (by decide) fun _ => ?_
    refine .bind (Q := fun s id => Idle x s ∧
      s.store (creationDecisionKey P r (P.trimSpace id)) = none) (solo_newID ?_) ?_
    · intro s₂ id haside hinv hfree
      have hd := undecided_of_fresh hinv htrim hfree
      exact ⟨local_idle.aside haside hidle, hd⟩
    intro s₂ id hk
    refine .guard (by decide) fun _ => ?_
    have hK : Local x fun s => Idle x s ∧
        s.store (creationDecisionKey P r (P.trimSpace id)) = none :=
      local_idle.and (hx ▸ local_store rfl none)
    refine solo_bindPlain plain_newRoomToken hK hk fun s₃ roomToken hk _ => ?_
    refine solo_bindPlain plain_now hK hk fun s₄ createdAt hk _ => ?_
    refine .bindLift (fun _ => internal_validateCreationIntent) fun intent hv => ?_
    have ⟨hintent, hc⟩ := checked_of_validate hv
    rw [← hintent] at hc
    have hinc : intent.incarnationID = P.trimSpace id := by rw [hintent]
    obtain rfl := hc.relation
    subst hx
    refine .bind (Q := fun s ok => ok = true →
      Stored (escapeStoreSegment P intent.relationID) intent s)
      (solo_apply (stays_createIntent intent) ?_ ?_) ?_
    · intro s₅ s₆ haside _ _ _ hm
      have ⟨hidle, hd⟩ := hK.aside haside hk
      rw [← hinc] at hd
      have ⟨hi, _, hagrees⟩ := createIntent_agrees hm hd hidle
      exact ⟨hagrees, fun _ => hi⟩
    · exact fun _ _ _ _ _ => nofun
    intro s₅ ok hi
    split
    case isTrue hok => exact .pure ⟨hi hok, hc⟩
    case isFalse =>
      refine .bind (solo_readCreationIntent rfl local_true trivial) ?_
      rintro s₆ existing ⟨-, hi⟩
      cases existing
      case none => exact .throw rfl
      case some => exact solo_validateCreationIntent fun hc => ⟨hi, hc⟩

theorem solo_resolveCommit (hx : escapeStoreSegment P i.relationID = x) (hi : Pending P x i s) :
    Solo P x Any s (resolveCommit P a b i workspace capacity) := by
  refine .bind (solo_readCreationDecision hx (local_decidedAs i none) hi.undecided hi.stored) ?_
  rintro s₁ decision ⟨hd, -, -, hd'⟩
  cases decision
  case some => nomatch hd'.eq hd
  case none =>
    refine solo_bindPlain (plain_peerFriendRevisionsChanged capacity) local_true trivial ?_
    intro s₂ changed _ _
    split <;> exact .throw rfl

theorem solo_cancelFull (hx : escapeStoreSegment P r = x) (hi : Stored x i s)
    (he : internal err = false) : Solo P x Q s (cancelFull P fromPeer r i err) := by
  unfold cancelFull
  split
  case isFalse => exact .throw he
  case isTrue =>
    refine .bind (Q := Any) (.tryCatch (F := fun _ e => internal e = false) ?_ ?_) ?_
    · exact AloneElse.map (solo_cancelFriendCreation hx hi) fun _ _ _ => trivial
    · refine fun _ e he' => .throw ?_
      simp only [internal, he, he', Bool.or_self]
    · exact fun _ _ _ => .throw he

theorem solo_commitFriendCreation (hx : escapeStoreSegment P r = x) (hr : relationID P a b = r)
    (hrelation : i.relationID = r) (hi : Pending P x i s) :
    Solo P x Any s (commitFriendCreation P a b i workspace) := by
  unfold commitFriendCreation
  rw [hr]
  refine .bind (Q := fun s cs => Pending P x i s ∧ ∀ c ∈ cs, c.key.relation? = none) (.tryCatch
    (alone_plain (plain_readPeerFriendCapacity _) (local_pending i) hi) fun s₁ err he => ?_) ?_
  · exact solo_cancelFull hx he.left.stored he.right
  rintro s₁ capacity ⟨hi, hcapacity⟩
  refine solo_bindPlain plain_now (local_pending i) hi fun s₂ updatedAt hi _ => ?_
  refine .bindLift (fun _ => internal_locator) fun _ _ => ?_
  refine .bind (Q := fun s ok => ok = false → Pending P x i s)
    (solo_applyDrawn (fun _ => hx ▸ hr ▸ stays_commit hcapacity) ?_ ?_) ?_
  · intro s₃ s₄ revisions haside _ _ _ hm
    have hi := (local_pending i).aside haside hi
    subst hr hx
    exact ⟨commit_agrees hcapacity hm hi.stored, nofun⟩
  · exact fun s₃ _ haside _ _ _ _ => (local_pending i).aside haside hi
  intro s₃ ok hi
  have hx' : escapeStoreSegment P i.relationID = x := by rw [hrelation]; exact hx
  split
  case isTrue => exact .bind (solo_deleteCreationIntent hx') fun _ _ _ => .pure trivial
  case isFalse hok => exact solo_resolveCommit hx' (hi (by simpa using hok))

theorem solo_createFriend (ha : P.trimSpace a = a) (hb : P.trimSpace b = b)
    (hr : relationID P a b = r) (hx : escapeStoreSegment P r = x) (rounds : Nat) :
    Solo P x Any s (createFriend P srv a b wo rounds) := by
  induction rounds generalizing s
  case zero => exact .throw rfl
  case succ ih =>
    refine .bind (solo_readActiveRelationship ha hb (by rw [hr]; exact hx) local_true trivial) ?_
    rintro s₁ existing ⟨-, -, htells⟩
    cases existing
    case some => exact .pure trivial
    case none =>
      have hidle : Idle x s₁ := htells
      refine solo_bindPlain (plain_peerAvailability _) local_idle hidle fun s₂ _ hidle _ => ?_
      refine solo_bindPlain (plain_peerAvailability _) local_idle hidle fun s₃ _ hidle _ => ?_
      refine solo_bindPlain (plain_readPeerFriendCapacity _) local_idle hidle ?_
      intro s₄ _ hidle _
      refine .bind (solo_getOrCreateCreationIntent ha hb hr hx hidle) fun s₅ intent ⟨hi, hc⟩ => ?_
      have hx' : escapeStoreSegment P intent.relationID = x := by rw [hc.relation]; exact hx
      refine .bind (solo_reconcileCreationDecision hx' (hc.peers.trans hc.relation.symm) hc.first
        hc.second hi) fun s₆ decision hpending => ?_
      split
      case h_1 => exact .throw rfl
      case h_2 => exact ih
      case h_3 =>
        refine solo_bindPlain (plain_ensureCreationWorkspace intent) (local_pending intent)
          (hpending rfl) fun s₇ workspace hpending _ => ?_
        refine .tryCatch (F := fun _ e => internal e = false)
          (solo_commitFriendCreation hx hr hc.relation hpending) fun s₈ err he => ?_
        split
        case isTrue => exact ih
        case isFalse => exact .throw he

theorem solo_reconcileCreationIntent (hx : escapeStoreSegment P r = x) :
    Solo P x Any s (reconcileCreationIntent P r) := by
  refine solo_bindPlain (plain_readJSONValue _ _) local_true trivial fun s₁ listed _ _ => ?_
  cases listed
  case none => exact .pure trivial
  case some =>
    refine .guard (by decide) fun _ => ?_
    refine .bind (solo_readCreationIntent hx local_true trivial) fun s₂ current ⟨_, hi⟩ => ?_
    cases current
    case none => exact .pure trivial
    case some =>
      refine .bindLift (fun _ => internal_validateCreationIntent) fun current' hv => ?_
      obtain ⟨rfl, hc⟩ := checked_of_validate hv
      have hx' : escapeStoreSegment P current'.relationID = x := by rw [hc.relation]; exact hx
      refine .bind (solo_reconcileCreationDecision hx' (hc.peers.trans hc.relation.symm) hc.first
        hc.second hi) fun s₃ decision hpending => ?_
      cases decision
      case some => exact .pure trivial
      case none =>
        refine .bind (solo_readActiveRelationship hc.first hc.second (by rw [hc.peers]; exact hx)
          (local_pending current') (hpending rfl)) ?_
        rintro s₄ existing ⟨hpending, -, htells⟩
        cases existing
        case some => exact absurd htells hpending.idle.not_live
        case none =>
          refine solo_bindPlain (plain_ensureCreationWorkspace current')
            (local_pending current') hpending fun s₅ workspace hpending _ => ?_
          refine .tryCatch (F := fun _ e => internal e = false) (AloneElse.map
            (solo_commitFriendCreation hx hc.peers hc.relation hpending) fun _ _ _ => trivial) ?_
          intro s₆ err he
          split
          case isTrue => exact .pure trivial
          case isFalse => exact .throw he

end Creation

section Operations

variable {owner peer : Text} {srv : Server} {rounds : Nat}

theorem solo_retirePeerFriend (hx : escapeStoreSegment P snapshot.relationID = x) :
    Solo P x Any s (retirePeerFriend P owner snapshot) := by
  refine .guard (by decide) fun _ => ?_
  refine .guard (by decide) fun _ => ?_
  refine .guard (by decide) fun _ => ?_
  refine solo_bindPlain (plain_getFriendRelationByID owner _) local_true trivial ?_
  intro s₁ active _ _
  cases active
  case none =>
    refine solo_bindPlain (plain_readJSONValue _ _) local_true trivial ?_
    intro s₂ receipt _ _
    cases receipt
    case none => exact .throw rfl
    case some =>
      exact .guard (by decide) fun _ => .pure trivial
  case some =>
    refine .guard (by decide) fun _ => ?_
    refine solo_bindPlain (plain_readWorkspaceBinding _) local_true trivial ?_
    intro s₂ binding _ _
    exact .guard (by decide) fun _ => .map (solo_deleteFriendByRelationID hx) fun _ _ _ => trivial

section

variable (hx : escapeStoreSegment P (relationID P owner peer) = x)
include hx

theorem solo_addFriend : Solo P x Any s (addFriend P srv owner peer rounds) := by
  unfold addFriend
  refine .guard (by decide) fun _ => ?_
  refine .guard (by decide) fun hto => ?_
  have hto : P.trimSpace peer = peer := by
    simp only [isTrimmed, decide_eq_true_eq, not_not] at hto
    exact hto.right.symm
  refine .guard rfl fun _ => ?_
  have hr : relationID P (P.trimSpace owner) peer = relationID P owner peer :=
    relationID_trimSpace_left owner peer
  refine .bind (solo_readActiveRelationship (P.trimSpace_idem owner) hto
    (by rw [hr]; exact hx) local_true trivial) fun s₁ existing _ => ?_
  cases existing
  case some => exact .pure trivial
  case none => exact solo_createFriend (P.trimSpace_idem owner) hto hr hx rounds

theorem solo_adminCreateFriend :
    Solo P x Any s (adminCreateFriend P srv owner peer rounds) := by
  unfold adminCreateFriend
  refine .guard (by decide) fun _ => ?_
  refine .guard (by decide) fun _ => ?_
  exact solo_createFriend (P.trimSpace_idem owner) (P.trimSpace_idem peer)
    (relationID_trimSpace owner peer) hx rounds

theorem solo_adminCreateFriendResource {id : Text} :
    Solo P x Any s (adminCreateFriendResource P srv id owner peer rounds) := by
  unfold adminCreateFriendResource
  refine .guard (by decide) fun _ => ?_
  refine .guard (by decide) fun _ => ?_
  have hr := relationID_trimSpace (P := P) owner peer
  refine .bind (solo_readActiveRelationship (P.trimSpace_idem owner) (P.trimSpace_idem peer)
    (by rw [hr]; exact hx) local_true trivial) fun s₁ existing _ => ?_
  cases existing
  case some => exact .throw rfl
  case none =>
    exact solo_createFriend (P.trimSpace_idem owner) (P.trimSpace_idem peer) hr hx rounds

theorem solo_deleteFriend : Solo P x Any s (deleteFriend P owner peer) := by
  unfold deleteFriend
  refine .guard (by decide) fun _ => ?_
  rw [← relationID_trimSpace_left] at hx
  exact solo_deleteFriendByRelationID hx

end

theorem solo_adminDeleteFriend {id : Text} (hx : escapeStoreSegment P id = x) :
    Solo P x Any s (adminDeleteFriend P owner id) := by
  exact .guard (by decide) fun _ => solo_deleteFriendByRelationID hx

theorem solo_call {op : Op} (h : op.about P = some x) :
    Solo P x Any s (op.call P) := by
  cases op <;> cases h
  case addFriend => exact .map (solo_addFriend rfl) fun _ _ _ => trivial
  case adminCreateFriend => exact .map (solo_adminCreateFriend rfl) fun _ _ _ => trivial
  case adminCreateFriendResource =>
    exact .map (solo_adminCreateFriendResource rfl) fun _ _ _ => trivial
  case deleteFriend => exact .map (solo_deleteFriend rfl) fun _ _ _ => trivial
  case adminDeleteFriend => exact .map (solo_adminDeleteFriend rfl) fun _ _ _ => trivial
  case retirePeerFriend => exact .map (solo_retirePeerFriend rfl) fun _ _ _ => trivial
  case reconcileCreationIntent =>
    exact .map (solo_reconcileCreationIntent rfl) fun _ _ _ => trivial
  case reconcileRetirementIntent =>
    exact .map (solo_of_plain (plain_reconcileRetirementIntent _)) fun _ _ _ => trivial

theorem plain_call (op : Op) (h : op.about P = none) : Plain (fun _ => True) (op.call P) := by
  cases op <;> cases h
  case repairMember => exact .map (plain_repairMember ..) fun _ _ => trivial

end Operations

section Runs

-- Calls about one relation do not overlap, and rows are not deleted before the intent that they
-- were created by. A call may stop after any of its actions.
abbrev TidyRun (P : Platform) : System → (Nat → Option Op) → Prop :=
  Exclusive (TidyActs P) (fun op : Op => (op.call P).run) (Op.about P) .init

theorem TidyRun.sound (h : TidyRun P c calls) :
    Exclusive.Sound (TidyActs P) (Op.about P) (Inv P False) ActStays Aside (Agrees P)
      (Ends (internal · = false) fun _ => True) c calls := by
  refine Exclusive.sound (fun _ => .refl) .trans local_agrees.aside
    (fun _ _ _ _ _ _ => aside_of_guarded) (fun c hc => ?_) (fun _ => agrees_of_noIntent rfl)
    (fun _ _ _ => solo_call) plain_call h
  exact inv_of_reachable (hc.mono fun _ _ _ _ => Guarded.does)

theorem no_internal_error {c : System} {calls : Nat → Option Op} (h : TidyRun P c calls) {n : Nat}
    {op : Op} (hop : calls n = some op) {e : Err} (hr : c.result n = some (.error e)) :
    internal e = false := by
  have hp := Config.result_eq_some.mp hr
  cases ha : op.about P
  case none => exact h.sound.others n _ op hp hop ha
  case some x => exact h.sound.own n _ op x hp hop ha

end Runs

section Sample

theorem TidyRun.of_run {β : Type} {b : β} (f : System → (Nat → Option Op) → β)
    (t : List (Move Op Choice))
    (h : ((Play.init .init).run (performGuarded P Tidy fun _ _ => True)
      (fun op : Op => (op.call P).run) (Op.about P) t).map (fun p => f p.config p.calls) = some b) :
    ∃ c calls, TidyRun P c calls ∧ f c calls = b := by
  obtain ⟨p, hp, hf⟩ := Exclusive.exists_run guarded_of_perform h
  exact ⟨p.config, p.calls, hp, hf⟩

-- A creation stops before the decision and a deletion cancels it. Another one, of a friend that
-- never was, comes in between.
def Sample.cancellation : List (Move Op Choice) :=
  (.turn (.call 0 (.adminCreateFriend ⟨ascii "u"⟩ Sample.pair.fst Sample.pair.snd 1)) ::
    List.replicate 14 (.turn (.act 0 ⟨[], 1, ascii "x"⟩))) ++
  .stop 0 :: .turn (.call 1 (.deleteFriend Sample.pair.fst Sample.pair.snd)) ::
  .turn (.call 2 (.deleteFriend Sample.pair.fst (ascii "c"))) ::
    List.replicate 7 (.turn (.act 2 ⟨[], 1, ascii "x"⟩)) ++
  List.replicate 13 (.turn (.act 1 ⟨[], 1, ascii "x"⟩))

theorem no_internal_error_sample : ∃ c calls, TidyRun Sample.platform c calls ∧
    (c.result 1).any (·.toBool) = true ∧ ∃ e, c.result 2 = some (.error e) ∧
    internal e = false := by
  obtain ⟨c, calls, h, hr⟩ := TidyRun.of_run (P := Sample.platform) (b := (true, true, true))
    (fun c calls => ((c.result 1).any (·.toBool), (calls 2).isSome,
      decide (c.result 2 = some (.error (.kv .notFound))))) Sample.cancellation (by decide +kernel)
  simp only [Prod.mk.injEq, decide_eq_true_eq] at hr
  have ⟨op, hop⟩ := Option.isSome_iff_exists.mp hr.right.left
  exact ⟨c, calls, h, hr.left, _, hr.right.right, no_internal_error h hop hr.right.right⟩

-- The Server stops when the peers have become friends, before it deletes the intent.
def Sample.stopped : List (Turn Op Choice) :=
  .call 0 (.adminCreateFriend ⟨ascii "u"⟩ Sample.pair.fst Sample.pair.snd 1) ::
    List.replicate 20 (.act 0 ⟨[], 1, ascii "x"⟩) ++
    [.act 0 ⟨[ascii "u", ascii "v"], 1, ascii "x"⟩]

def Sample.deletionBy (n steps : Nat) : List (Turn Op Choice) :=
  .call n (.deleteFriend Sample.pair.fst Sample.pair.snd) ::
    List.replicate steps (.act n ⟨[], 1, ascii "x"⟩)

-- The friend is deleted once, and every further deletion fails.
theorem second_deletion_fails : ∃ c, Reachable Sample.platform c ∧
    (c.result 1).any (·.toBool) = true ∧ c.result 2 = some (.error
      (.text "social: committed Friend creation is missing reciprocal rows")) := by
  obtain ⟨c, hc, hr⟩ := Reachable.of_run (P := Sample.platform) (b := (true, true))
    (fun c => ((c.result 1).any (·.toBool), decide (c.result 2 = some (.error
      (.text "social: committed Friend creation is missing reciprocal rows")))))
    (Sample.stopped ++ Sample.deletionBy 1 10 ++ Sample.deletionBy 2 11) (by decide +kernel)
  simp only [Prod.mk.injEq, decide_eq_true_eq] at hr
  exact ⟨c, hc, hr.left, hr.right⟩

end Sample

end GizClaw.Friend

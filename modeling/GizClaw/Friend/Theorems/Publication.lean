import GizClaw.Friend.Theorems.Mutations

-- The two mutations that make peers friends, and make them strangers again.

namespace GizClaw.Friend

open Interleaving
open PendingDeletion (Text Time)
open Social hiding Call
open KV.Typed (Names)
open KV.Typed.Store (lookup_applyMutation putAll mem_applyMutation)

variable {P : Platform} {G : Prop} {s s' : State} {p q : Pair P}
variable {k : Key} {o x : Text}

attribute [local simp] adminFriendMembership friendPageMembership adminFriendDirectoryMembership
  KV.Typed.Mutation.groups friendCollectionKey retireMutation workspaceLocatorNameKey
  workspaceLocatorIDKey RecoveryIndex.add commitMutation peerFriendRevisionKey friendPageKey
  KV.Phase.ordered creationDecisionKey Work.index Names Key.ofRecovery workspaceBindingKey friendKey
  retirementIntentKey

section Pairs

variable {σ : Store} {w : Text}

theorem Active.swap (h : Active P σ p w) : Active P σ p.swap w :=
  ⟨by rw [Pair.relation_swap]; exact h.snd, by rw [Pair.relation_swap]; exact h.fst,
    by rw [Pair.relation_swap]; exact h.binding⟩

theorem Inactive.swap (h : Inactive P σ p) : Inactive P σ p.swap :=
  ⟨by rw [Pair.relation_swap]; exact h.snd, by rw [Pair.relation_swap]; exact h.fst,
    by rw [Pair.relation_swap]; exact h.binding⟩

theorem Active.not_inactive (h : Active P σ p w) (h' : Inactive P σ p) : False := by
  obtain ⟨row, hr, -⟩ := h.fst.row
  rw [h'.fst.row] at hr
  cases hr

-- The peers of a relation are the same, in one order or the other.
theorem Active.of_relation (h : Active P σ p w) (hr : p.relation = q.relation) :
    Active P σ q w := by
  rcases Pair.eq_or_eq_swap hr with rfl | rfl
  · exact h
  · exact h.swap

theorem Inactive.of_relation (h : Inactive P σ p) (hr : p.relation = q.relation) :
    Inactive P σ q := by
  rcases Pair.eq_or_eq_swap hr with rfl | rfl
  · exact h
  · exact h.swap

end Pairs

section Elsewhere

-- Nothing has changed for other relations.
structure Elsewhere (p : Pair P) (s s' : State) : Prop where
  side : ∀ owner r, escapeStoreSegment P r ≠ escapeStoreSegment P p.relation →
    SameSide P s.store s'.store owner r
  binding : ∀ x, x ≠ escapeStoreSegment P p.relation →
    s'.store (.workspaceBinding x) = s.store (.workspaceBinding x)

theorem Elsewhere.samePair (h : Elsewhere p s s') (hq : p.relation ≠ q.relation) :
    SamePair s.store s'.store q := by
  have hr : escapeStoreSegment P q.relation ≠ escapeStoreSegment P p.relation := by
    rwa [Ne, escapeStoreSegment_inj q.trimSpace_relation p.trimSpace_relation, eq_comm]
  exact ⟨fun owner => h.side owner _ hr, h.binding _ hr⟩

-- Peers are friends altogether or not at all.
abbrev Whole (s : State) (q : Pair P) : Prop :=
  Inactive P s.store q ∨ ∃ inc w, Minted P s q.relation inc w ∧
    Committed P s q.relation inc w ∧ Active P s.store q w

theorem Elsewhere.whole (h : Elsewhere p s s') (hq : p.relation ≠ q.relation)
    (hn : ∀ w t, s.names w = some t → s'.names w = some t)
    (hd : ∀ x y c, s.store (.creationDecision x y) = some c →
      s'.store (.creationDecision x y) = some c) (hw : Whole s q) : Whole s' q := by
  have hsame := h.samePair hq
  rcases hw with hw | ⟨inc, w, hm, hc, ha⟩
  case inl => exact .inl (hsame.inactive hw)
  case inr => exact .inr ⟨inc, w, hm.of_names hn, hd _ _ _ hc, hsame.active.mpr ha⟩

end Elsewhere

section Retire

variable {i : RetirementIntent}
variable (h : Applied (retireMutation P p.fst p.snd i) s s')

include h

theorem retire_store (hk : k.ofMembers = false) :
    s'.store k = if k = friendKey P p.fst i.relationID ∨ k = friendKey P p.snd i.relationID ∨
        k = workspaceBindingKey P i.relationID then none
      else if k = retirementIntentKey P i.relationID then some (.record (.retirementIntent i))
      else s.store k := by
  rw [lookup_applyMutation h.mutation]
  · simp [putAll, Function.update_apply]
    rfl
  · rintro g hg rfl
    simp at hg
    rcases hg with rfl | rfl | rfl | rfl | rfl | rfl | rfl | rfl <;> cases hk

theorem retire_mem (hk : k.ofMembers)
    (hb : ∀ g ∈ (retireMutation P p.fst p.snd i).groups, g.key = k → g.phase.ordered = b) :
    x ∈ s'.store.members b k ↔ (((x ∈ s.store.members b k ∨
      Names (Work.retirement.index.add P i.relationID) k x) ∧
      ¬Names (retireMutation P p.fst p.snd i).removeMembers k x) ∨ Names [] k x) ∧
      ¬Names (retireMutation P p.fst p.snd i).removeOrderedMembers k x := by
  refine mem_applyMutation h.mutation ⟨?_, ?_, hb⟩
  · rintro e he rfl
    cases List.mem_singleton.mp he
    cases hk
  · intro hd
    simp only [retireMutation, List.mem_cons, List.not_mem_nil, or_false] at hd
    rcases hd with rfl | rfl | rfl <;> cases hk

theorem retire_collection :
    x ∈ s'.store.members false (.friendCollection o) ↔
      x ∈ s.store.members false (.friendCollection o) ∧
      ¬((friendCollectionKey P p.fst = .friendCollection o ∨
        friendCollectionKey P p.snd = .friendCollection o) ∧ x = i.relationID) := by
  rw [retire_mem h rfl]
  · simp
    tauto
  · simp

theorem retire_page :
    x ∈ s'.store.members true (.friendPage o) ↔ x ∈ s.store.members true (.friendPage o) ∧
      ¬((friendPageKey P p.fst = .friendPage o ∨ friendPageKey P p.snd = .friendPage o) ∧
        x = escapeStoreSegment P i.relationID) := by
  rw [retire_mem h rfl]
  · simp
    tauto
  · simp

theorem retire_admin :
    x ∈ s'.store.members true (.adminFriendBucket (P.bucket x)) ↔
      x ∈ s.store.members true (.adminFriendBucket (P.bucket x)) ∧
      x ≠ rowCursor P p.fst i.relationID ∧ x ≠ rowCursor P p.snd i.relationID := by
  rw [retire_mem h rfl]
  · simp [rowCursor]
    intro _
    constructor
    · rintro ⟨h₁, h₂⟩
      exact ⟨fun hx => h₁ (by rw [hx]) hx, fun hx => h₂ (by rw [hx]) hx⟩
    · rintro ⟨h₁, h₂⟩
      exact ⟨fun _ => h₁, fun _ => h₂⟩
  · simp

theorem retire_adds : Adds P .retirement i.relationID s s' := by
  refine OffIndex.index_adds (m := retireMutation P p.fst p.snd i) ?_ h rfl ?_
  · constructor <;> simp
  · simp

variable (hr : i.relationID = p.relation)

include hr

theorem retire_elsewhere : Elsewhere p s s' where
  side := fun owner r hne => by
    rw [← hr] at hne
    refine ⟨?_, ?_, ?_, ?_⟩
    · rw [retire_store h rfl, if_neg, if_neg (by simp)]
      simp [hne]
    · rw [friendCollectionKey, retire_collection h, and_iff_left]
      rintro ⟨-, rfl⟩
      exact hne rfl
    · rw [friendPageKey, retire_page h, and_iff_left]
      rintro ⟨-, hx⟩
      exact hne hx
    · rw [retire_admin h, and_iff_left]
      exact ⟨fun hx => hne (rowCursor_inj hx), fun hx => hne (rowCursor_inj hx)⟩
  binding := fun x hx => by
    rw [← hr] at hx
    rw [retire_store h rfl, if_neg, if_neg (by simp)]
    simp [hx]

theorem retire_noSide (ho : owner = p.fst ∨ owner = p.snd) :
    NoSide P s'.store owner p.relation := by
  rw [← hr]
  refine ⟨?_, ?_, ?_, ?_⟩
  · rw [retire_store h rfl, if_pos]
    rcases ho with rfl | rfl
    · exact .inl rfl
    · exact .inr (.inl rfl)
  · rw [friendCollectionKey, retire_collection h]
    refine fun hx => hx.right ⟨?_, rfl⟩
    rcases ho with rfl | rfl
    · exact .inl rfl
    · exact .inr rfl
  · rw [friendPageKey, retire_page h]
    refine fun hx => hx.right ⟨?_, rfl⟩
    rcases ho with rfl | rfl
    · exact .inl rfl
    · exact .inr rfl
  · rw [retire_admin h]
    rintro ⟨-, h₁, h₂⟩
    rcases ho with rfl | rfl
    · exact h₁ rfl
    · exact h₂ rfl

theorem retire_inactive : Inactive P s'.store p :=
  ⟨retire_noSide h hr (.inl rfl), retire_noSide h hr (.inr rfl), by
    rw [retire_store h rfl, if_pos (.inr (.inr (by rw [hr])))]⟩

theorem retire_whole (hi : FriendsInv P s) (hd : ∀ x y c, s.store (.creationDecision x y) = some c →
      s'.store (.creationDecision x y) = some c) (q : Pair P) : Whole s' q := by
  by_cases hq : p.relation = q.relation
  case pos => exact .inl ((retire_inactive h hr).of_relation hq)
  case neg => exact (retire_elsewhere h hr).whole hq h.names_le hd (hi.whole q)

theorem retire_keeps (hi : Inv P G s) (hs : Settled P s i)
    (hR : G → ClearsRetirement P s i.relationID i.workspaceName)
    (hB : G → ClearsBinding P s i.relationID i.workspaceName) : Inv P G s' ∧ Next P G s s' := by
  have hdecision (x y : Text) : s'.store (.creationDecision x y) =
      s.store (.creationDecision x y) := by
    rw [retire_store h rfl, if_neg (by simp), if_neg (by simp)]
  have hintent (x : Text) : s'.store (.creationIntent x) = s.store (.creationIntent x) := by
    rw [retire_store h rfl, if_neg (by simp), if_neg (by simp)]
  have hrevision (o : Text) : revision s' o = revision s o := by
    unfold revision
    rw [retire_store h rfl, if_neg (by simp), if_neg (by simp)]
  have hretirement (x : Text) : s'.store (.retirementIntent x) =
      if x = escapeStoreSegment P i.relationID then some (.record (.retirementIntent i))
      else s.store (.retirementIntent x) := by
    rw [retire_store h rfl, if_neg (by simp)]
    simp
  have hfriends (o : Text) : friends s' o ⊆ friends s o :=
    fun x hx => ((retire_collection h).mp hx).left
  have hknown (o : Text) (hk : Known s o) : Known s' o := by
    intro c hc
    rw [hrevision] at hc
    obtain ⟨v, hv, hd⟩ := hk c hc
    exact ⟨v, hv, hd.of_subset h.revisions⟩
  have hdecisions (x y : Text) (c) (hc : s.store (.creationDecision x y) = some c) :
      s'.store (.creationDecision x y) = some c :=
    (hdecision x y).trans hc
  refine ⟨⟨?friends, ?records, ?workspaces, ?named⟩, ?next⟩
  case friends =>
    refine ⟨retire_whole h hr hi.friends hdecisions, ?_, ?_, fun o =>
      hknown o (hi.friends.known o), ?_⟩
    · intro o x hx
      rw [retire_store h rfl] at hx
      split at hx
      case isTrue => exact absurd rfl hx
      case isFalse =>
        exact hi.friends.rows o x hx
    · intro x hx
      rw [retire_store h rfl] at hx
      split at hx
      case isTrue => exact absurd rfl hx
      case isFalse =>
        exact hi.friends.bindings x hx
    · exact fun o => (Finset.card_le_card (hfriends o)).trans (hi.friends.limit o)
  case records =>
    refine hi.records.grow h.names_le hdecisions ?_ ?_ ?_ ?_
    · exact fun x y c hc => .inl (hdecision x y ▸ hc)
    · exact fun x c hc => .inl (hintent x ▸ hc)
    · intro x c hc
      rw [hretirement] at hc
      split at hc
      case isFalse => exact .inl hc
      case isTrue hx =>
        cases hc
        exact .inr ⟨i, rfl, hx, hs.of_grows h.names_le hdecisions⟩
    · refine (retire_adds h).indexed hi.records.indexed hr fun work q hq => ?_
      cases work
      case creation => exact .inl (by rwa [Work.recordKey, creationIntentKey, hintent] at hq)
      case retirement =>
        rw [Work.recordKey, retirementIntentKey, hretirement] at hq
        split at hq
        case isFalse => exact .inl hq
        case isTrue hx => exact .inr ⟨rfl, congrArg Key.retirementIntent hx⟩
  case workspaces =>
    rw [h.workspaces]
    exact hi.workspaces
  case named =>
    intro hG w hw
    rw [h.workspaces] at hw
    have hthis : s'.store (retirementIntentKey P i.relationID) =
        some (.record (.retirementIntent i)) := by
      rw [retirementIntentKey, hretirement, if_pos rfl]
    cases hi.named hG w hw
    case creation j hjw hj hd =>
      refine .creation j hjw ((hintent _).trans hj) ?_
      unfold Decided creationDecisionKey at hd ⊢
      rwa [hdecision]
    case binding r b hbw hb =>
      by_cases hk : workspaceBindingKey P r = workspaceBindingKey P i.relationID
      case pos =>
        rw [hk] at hb
        rcases hB hG b hb with hb | hb
        case inl => exact .retirement i.relationID i (hb.symm.trans hbw) hthis
        case inr => exact absurd hb (by rw [hbw]; exact hw)
      case neg =>
        refine .binding r b hbw ?_
        rw [retire_store h rfl, if_neg (by simpa using hk),
          if_neg (by simp), hb]
    case retirement r j hjw hj =>
      by_cases hk : escapeStoreSegment P r = escapeStoreSegment P i.relationID
      case pos =>
        rw [retirementIntentKey, hk] at hj
        rcases hR hG j hj with hj | hj
        case inl => exact .retirement i.relationID i (hj.symm.trans hjw) hthis
        case inr => exact absurd hj (by rw [hjw]; exact hw)
      case neg =>
        exact .retirement r j hjw (by rw [retirementIntentKey, hretirement, if_neg hk]; exact hj)
  case next =>
    refine ⟨h.names_le, hdecisions, ?_, ?_, h.revisions, hknown, fun o _ => .inl (hrevision o),
      fun o _ _ => hfriends o, ?_⟩
    · intro j hj
      unfold HasIntent Decided creationIntentKey creationDecisionKey at hj ⊢
      rwa [hintent, hdecision]
    · intro q inc w _ _ ha ha'
      by_cases hq : p.relation = q.relation
      case pos => exact ha'.not_inactive ((retire_inactive h hr).of_relation hq)
      case neg => exact ha (((retire_elsewhere h hr).samePair hq).active.mp ha')
    · intro _ _ _ _ _ _ hn
      rw [h.workspaces]
      exact hn

end Retire

section Commit

-- The conditions of a commit on what the peers' friends were counted at.
def capacityAt (p : Pair P) (e₁ e₂ : Option Value) : List Condition :=
  [⟨peerFriendRevisionKey P p.fst, e₁⟩, ⟨peerFriendRevisionKey P p.snd, e₂⟩]

variable {i : CreationIntent} {ws : Workspace} {e₁ e₂ : Option Value} {t : Time} {u₁ u₂ : Text}
variable (h : Applied (commitMutation P p.fst p.snd i ws (capacityAt p e₁ e₂) t [u₁, u₂]) s s')

include h

theorem commit_store (hk : k.ofMembers = false) : s'.store k =
    if k = peerFriendRevisionKey P p.snd then some (.record (.revision u₂))
    else if k = peerFriendRevisionKey P p.fst then some (.record (.revision u₁))
    else if k = creationDecisionKey P p.relation i.incarnationID then
      some (.record (.creationDecision (i.decision .committed)))
    else if k = workspaceLocatorNameKey P ws.name then
      some (.record (.workspaceLocator (newBinding p.relation i ws).locator))
    else if k = workspaceLocatorIDKey P ws.id then
      some (.record (.workspaceLocator (newBinding p.relation i ws).locator))
    else if k = workspaceBindingKey P p.relation then
      some (.record (.workspaceBinding (newBinding p.relation i ws)))
    else if k = friendKey P p.snd p.relation then
      some (.record (.friend (friendRow p.relation p.fst i t)))
    else if k = friendKey P p.fst p.relation then
      some (.record (.friend (friendRow p.relation p.snd i t))) else s.store k := by
  rw [lookup_applyMutation h.mutation]
  · simp only [commitMutation, capacityAt, workspaceLocatorEntries, putAll,
      Function.update_apply, List.zipWith_cons_cons, List.zipWith_nil_left, List.cons_append,
      List.nil_append, List.foldl_cons, List.foldl_nil, List.not_mem_nil, if_false]
    rfl
  · rintro g hg rfl
    simp at hg
    rcases hg with rfl | rfl | rfl | rfl | rfl | rfl | rfl | rfl <;> cases hk

theorem commit_friend : s'.store (.friend o x) =
    if .friend o x = friendKey P p.snd p.relation then
      some (.record (.friend (friendRow p.relation p.fst i t)))
    else if .friend o x = friendKey P p.fst p.relation then
      some (.record (.friend (friendRow p.relation p.snd i t))) else s.store (.friend o x) := by
  rw [commit_store h rfl]
  simp

theorem commit_binding : s'.store (.workspaceBinding x) =
    if .workspaceBinding x = workspaceBindingKey P p.relation then
      some (.record (.workspaceBinding (newBinding p.relation i ws)))
    else s.store (.workspaceBinding x) := by
  rw [commit_store h rfl]
  simp

theorem commit_decision : s'.store (.creationDecision x y) =
    if .creationDecision x y = creationDecisionKey P p.relation i.incarnationID then
      some (.record (.creationDecision (i.decision .committed)))
    else s.store (.creationDecision x y) := by
  rw [commit_store h rfl]
  simp

theorem commit_revision : revision s' o =
    if .peerFriendRevision o = peerFriendRevisionKey P p.snd then some (.record (.revision u₂))
    else if .peerFriendRevision o = peerFriendRevisionKey P p.fst then some (.record (.revision u₁))
    else revision s o := by
  unfold revision
  rw [commit_store h rfl]
  simp

theorem commit_creationIntent : s'.store (.creationIntent x) = s.store (.creationIntent x) := by
  rw [commit_store h rfl]
  simp

theorem commit_retirementIntent :
    s'.store (.retirementIntent x) = s.store (.retirementIntent x) := by
  rw [commit_store h rfl]
  simp

theorem commit_mem (hk : k.ofMembers)
    (hb : ∀ g ∈ (commitMutation P p.fst p.snd i ws (capacityAt p e₁ e₂) t [u₁, u₂]).groups,
      g.key = k → g.phase.ordered = b) : x ∈ s'.store.members b k ↔
      (((x ∈ s.store.members b k ∨ Names [⟨friendCollectionKey P p.fst, [p.relation]⟩,
        ⟨friendCollectionKey P p.snd, [p.relation]⟩,
        adminFriendDirectoryMembership P p.fst p.relation,
        adminFriendDirectoryMembership P p.snd p.relation] k x) ∧ ¬Names [] k x) ∨
      Names [adminFriendMembership P p.fst p.relation, adminFriendMembership P p.snd p.relation,
        friendPageMembership P p.fst p.relation, friendPageMembership P p.snd p.relation] k x) ∧
      ¬Names [] k x := by
  refine mem_applyMutation h.mutation ⟨?_, by simp, hb⟩
  rintro e he rfl
  simp only [commitMutation, capacityAt, workspaceLocatorEntries, List.mem_append, List.mem_cons,
    List.not_mem_nil, or_false, List.zipWith_cons_cons, List.zipWith_nil_left] at he
  rcases he with ((rfl | rfl | rfl) | rfl | rfl) | rfl | rfl | rfl <;> cases hk

theorem commit_collection :
    x ∈ s'.store.members false (.friendCollection o) ↔
      x ∈ s.store.members false (.friendCollection o) ∨
      ((friendCollectionKey P p.fst = .friendCollection o ∨
        friendCollectionKey P p.snd = .friendCollection o) ∧ x = p.relation) := by
  rw [commit_mem h rfl]
  · simp
    tauto
  · simp

theorem commit_page :
    x ∈ s'.store.members true (.friendPage o) ↔ x ∈ s.store.members true (.friendPage o) ∨
      ((friendPageKey P p.fst = .friendPage o ∨ friendPageKey P p.snd = .friendPage o) ∧
        x = escapeStoreSegment P p.relation) := by
  rw [commit_mem h rfl]
  · simp
    tauto
  · simp

theorem commit_admin :
    x ∈ s'.store.members true (.adminFriendBucket (P.bucket x)) ↔
      x ∈ s.store.members true (.adminFriendBucket (P.bucket x)) ∨
      x = rowCursor P p.fst p.relation ∨ x = rowCursor P p.snd p.relation := by
  rw [commit_mem h rfl]
  · simp [rowCursor]
    constructor
    · rintro (hx | ⟨-, hx⟩ | ⟨-, hx⟩)
      · exact .inl hx
      · exact .inr (.inl hx)
      · exact .inr (.inr hx)
    · rintro (hx | hx | hx)
      · exact .inl hx
      · exact .inr (.inl ⟨by rw [hx], hx⟩)
      · exact .inr (.inr ⟨by rw [hx], hx⟩)
  · simp

theorem commit_recovery (hk : k.ofRecovery) :
    s'.store.members false k = s.store.members false k := by
  refine KV.Typed.Store.members_congr ?_
  refine KV.Typed.Store.applyMutation_of_untouched h.mutation ?_ (by simp) ?_
  · rintro e he rfl
    simp only [commitMutation, capacityAt, workspaceLocatorEntries, List.mem_append, List.mem_cons,
      List.not_mem_nil, or_false, List.zipWith_cons_cons, List.zipWith_nil_left] at he
    rcases he with ((rfl | rfl | rfl) | rfl | rfl) | rfl | rfl | rfl <;> cases hk
  · rintro g hg rfl
    simp at hg
    rcases hg with rfl | rfl | rfl | rfl | rfl | rfl | rfl | rfl <;> cases hk

theorem commit_before : s.store (creationDecisionKey P p.relation i.incarnationID) = none ∧
    s.store (peerFriendRevisionKey P p.fst) = e₁.map .record ∧
    s.store (peerFriendRevisionKey P p.snd) = e₂.map .record := by
  have hc := (KV.Typed.Store.applyMutation_eq_some h.mutation).left
  simpa [capacityAt, Pair.relation] using hc

theorem commit_decisions (x y : Text) (c : KV.Typed.Content Value Text)
    (hc : s.store (.creationDecision x y) = some c) :
    s'.store (.creationDecision x y) = some c := by
  rw [commit_decision h, if_neg, hc]
  intro hk
  rw [hk, (commit_before h).left] at hc
  cases hc

theorem commit_committed (hr : i.relationID = p.relation) :
    Committed P s' p.relation i.incarnationID i.workspace := by
  refine (commit_decision h).trans ((if_pos rfl).trans ?_)
  rw [CreationIntent.decision, hr]

theorem commit_elsewhere : Elsewhere p s s' where
  side := fun owner r hne => by
    refine ⟨?_, ?_, ?_, ?_⟩
    · rw [friendKey, commit_friend h, if_neg (by simp [hne]),
        if_neg (by simp [hne])]
    · rw [friendCollectionKey, commit_collection h, or_iff_left]
      rintro ⟨-, rfl⟩
      exact hne rfl
    · rw [friendPageKey, commit_page h, or_iff_left]
      rintro ⟨-, hx⟩
      exact hne hx
    · rw [commit_admin h, or_iff_left]
      rintro (hx | hx) <;> exact hne (rowCursor_inj hx)
  binding := fun x hx => by
    rw [commit_binding h, if_neg (by simpa using hx)]

theorem commit_active (hn : ws.name = i.workspace) (hw : ws.id = ws.name) :
    Active P s'.store p i.workspace := by
  have hne : friendKey P p.fst p.relation ≠ friendKey P p.snd p.relation := by
    simp only [friendKey, ne_eq, Key.friend.injEq, and_true]
    rw [trimSpace_of_isPublicKey p.isPublicKey_fst, trimSpace_of_isPublicKey p.isPublicKey_snd,
      escapeStoreSegment_inj (trimSpace_of_isPublicKey p.isPublicKey_fst)
        (trimSpace_of_isPublicKey p.isPublicKey_snd)]
    exact p.ne
  refine ⟨⟨?_, ?_, ?_, ?_⟩, ⟨?_, ?_, ?_, ?_⟩, ?_⟩
  · exact ⟨_, (commit_friend h).trans ((if_neg hne).trans (if_pos rfl)), rfl, rfl, rfl⟩
  · exact (commit_collection h).mpr (.inr ⟨.inl rfl, rfl⟩)
  · exact (commit_page h).mpr (.inr ⟨.inl rfl, rfl⟩)
  · exact (commit_admin h).mpr (.inr (.inl rfl))
  · exact ⟨_, (commit_friend h).trans (if_pos rfl), rfl, rfl, rfl⟩
  · exact (commit_collection h).mpr (.inr ⟨.inr rfl, rfl⟩)
  · exact (commit_page h).mpr (.inr ⟨.inr rfl, rfl⟩)
  · exact (commit_admin h).mpr (.inr (.inr rfl))
  · exact ⟨_, (commit_binding h).trans (if_pos rfl), rfl, hw.trans hn, hn⟩

variable (hu₁ : u₁ ∉ s.revisions ∧ u₁ ∈ s'.revisions) (hu₂ : u₂ ∉ s.revisions ∧ u₂ ∈ s'.revisions)

section Revisions

include hu₁ hu₂

theorem commit_known (o : Text) (hk : Known s o) : Known s' o := by
  intro c hc
  rw [commit_revision h] at hc
  split at hc
  case isTrue =>
    cases hc
    exact ⟨_, rfl, u₂, hu₂.right, rfl⟩
  case isFalse =>
    split at hc
    case isTrue =>
      cases hc
      exact ⟨_, rfl, u₁, hu₁.right, rfl⟩
    case isFalse =>
      obtain ⟨v, hv, hd⟩ := hk c hc
      exact ⟨v, hv, hd.of_subset h.revisions⟩

theorem commit_fresh (o : Text) : revision s' o = revision s o ∨
    ∃ u, u ∉ s.revisions ∧ revision s' o = some (.record (.revision u)) := by
  rw [commit_revision h]
  split
  case isTrue => exact .inr ⟨u₂, hu₂.left, rfl⟩
  case isFalse =>
    split
    case isTrue => exact .inr ⟨u₁, hu₁.left, rfl⟩
    case isFalse => exact .inl rfl

-- Who gets a friend gets a revision that was never there.
theorem commit_friends (hk : Known s o) (he : revision s' o = revision s o) :
    friends s' o ⊆ friends s o := by
  have hnew (u : Text) (hu : u ∉ s.revisions) : revision s o ≠ some (.record (.revision u)) := by
    intro hr
    obtain ⟨v, hv, u', hu', rfl⟩ := hk _ hr
    cases hv
    exact hu hu'
  intro x hx
  rcases (commit_collection h).mp hx with hx | ⟨ho | ho, -⟩
  case inl => exact hx
  all_goals
    cases ho
    rw [commit_revision h] at he
  case inr.inr => exact absurd ((if_pos rfl).symm.trans he).symm (hnew u₂ hu₂.left)
  case inr.inl =>
    split at he
    case isTrue => exact absurd he.symm (hnew u₂ hu₂.left)
    case isFalse => exact absurd ((if_pos rfl).symm.trans he).symm (hnew u₁ hu₁.left)

end Revisions

variable (hR₁ : Room s (escapeStoreSegment P (P.trimSpace p.fst)) e₁)
variable (hR₂ : Room s (escapeStoreSegment P (P.trimSpace p.snd)) e₂)

include hR₁ hR₂ in
theorem commit_limit (hl : ∀ o, (friends s o).card ≤ peerFriendLimit) (o : Text) :
    (friends s' o).card ≤ peerFriendLimit := by
  have hgrow (hroom : (friends s o).card < peerFriendLimit) :
      (friends s' o).card ≤ peerFriendLimit := by
    have hsub : friends s' o ⊆ insert p.relation (friends s o) := by
      intro x hx
      rcases (commit_collection h).mp hx with hx | ⟨-, rfl⟩
      · exact Finset.mem_insert_of_mem hx
      · exact Finset.mem_insert_self _ _
    calc (friends s' o).card
      _ ≤ (insert p.relation (friends s o)).card := Finset.card_le_card hsub
      _ ≤ (friends s o).card + 1 := Finset.card_insert_le _ _
      _ ≤ peerFriendLimit := hroom
  by_cases h₁ : friendCollectionKey P p.fst = .friendCollection o
  case pos =>
    cases h₁
    exact hgrow (hR₁.room (commit_before h).right.left)
  by_cases h₂ : friendCollectionKey P p.snd = .friendCollection o
  case pos =>
    cases h₂
    exact hgrow (hR₂.room (commit_before h).right.right)
  case neg =>
    refine (Finset.card_le_card fun x hx => ?_).trans (hl o)
    rcases (commit_collection h).mp hx with hx | ⟨ho | ho, -⟩
    · exact hx
    · exact absurd ho h₁
    · exact absurd ho h₂

variable (hg : Genuine P s i) (hr : i.relationID = p.relation)
variable (hn : ws.name = i.workspace) (hw : ws.id = ws.name)

include hg hr hn hw

theorem commit_whole (hi : FriendsInv P s) (q : Pair P) : Whole s' q := by
  by_cases hq : p.relation = q.relation
  case pos =>
    refine .inr ⟨i.incarnationID, i.workspace, ?_, ?_, (commit_active h hn hw).of_relation hq⟩
    · rw [← hq, ← hr]
      exact hg.minted.of_names h.names_le
    · rw [← hq]
      exact commit_committed h hr
  case neg => exact (commit_elsewhere h).whole hq h.names_le (commit_decisions h) (hi.whole q)

omit hr in
-- An incarnation that was decided before is not what is published now.
theorem commit_hidden (hm : Minted P s q.relation inc w) (hd : Decided P s q.relation inc)
    (ha : ¬Active P s.store q w) : ¬Active P s'.store q w := by
  intro ha'
  by_cases hq : p.relation = q.relation
  case neg => exact ha (((commit_elsewhere h).samePair hq).active.mp ha')
  case pos =>
    obtain ⟨b, hb, -, -, hbw⟩ := ha'.binding
    obtain ⟨b', hb', -, -, hbw'⟩ := ((commit_active h hn hw).of_relation hq).binding
    rw [hb] at hb'
    cases hb'
    rw [← hbw, hbw'] at hm
    obtain ⟨-, rfl⟩ := hg.minted.eq hm
    rw [← hq] at hd
    exact hd (commit_before h).left

omit hw in
theorem commit_named (hi : Inv P G s) (hG : G) (hB : ClearsBinding P s p.relation i.workspace)
    (hlive : s.workspaces w ≠ none) : Named P s' w := by
  have hthis : s'.store (workspaceBindingKey P p.relation) =
      some (.record (.workspaceBinding (newBinding p.relation i ws))) :=
    (commit_binding h).trans (if_pos rfl)
  cases hi.named hG w hlive
  case creation j hjw hj hd =>
    by_cases hd' : Decided P s' j.relationID j.incarnationID
    case neg =>
      refine .creation j hjw ?_ hd'
      exact (commit_creationIntent h).trans hj
    case pos =>
      refine .binding p.relation _ ?_ hthis
      obtain ⟨j', hj', -, hgj⟩ := hi.records.intents _ _ hj
      cases hj'
      obtain ⟨q', -, -, hq'⟩ := hgj.peers
      unfold Decided creationDecisionKey at hd hd'
      rw [commit_decision h] at hd'
      split at hd'
      case isFalse => exact absurd hd' hd
      case isTrue hk =>
        simp only [creationDecisionKey, Key.creationDecision.injEq] at hk
        rw [hq', escapeStoreSegment_inj q'.trimSpace_relation p.trimSpace_relation,
          escapeStoreSegment_inj hgj.minted.trimSpace hg.minted.trimSpace] at hk
        change ws.name = w
        rw [hn, ← hjw, hg.minted.left, hgj.minted.left, hr, hq', hk.left, hk.right]
  case binding r b hbw hb =>
    by_cases hk : workspaceBindingKey P r = workspaceBindingKey P p.relation
    case pos =>
      rw [hk] at hb
      rcases hB b hb with hb | hb
      case inl => exact .binding p.relation _ ((hn.trans hb.symm).trans hbw) hthis
      case inr => exact absurd hb (by rw [hbw]; exact hlive)
    case neg => exact .binding r b hbw ((commit_binding h).trans ((if_neg hk).trans hb))
  case retirement r j hjw hj =>
    exact .retirement r j hjw ((commit_retirementIntent h).trans hj)

include hu₁ hu₂ hR₁ hR₂

theorem commit_keeps (hi : Inv P G s) (hB : G → ClearsBinding P s p.relation i.workspace) :
    Inv P G s' ∧ Next P G s s' := by
  obtain ⟨q₀, -, -, hq₀⟩ := hg.peers
  refine ⟨⟨?friends, ?records, ?workspaces, ?named⟩, ?next⟩
  case friends =>
    refine ⟨commit_whole h hg hr hn hw hi.friends, ?_, ?_,
      fun o => commit_known h hu₁ hu₂ o (hi.friends.known o),
      commit_limit h hR₁ hR₂ hi.friends.limit⟩
    · intro o x hx
      rw [commit_friend h] at hx
      split at hx
      case isTrue hk =>
        rw [friendKey, trimSpace_of_isPublicKey p.isPublicKey_snd] at hk
        cases hk
        exact ⟨p.swap, rfl, by rw [Pair.relation_swap]⟩
      case isFalse =>
        split at hx
        case isTrue hk =>
          rw [friendKey, trimSpace_of_isPublicKey p.isPublicKey_fst] at hk
          cases hk
          exact ⟨p, rfl, rfl⟩
        case isFalse => exact hi.friends.rows o x hx
    · intro x hx
      rw [commit_binding h] at hx
      split at hx
      case isTrue hk => cases hk; exact ⟨p, rfl⟩
      case isFalse => exact hi.friends.bindings x hx
  case records =>
    refine hi.records.grow h.names_le (commit_decisions h) ?_ ?_ ?_ ?_
    · intro x y c hc
      rw [commit_decision h] at hc
      split at hc
      case isFalse => exact .inl hc
      case isTrue hk =>
        cases hk
        cases hc
        refine .inr ⟨_, rfl, ?_, rfl, hg.minted.of_names h.names_le, q₀, hq₀⟩
        rw [CreationIntent.decision, hr]
    · exact fun x c hc => .inl ((commit_creationIntent h).symm.trans hc)
    · exact fun x c hc => .inl ((commit_retirementIntent h).symm.trans hc)
    · intro work q hq
      rw [commit_recovery h rfl, commit_recovery h rfl]
      refine hi.records.indexed work q ?_
      cases work
      case creation => exact fun hx => hq ((commit_creationIntent h).trans hx)
      case retirement => exact fun hx => hq ((commit_retirementIntent h).trans hx)
  case workspaces =>
    rw [h.workspaces]
    exact hi.workspaces
  case named =>
    intro hG w hlive
    rw [h.workspaces] at hlive
    exact commit_named h hg hr hn hi hG (hB hG) hlive
  case next =>
    refine ⟨h.names_le, commit_decisions h, ?_, fun _ _ _ => commit_hidden h hg hn hw,
      h.revisions, commit_known h hu₁ hu₂, fun o _ => commit_fresh h hu₁ hu₂ o,
      fun _ => commit_friends h hu₁ hu₂, ?_⟩
    · intro j hj
      rcases hj with hj | hj
      case inl => exact .inl ((commit_creationIntent h).trans hj)
      case inr => exact .inr (hj.of_decisions (commit_decisions h))
    · intro _ _ _ _ _ _ hn
      rw [h.workspaces]
      exact hn

end Commit

end GizClaw.Friend

import GizClaw.Friend.Theorems.Invariant

-- What each mutation of the service does to the store, and that it keeps the invariant.

namespace GizClaw.Friend

open Interleaving
open PendingDeletion (Text)
open Social hiding Call
open KV.Typed (Names)
open KV.Typed.Store (members_congr lookup_applyMutation putAll applyMutation_eq_some)

variable {P : Platform} {G : Prop} {s s' : State} {σ : Store} {m : Mutation}

attribute [local simp] KV.Typed.Mutation.groups deleteIntentMutation createIntentMutation Work.index
  completeMutation cancelMutation RecoveryIndex.remove RecoveryIndex.add repairMutation putAll
  Work.recordKey retirementIntentKey creationIntentKey retirementReceiptKey creationDecisionKey

-- The keys that say who are friends.
@[local simp]
def Key.ofFriends : Key → Bool
  | friend .. => true
  | friendCollection _ => true
  | friendPage _ => true
  | peerFriendRevision _ => true
  | adminFriendBucket _ => true
  | workspaceBinding _ => true
  | _ => false

-- The keys of collections.
def Key.ofMembers : Key → Bool
  | friendCollection _ => true
  | friendPage _ => true
  | adminFriendBuckets => true
  | adminFriendBucket _ => true
  | recoveryDirectory _ => true
  | recoveryBucket .. => true
  | _ => false

-- The index of recovery.
def Key.ofRecovery : Key → Bool
  | recoveryDirectory _ => true
  | recoveryBucket .. => true
  | _ => false

section Sides

variable {σ' : Store} {p : Pair P} {owner peer owner' r r' w : Text}

-- Nothing has changed for one peer in one relation.
structure SameSide (P : Platform) (σ σ' : Store) (owner r : Text) : Prop where
  row : σ' (friendKey P owner r) = σ (friendKey P owner r)
  collection : r ∈ σ'.members false (friendCollectionKey P owner) ↔
    r ∈ σ.members false (friendCollectionKey P owner)
  page : escapeStoreSegment P r ∈ σ'.members true (friendPageKey P owner) ↔
    escapeStoreSegment P r ∈ σ.members true (friendPageKey P owner)
  admin : rowCursor P owner r ∈ σ'.members true
    (.adminFriendBucket (P.bucket (rowCursor P owner r))) ↔
    rowCursor P owner r ∈ σ.members true (.adminFriendBucket (P.bucket (rowCursor P owner r)))

theorem SameSide.side (h : SameSide P σ σ' owner r) :
    Side P σ' owner peer r w ↔ Side P σ owner peer r w := by
  constructor <;> intro hs
  · exact ⟨h.row ▸ hs.row, h.collection.mp hs.collection, h.page.mp hs.page, h.admin.mp hs.admin⟩
  · exact ⟨h.row ▸ hs.row, h.collection.mpr hs.collection, h.page.mpr hs.page, h.admin.mpr hs.admin⟩

-- Nothing has changed for two peers.
structure SamePair (σ σ' : Store) (p : Pair P) : Prop where
  side : ∀ owner, SameSide P σ σ' owner p.relation
  binding : σ' (workspaceBindingKey P p.relation) = σ (workspaceBindingKey P p.relation)

theorem SamePair.active (h : SamePair σ σ' p) : Active P σ' p w ↔ Active P σ p w := by
  constructor <;> intro ha
  · exact ⟨(h.side _).side.mp ha.fst, (h.side _).side.mp ha.snd, h.binding ▸ ha.binding⟩
  · exact ⟨(h.side _).side.mpr ha.fst, (h.side _).side.mpr ha.snd, h.binding ▸ ha.binding⟩

theorem SamePair.inactive (h : SamePair σ σ' p) (hi : Inactive P σ p) : Inactive P σ' p := by
  have hside (owner : Text) (hs : NoSide P σ owner p.relation) : NoSide P σ' owner p.relation :=
    have hs' := h.side owner
    ⟨hs'.row.trans hs.row, hs'.collection.not.mpr hs.collection, hs'.page.not.mpr hs.page,
      hs'.admin.not.mpr hs.admin⟩
  exact ⟨hside _ hi.fst, hside _ hi.snd, h.binding.trans hi.binding⟩

theorem rowCursor_inj (h : rowCursor P owner r = rowCursor P owner' r') :
    escapeStoreSegment P r = escapeStoreSegment P r' := by
  have hc := (List.append_cons_inj_of_notMem (P.queryEscape_slash _) (P.queryEscape_slash _)).mp h
  exact hc.right.right

end Sides

section Quiet

-- Nothing that is about friends has changed, and what was decided and named stays so.
structure Quiet (s s' : State) : Prop where
  store : ∀ k : Key, k.ofFriends → s'.store k = s.store k
  names : ∀ w t, s.names w = some t → s'.names w = some t
  decisions : ∀ x y c, s.store (.creationDecision x y) = some c →
    s'.store (.creationDecision x y) = some c
  revisions : s.revisions ⊆ s'.revisions

namespace Quiet

variable (h : Quiet s s')

include h

theorem samePair (p : Pair P) : SamePair s.store s'.store p where
  side := fun owner => ⟨h.store _ rfl, by rw [members_congr (h.store _ rfl)],
    by rw [members_congr (h.store _ rfl)], by rw [members_congr (h.store _ rfl)]⟩
  binding := h.store _ rfl

theorem friends (o : Text) : Friend.friends s' o = Friend.friends s o :=
  members_congr (h.store _ rfl)

theorem revision (o : Text) : Friend.revision s' o = Friend.revision s o :=
  h.store _ rfl

theorem known (hk : Known s o) : Known s' o := by
  intro c hc
  rw [h.revision] at hc
  obtain ⟨v, hv, hd⟩ := hk c hc
  exact ⟨v, hv, hd.of_subset h.revisions⟩

theorem friendsInv (hi : FriendsInv P s) : FriendsInv P s' where
  whole := fun p => by
    rcases hi.whole p with hp | ⟨inc, w, hm, hc, ha⟩
    case inl => exact .inl ((h.samePair p).inactive hp)
    case inr => exact .inr ⟨inc, w, hm.of_names h.names, h.decisions _ _ _ hc,
      (h.samePair p).active.mpr ha⟩
  rows := fun o x hx => hi.rows o x (by rwa [h.store _ rfl] at hx)
  bindings := fun x hx => hi.bindings x (by rwa [h.store _ rfl] at hx)
  known := fun o => h.known (hi.known o)
  limit := fun o => by rw [h.friends]; exact hi.limit o

theorem next (hi : ∀ i, HasIntent P s i → HasIntent P s' i)
    (hg : G → ∀ r inc w, Minted P s r inc w → Decided P s r inc → s.workspaces w = none →
      s'.workspaces w = none) : Next P G s s' where
  names := h.names
  decisions := h.decisions
  intents := hi
  hidden := fun p _ _ _ _ ha ha' => ha ((h.samePair p).active.mp ha')
  drawn := h.revisions
  known := fun _ hk => h.known hk
  fresh := fun o _ => .inl (h.revision o)
  friends := fun o _ _ => by rw [h.friends]
  gone := hg

end Quiet

end Quiet

theorem RecordsInv.grow (h : RecordsInv P s) (hn : ∀ w t, s.names w = some t → s'.names w = some t)
    (hd : ∀ x y c, s.store (.creationDecision x y) = some c →
      s'.store (.creationDecision x y) = some c)
    (hD : ∀ x y c, s'.store (.creationDecision x y) = some c →
      s.store (.creationDecision x y) = some c ∨ DecisionOK P s' x y c)
    (hI : ∀ x c, s'.store (.creationIntent x) = some c →
      s.store (.creationIntent x) = some c ∨ IntentOK P s' x c)
    (hR : ∀ x c, s'.store (.retirementIntent x) = some c →
      s.store (.retirementIntent x) = some c ∨ RetirementOK P s' x c)
    (hX : Indexed P s') : RecordsInv P s' where
  decisions := fun x y c hc => by
    rcases hD x y c hc with hc | hc
    case inr => exact hc
    case inl =>
      obtain ⟨d, hd, hx, hy, hm, hp⟩ := h.decisions x y c hc
      exact ⟨d, hd, hx, hy, hm.of_names hn, hp⟩
  intents := fun x c hc => by
    rcases hI x c hc with hc | hc
    case inr => exact hc
    case inl =>
      obtain ⟨i, hi, hk, hg⟩ := h.intents x c hc
      exact ⟨i, hi, hk, hg.of_names hn⟩
  retirements := fun x c hc => by
    rcases hR x c hc with hc | hc
    case inr => exact hc
    case inl =>
      obtain ⟨i, hi, hk, hs⟩ := h.retirements x c hc
      exact ⟨i, hi, hk, hs.of_grows hn hd⟩
  indexed := hX

section Rewrites

-- Of the records only `keys` have changed. None of them is about friends, and a decision is new.
structure Rewrites (keys : List Key) (s s' : State) : Prop where
  store : ∀ k : Key, k.ofRecovery = false → k ∉ keys → s'.store k = s.store k
  quiet : ∀ k ∈ keys, k.ofFriends = false
  decisions : ∀ x y, .creationDecision x y ∈ keys → s.store (.creationDecision x y) = none

variable {keys : List Key}

theorem Rewrites.friends (h : Rewrites keys s s') (ha : Applied m s s') : Quiet s s' where
  store := fun k hk => by
    refine h.store k (by cases k <;> first | rfl | cases hk) fun hmem => ?_
    rw [h.quiet k hmem] at hk
    cases hk
  names := ha.names_le
  decisions := fun x y c hc => by
    rw [h.store _ rfl fun hmem => ?_, hc]
    rw [h.decisions x y hmem] at hc
    cases hc
  revisions := ha.revisions

-- The rule for mutations that are not about friends.
theorem Rewrites.keeps (h : Rewrites keys s s') (ha : Applied m s s') (hi : Inv P G s)
    (hD : ∀ x y c, .creationDecision x y ∈ keys → s'.store (.creationDecision x y) = some c →
      DecisionOK P s' x y c)
    (hI : ∀ x c, .creationIntent x ∈ keys → s'.store (.creationIntent x) = some c →
      IntentOK P s' x c)
    (hR : ∀ x c, .retirementIntent x ∈ keys → s'.store (.retirementIntent x) = some c →
      RetirementOK P s' x c) (hX : Indexed P s')
    (hH : ∀ j : CreationIntent, creationIntentKey P j.relationID ∈ keys →
      s.store (creationIntentKey P j.relationID) = some (.record (.creationIntent j)) →
      Decided P s j.relationID j.incarnationID)
    (hC : G → ∀ j : CreationIntent, s.workspaces j.workspace ≠ none →
      s.store (creationIntentKey P j.relationID) = some (.record (.creationIntent j)) →
      creationDecisionKey P j.relationID j.incarnationID ∈ keys → Named P s' j.workspace)
    (hT : G → ∀ r (j : RetirementIntent), s.workspaces j.workspaceName ≠ none →
      retirementIntentKey P r ∈ keys →
      s.store (retirementIntentKey P r) = some (.record (.retirementIntent j)) →
      Named P s' j.workspaceName) : Inv P G s' ∧ Next P G s s' := by
  have hq := h.friends ha
  have hstored {k c} (hk : k.ofRecovery = false) (hc : s'.store k = some c) :
      s.store k = some c ∨ k ∈ keys :=
    or_iff_not_imp_right.mpr fun hn => (h.store k hk hn).symm.trans hc
  -- An intent that is replaced or removed has been decided.
  have hintent (j : CreationIntent)
      (hj : s.store (creationIntentKey P j.relationID) = some (.record (.creationIntent j))) :
      s'.store (creationIntentKey P j.relationID) = some (.record (.creationIntent j)) ∨
      Decided P s j.relationID j.incarnationID := by
    by_cases hk : creationIntentKey P j.relationID ∈ keys
    case pos => exact .inr (hH j hk hj)
    case neg => exact .inl ((h.store _ rfl hk).trans hj)
  refine ⟨⟨hq.friendsInv hi.friends, ?records, ?workspaces, ?named⟩, hq.next ?intents ?gone⟩
  case records =>
    refine hi.records.grow hq.names hq.decisions ?_ ?_ ?_ hX
    · exact fun x y c hc => (hstored rfl hc).imp_right fun hk => hD x y c hk hc
    · exact fun x c hc => (hstored rfl hc).imp_right fun hk => hI x c hk hc
    · exact fun x c hc => (hstored rfl hc).imp_right fun hk => hR x c hk hc
  case workspaces => rw [ha.workspaces]; exact hi.workspaces
  case named =>
    intro hG w hw
    rw [ha.workspaces] at hw
    cases hi.named hG w hw
    case binding r b hw hb => exact .binding r b hw ((hq.store _ rfl).trans hb)
    case creation j hw' hj hd =>
      subst hw'
      by_cases hk : creationDecisionKey P j.relationID j.incarnationID ∈ keys
      case pos => exact hC hG j hw hj hk
      case neg =>
        refine .creation j rfl ((hintent j hj).resolve_right hd) ?_
        rwa [Decided, h.store _ rfl hk]
    case retirement r j hw' hj =>
      subst hw'
      by_cases hk : retirementIntentKey P r ∈ keys
      case pos => exact hT hG r j hw hk hj
      case neg => exact .retirement r j rfl ((h.store _ rfl hk).trans hj)
  case intents =>
    intro j hj
    rcases hj.elim (hintent j) .inr with hj | hd
    case inl => exact .inl hj
    case inr => exact .inr (hd.of_decisions hq.decisions)
  case gone =>
    intro _ _ _ _ _ _ hn
    rw [ha.workspaces]
    exact hn

end Rewrites

section Index

variable {work : Work} {id : Text}

-- The index of recovery changes only in what the mutation adds and removes without an order.
structure OffIndex (m : Mutation) : Prop where
  entries : ∀ e ∈ m.entries, e.key.ofRecovery = false
  deletes : ∀ k ∈ m.deleteKeys, k.ofRecovery = false
  adds : ∀ g ∈ m.addOrderedMembers, g.key.ofRecovery = false
  removes : ∀ g ∈ m.removeOrderedMembers, g.key.ofRecovery = false

theorem not_names {k : Key} {x : Text} (h : ∀ g ∈ gs, g.key.ofRecovery = false)
    (hk : k.ofRecovery) : ¬Names gs k x := by
  rintro ⟨g, hg, rfl, -⟩
  simp [h g hg] at hk

theorem OffIndex.spares (hm : OffIndex m) (hk : k.ofRecovery) : m.Spares false k where
  entries := by
    rintro e he rfl
    simp [hm.entries e he] at hk
  deletes := fun hd => by simp [hm.deletes k hd] at hk
  groups := by
    rintro g hg rfl
    simp only [KV.Typed.Mutation.groups, List.mem_append, List.mem_map] at hg
    rcases hg with ((⟨_, -, rfl⟩ | ⟨_, -, rfl⟩) | ⟨_, hg, rfl⟩) | ⟨_, hg, rfl⟩
    · rfl
    · rfl
    · simp [hm.adds _ hg] at hk
    · simp [hm.removes _ hg] at hk

theorem OffIndex.mem (hm : OffIndex m) (h : Applied m s s') (hk : k.ofRecovery)
    {x : Text} : x ∈ s'.store.members false k ↔
      (x ∈ s.store.members false k ∨ Names m.addMembers k x) ∧ ¬Names m.removeMembers k x := by
  rw [KV.Typed.Store.mem_applyMutation h.mutation (hm.spares hk)]
  simp only [not_names hm.adds hk, not_names hm.removes hk, or_false, not_false_eq_true, and_true]

-- Work is put into the index.
structure Adds (P : Platform) (work : Work) (id : Text) (s s' : State) : Prop where
  bucket : ∀ {w b x}, x ∈ s'.store.members false (.recoveryBucket w b) ↔
    x ∈ s.store.members false (.recoveryBucket w b) ∨ (w = work ∧ b = P.bucket id ∧ x = id)
  directory : ∀ {w x}, x ∈ s'.store.members false (.recoveryDirectory w) ↔
    x ∈ s.store.members false (.recoveryDirectory w) ∨ (w = work ∧ x = P.bucket id)

-- Work is taken out of its bucket.
structure Removes (P : Platform) (work : Work) (id : Text) (s s' : State) : Prop where
  bucket : ∀ {w b x}, x ∈ s'.store.members false (.recoveryBucket w b) ↔
    x ∈ s.store.members false (.recoveryBucket w b) ∧ ¬(w = work ∧ b = P.bucket id ∧ x = id)
  directory : ∀ {w x}, x ∈ s'.store.members false (.recoveryDirectory w) ↔
    x ∈ s.store.members false (.recoveryDirectory w)

theorem OffIndex.index_adds (hm : OffIndex m) (h : Applied m s s')
    (ha : m.addMembers = work.index.add P id)
    (hr : ∀ g ∈ m.removeMembers, g.key.ofRecovery = false) : Adds P work id s s' := by
  constructor <;> intros <;> rw [hm.mem h rfl, ha, and_iff_left (not_names hr rfl)] <;>
    simp [Names]
  all_goals tauto

theorem OffIndex.index_removes (hm : OffIndex m) (h : Applied m s s') (ha : m.addMembers = [])
    (hr : m.removeMembers = work.index.remove P id) : Removes P work id s s' := by
  constructor <;> intros <;> rw [hm.mem h rfl, ha, hr] <;>
    simp [Names]
  tauto

theorem Adds.indexed (ha : Adds P work id s s') (hi : Indexed P s) {q : Pair P}
    (hq : id = q.relation)
    (hs : ∀ (w : Work) (p : Pair P), s'.store (w.recordKey P p.relation) ≠ none →
      s.store (w.recordKey P p.relation) ≠ none ∨
      w = work ∧ w.recordKey P p.relation = w.recordKey P id) : Indexed P s' := by
  intro w p hp
  rw [ha.bucket, ha.directory]
  rcases hs w p hp with hp | ⟨rfl, hk⟩
  case inl => exact (hi w p hp).imp .inl .inl
  case inr =>
    have hr : p.relation = id := by
      rw [hq, ← escapeStoreSegment_inj p.trimSpace_relation q.trimSpace_relation]
      cases w <;> simpa [hq] using hk
    simp [hr]

theorem Removes.indexed (hr : Removes P work id s s') (hi : Indexed P s)
    (hs : ∀ (w : Work) (p : Pair P), s'.store (w.recordKey P p.relation) ≠ none →
      s.store (w.recordKey P p.relation) ≠ none ∧ ¬(w = work ∧ p.relation = id)) :
    Indexed P s' := by
  intro w p hp
  have ⟨hp, hne⟩ := hs w p hp
  rw [hr.bucket, hr.directory]
  exact ⟨(hi w p hp).left, (hi w p hp).right, fun ⟨hw, _, hx⟩ => hne ⟨hw, hx⟩⟩

end Index

section CreateIntent

variable {i : CreationIntent} (h : Applied (createIntentMutation P i) s s')

include h

theorem createIntent_store (hk : k.ofRecovery = false) :
    s'.store k = if k = creationIntentKey P i.relationID then some (.record (.creationIntent i))
      else s.store k := by
  rw [lookup_applyMutation h.mutation]
  · simp [Function.update_apply]
    rfl
  · rintro g hg rfl
    simp at hg
    rcases hg with rfl | rfl <;> cases hk

theorem createIntent_before : s.store (creationIntentKey P i.relationID) = none := by
  have hc := (applyMutation_eq_some h.mutation).left
  simpa using hc

theorem createIntent_rewrites : Rewrites [creationIntentKey P i.relationID] s s' where
  store := fun k hk hn => by
    rw [createIntent_store h hk, if_neg (fun he => hn (List.mem_singleton.mpr he))]
  quiet := by simp
  decisions := by simp

theorem createIntent_adds : Adds P .creation i.relationID s s' :=
  OffIndex.index_adds
    (by constructor <;> simp [Key.ofRecovery]) h rfl nofun

theorem createIntent_keeps (hi : Inv P G s) (hg : Genuine P s i) : Inv P G s' ∧ Next P G s s' := by
  obtain ⟨q, -, -, hq⟩ := hg.peers
  refine (createIntent_rewrites h).keeps h hi (by simp) ?_
    (by simp) ?_ ?_ (by simp)
    (by simp)
  · intro x c hx hc
    cases List.mem_singleton.mp hx
    cases ((createIntent_store h rfl).trans (if_pos rfl)).symm.trans hc
    exact ⟨i, rfl, rfl, hg.of_names h.names_le⟩
  · refine (createIntent_adds h).indexed hi.records.indexed hq fun w p hp => ?_
    rw [createIntent_store h (by cases w <;> rfl)] at hp
    split at hp
    case isFalse => exact .inl hp
    case isTrue hk =>
      cases w
      case creation => exact .inr ⟨rfl, hk⟩
      case retirement => cases hk
  · intro j hk hj
    rw [List.mem_singleton.mp hk, createIntent_before h] at hj
    cases hj

end CreateIntent

section DeleteIntent

variable {i current : CreationIntent} (h : Applied (deleteIntentMutation P i current) s s')

include h

theorem deleteIntent_store (hk : k.ofRecovery = false) :
    s'.store k = if k = creationIntentKey P i.relationID then none else s.store k := by
  rw [lookup_applyMutation h.mutation]
  · simp
    rfl
  · rintro g hg rfl
    simp at hg
    rcases hg with rfl
    cases hk

theorem deleteIntent_before :
    s.store (creationIntentKey P i.relationID) = some (.record (.creationIntent current)) := by
  have hc := (applyMutation_eq_some h.mutation).left
  simpa using hc

theorem deleteIntent_rewrites : Rewrites [creationIntentKey P i.relationID] s s' where
  store := fun k hk hn => by
    rw [deleteIntent_store h hk, if_neg (fun he => hn (List.mem_singleton.mpr he))]
  quiet := by simp
  decisions := by simp

theorem deleteIntent_removes : Removes P .creation i.relationID s s' :=
  OffIndex.index_removes
    (by constructor <;> simp [Key.ofRecovery]) h rfl rfl

theorem deleteIntent_keeps (hi : Inv P G s) (hr : current.relationID = i.relationID)
    (hc : current.incarnationID = i.incarnationID) (hd : Decided P s i.relationID i.incarnationID) :
    Inv P G s' ∧ Next P G s s' := by
  refine (deleteIntent_rewrites h).keeps h hi (by simp) ?_
    (by simp) ?_ ?_ (by simp)
    (by simp)
  · intro x c hx hc
    cases List.mem_singleton.mp hx
    cases ((deleteIntent_store h rfl).trans (if_pos rfl)).symm.trans hc
  · refine (deleteIntent_removes h).indexed hi.records.indexed fun w p hp => ?_
    rw [deleteIntent_store h (by cases w <;> rfl)] at hp
    split at hp
    case isTrue => exact absurd rfl hp
    case isFalse hk => exact ⟨hp, fun ⟨hw, hx⟩ => hk (by rw [hw, hx, Work.recordKey])⟩
  · intro j hk hj
    rw [List.mem_singleton.mp hk, deleteIntent_before h] at hj
    cases hj
    rwa [hr, hc]

end DeleteIntent

section Complete

variable {i stored : RetirementIntent} (h : Applied (completeMutation P i stored) s s')

include h

theorem complete_store (hk : k.ofRecovery = false) (hr : k ≠ retirementReceiptKey P i.relationID) :
    s'.store k = if k = retirementIntentKey P i.relationID then none else s.store k := by
  rw [lookup_applyMutation h.mutation]
  · simp [-retirementReceiptKey, Function.update_of_ne hr]
    rfl
  · rintro g hg rfl
    simp at hg
    rcases hg with rfl
    cases hk

theorem complete_before :
    s.store (retirementIntentKey P i.relationID) = some (.record (.retirementIntent stored)) := by
  have hc := (applyMutation_eq_some h.mutation).left
  simpa using hc

theorem complete_rewrites :
    Rewrites [retirementIntentKey P i.relationID, retirementReceiptKey P i.relationID] s s' where
  store := fun k hk hn => by
    simp only [List.mem_cons, List.not_mem_nil, or_false, not_or] at hn
    rw [complete_store h hk hn.right, if_neg hn.left]
  quiet := by simp
  decisions := by simp

theorem complete_removes : Removes P .retirement i.relationID s s' :=
  OffIndex.index_removes (by constructor <;>
    simp [Key.ofRecovery]) h rfl rfl

theorem complete_keeps (hi : Inv P G s) (hw : stored.workspaceName = i.workspaceName)
    (hg : G → s.workspaces i.workspaceName = none) : Inv P G s' ∧ Next P G s s' := by
  refine (complete_rewrites h).keeps h hi (by simp)
    (by simp) ?_ ?_
    (by simp)
    (by simp) ?_
  · intro x c hx hc
    rw [complete_store h rfl (by simp), if_pos] at hc
    · cases hc
    · simpa using hx
  · refine (complete_removes h).indexed hi.records.indexed fun w p hp => ?_
    rw [complete_store h (by cases w <;> rfl) (by
      cases w <;> simp)] at hp
    split at hp
    case isTrue => exact absurd rfl hp
    case isFalse hk => exact ⟨hp, fun ⟨hw, hx⟩ => hk (by rw [hw, hx, Work.recordKey])⟩
  · -- The Workspace of this intent is gone.
    intro hG r j hlive hk hj
    have hk : retirementIntentKey P r = retirementIntentKey P i.relationID := by
      simpa using hk
    rw [hk, complete_before h] at hj
    cases hj
    exact absurd (hg hG) (hw ▸ hlive)

end Complete

section Clear

variable (P) (s : State) (r w : Text)

-- What is replaced or removed does not name a Workspace that is there, other than `w`.
def ClearsRetirement : Prop :=
  ∀ j : RetirementIntent,
    s.store (retirementIntentKey P r) = some (.record (.retirementIntent j)) →
    j.workspaceName = w ∨ s.workspaces j.workspaceName = none

def ClearsBinding : Prop :=
  ∀ b : WorkspaceBinding,
    s.store (workspaceBindingKey P r) = some (.record (.workspaceBinding b)) →
    b.workspaceName = w ∨ s.workspaces b.workspaceName = none

end Clear

section Cancel

variable {creation : CreationIntent} {i : RetirementIntent}
variable (h : Applied (cancelMutation P creation i) s s')

include h

theorem cancel_store (hk : k.ofRecovery = false) :
    s'.store k = if k = retirementIntentKey P i.relationID then some (.record (.retirementIntent i))
      else if k = creationDecisionKey P creation.relationID creation.incarnationID then
        some (.record (.creationDecision (creation.decision .cancelled)))
      else s.store k := by
  rw [lookup_applyMutation h.mutation]
  · simp [Function.update_apply]
    rfl
  · rintro g hg rfl
    simp at hg
    rcases hg with rfl | rfl <;> cases hk

theorem cancel_before :
    s.store (creationDecisionKey P creation.relationID creation.incarnationID) = none := by
  have hc := (applyMutation_eq_some h.mutation).left
  simpa using hc

theorem cancel_rewrites : Rewrites [retirementIntentKey P i.relationID,
    creationDecisionKey P creation.relationID creation.incarnationID] s s' where
  store := fun k hk hn => by
    simp only [List.mem_cons, List.not_mem_nil, or_false, not_or] at hn
    rw [cancel_store h hk, if_neg hn.left, if_neg hn.right]
  quiet := by simp
  decisions := fun x y hk => by
    have hk : .creationDecision x y =
        creationDecisionKey P creation.relationID creation.incarnationID := by
      simpa using hk
    rw [hk, cancel_before h]

theorem cancel_adds : Adds P .retirement i.relationID s s' :=
  OffIndex.index_adds (by constructor <;>
    simp [Key.ofRecovery]) h rfl nofun

theorem cancel_decided : Decided P s' creation.relationID creation.incarnationID := by
  unfold Decided
  rw [cancel_store h rfl, if_neg (by simp), if_pos rfl]
  simp

theorem cancel_settled (hg : Genuine P s creation) (hr : i.relationID = creation.relationID)
    (hw : i.workspaceName = creation.workspace) (hc : i.cancelCreation = true) :
    Settled P s' i := by
  obtain ⟨q, -, -, hq⟩ := hg.peers
  refine ⟨⟨q, hr.trans hq⟩, ⟨creation.incarnationID, ?_, ?_⟩, fun hf => ?_⟩
  · rw [hr, hw]; exact hg.minted.of_names h.names_le
  · rw [hr]; exact cancel_decided h
  · rw [hc] at hf; cases hf

theorem cancel_keeps (hi : Inv P G s) (hg : Genuine P s creation)
    (hr : i.relationID = creation.relationID) (hw : i.workspaceName = creation.workspace)
    (hc : i.cancelCreation = true) (hG : G → ClearsRetirement P s i.relationID i.workspaceName) :
    Inv P G s' ∧ Next P G s s' := by
  obtain ⟨q, -, -, hq⟩ := hg.peers
  have hthis : s'.store (retirementIntentKey P i.relationID) =
      some (.record (.retirementIntent i)) := by
    rw [cancel_store h rfl, if_pos rfl]
  refine (cancel_rewrites h).keeps h hi ?_ (by simp)
    ?_ ?_ (by simp) ?_ ?_
  · intro x y c hk hc
    rw [cancel_store h rfl, if_neg (by simp)] at hc
    split at hc
    case isFalse hne => exact absurd (by simpa using hk) hne
    case isTrue hx =>
      cases hx
      cases hc
      exact ⟨_, rfl, rfl, rfl, hg.minted.of_names h.names_le, q, hq⟩
  · intro x c hk hx
    have hk : .retirementIntent x = retirementIntentKey P i.relationID := by
      simpa using hk
    cases hk
    cases hthis.symm.trans hx
    exact ⟨i, rfl, rfl, cancel_settled h hg hr hw hc⟩
  · refine (cancel_adds h).indexed hi.records.indexed (hr.trans hq) fun w p hp => ?_
    rw [cancel_store h (by cases w <;> rfl)] at hp
    cases w
    case creation =>
      exact .inl hp
    case retirement =>
      split at hp
      case isTrue hk => exact .inr ⟨rfl, hk⟩
      case isFalse =>
        exact .inl hp
  · -- An intent that is decided now is the one that is cancelled.
    intro _ j _ hj hk
    refine .retirement i.relationID i ?_ hthis
    obtain ⟨j', hj', -, hgj⟩ := hi.records.intents _ _ hj
    cases hj'
    obtain ⟨q', -, -, hq'⟩ := hgj.peers
    have hk : creationDecisionKey P j.relationID j.incarnationID =
        creationDecisionKey P creation.relationID creation.incarnationID := by
      simpa using hk
    simp only [creationDecisionKey, Key.creationDecision.injEq] at hk
    rw [hq', hq, escapeStoreSegment_inj q'.trimSpace_relation q.trimSpace_relation,
      escapeStoreSegment_inj hgj.minted.trimSpace hg.minted.trimSpace] at hk
    rw [hw, hg.minted.left, hgj.minted.left, hq, hq', hk.left, hk.right]
  · intro hG' r j hlive hk hj
    have hk : retirementIntentKey P r = retirementIntentKey P i.relationID := by
      simpa using hk
    rw [hk] at hj
    rcases hG hG' j hj with hj | hj
    case inl => exact .retirement i.relationID i hj.symm hthis
    case inr => exact absurd hj hlive

end Cancel

section Repair

variable {work : Work} {b member id : Text} {cs : List Condition}
variable {additions : List (KV.Typed.SetMembers Key Text)}
variable (h : Applied (repairMutation work b member cs additions) s s')
variable (ha : additions = [] ∨ additions = work.index.add P id)

include h

-- What is not taken out stays.
theorem repair_mem (hk : k.ofRecovery) (hx : x ∈ s.store.members false k)
    (hne : ¬(k = .recoveryBucket work b ∧ x = member)) : x ∈ s'.store.members false k := by
  rw [OffIndex.mem (by constructor <;> simp) h hk]
  refine ⟨.inl hx, ?_⟩
  simp only [repairMutation, Names, Work.index, List.mem_singleton]
  rintro ⟨g, rfl, rfl, hmem⟩
  exact hne ⟨rfl, List.mem_singleton.mp hmem⟩

include ha

theorem repair_store (hk : k.ofRecovery = false) : s'.store k = s.store k := by
  refine KV.Typed.Store.applyMutation_of_untouched h.mutation (by simp)
    (by simp) ?_
  rintro g hg rfl
  simp only [repairMutation, KV.Typed.Mutation.groups, Work.index, List.map_cons, List.map_nil,
    List.append_nil, List.mem_append, List.mem_map, List.mem_singleton] at hg
  rcases hg with ⟨x, hx, rfl⟩ | rfl
  case inr => cases hk
  case inl =>
    rcases ha with rfl | rfl
    · cases hx
    · simp only [RecoveryIndex.add, Work.index, List.mem_cons, List.not_mem_nil, or_false] at hx
      rcases hx with rfl | rfl <;> cases hk

theorem repair_keeps (hi : Inv P G s)
    (hm : ∀ p : Pair P, p.relation = member → P.bucket p.relation = b →
      s.store (work.recordKey P p.relation) = none) : Inv P G s' ∧ Next P G s s' := by
  have hrewrites : Rewrites [] s s' := ⟨fun k hk _ => repair_store h ha hk, nofun, nofun⟩
  refine hrewrites.keeps h hi nofun nofun nofun ?_ nofun nofun nofun
  intro w p hp
  rw [repair_store h ha (by cases w <;> rfl)] at hp
  have ⟨hd, hb⟩ := hi.records.indexed w p hp
  refine ⟨repair_mem h rfl hd nofun, repair_mem h rfl hb ?_⟩
  rintro ⟨hb, hx⟩
  cases hb
  exact hp (hm p hx rfl)

end Repair

end GizClaw.Friend

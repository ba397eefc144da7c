import GizClaw.Friend.Theorems.Keys
import GizClaw.Social.Theorems.Service

-- What holds in every state of the service, and how the state may change from one step to the next.

namespace GizClaw.Friend

open Interleaving
open PendingDeletion (Text)
open Social hiding Call

abbrev Store := KV.Typed.Store Key Value Text

variable {P : Platform} {s s' : State} {σ σ' : Store}

section Relations

variable (P)

-- The place of a row among the rows of all peers.
def rowCursor (owner r : Text) : Text :=
  adminFriendCursor (friendKey P owner r)

-- One peer's part of a relation: its row, and the row's place in three indexes.
structure Side (σ : Store) (owner peer r w : Text) : Prop where
  row : ∃ row : FriendRecord, σ (friendKey P owner r) = some (.record (.friend row)) ∧
    row.relationID = r ∧ row.peerPublicKey = peer ∧ row.workspaceName = w
  collection : r ∈ σ.members false (friendCollectionKey P owner)
  page : escapeStoreSegment P r ∈ σ.members true (friendPageKey P owner)
  admin : rowCursor P owner r ∈ σ.members true
    (.adminFriendBucket (P.bucket (rowCursor P owner r)))

structure NoSide (σ : Store) (owner r : Text) : Prop where
  row : σ (friendKey P owner r) = none
  collection : r ∉ σ.members false (friendCollectionKey P owner)
  page : escapeStoreSegment P r ∉ σ.members true (friendPageKey P owner)
  admin : rowCursor P owner r ∉ σ.members true
    (.adminFriendBucket (P.bucket (rowCursor P owner r)))

-- The peers are friends, and everything that says so names one Workspace.
structure Active (σ : Store) (p : Pair P) (w : Text) : Prop where
  fst : Side P σ p.fst p.snd p.relation w
  snd : Side P σ p.snd p.fst p.relation w
  binding : ∃ b : WorkspaceBinding,
    σ (workspaceBindingKey P p.relation) = some (.record (.workspaceBinding b)) ∧
    b.relationID = p.relation ∧ b.workspaceID = w ∧ b.workspaceName = w

structure Inactive (σ : Store) (p : Pair P) : Prop where
  fst : NoSide P σ p.fst p.relation
  snd : NoSide P σ p.snd p.relation
  binding : σ (workspaceBindingKey P p.relation) = none

end Relations

section Incarnations

variable (P) (s : State)

-- The Workspace name was made for this incarnation and no other.
def Minted (r inc w : Text) : Prop :=
  w = directWorkspaceIncarnationName P r inc ∧ ∃ id, s.names w = some (r, id) ∧ P.trimSpace id = inc

def Decided (r inc : Text) : Prop :=
  s.store (creationDecisionKey P r inc) ≠ none

def Committed (r inc w : Text) : Prop :=
  s.store (creationDecisionKey P r inc) =
    some (.record (.creationDecision ⟨r, inc, w, .committed⟩))

structure Genuine (i : CreationIntent) : Prop where
  peers : ∃ p : Pair P, i.firstPeer = p.fst ∧ i.secondPeer = p.snd ∧ i.relationID = p.relation
  minted : Minted P s i.relationID i.incarnationID i.workspace

-- The intent is kept until its incarnation has been decided.
def HasIntent (i : CreationIntent) : Prop :=
  s.store (creationIntentKey P i.relationID) = some (.record (.creationIntent i)) ∨
  Decided P s i.relationID i.incarnationID

-- A retirement is of an incarnation that has been decided.
structure Settled (i : RetirementIntent) : Prop where
  peers : ∃ p : Pair P, i.relationID = p.relation
  decided : ∃ inc, Minted P s i.relationID inc i.workspaceName ∧ Decided P s i.relationID inc
  workspace : i.cancelCreation = false → i.workspaceID = i.workspaceName

end Incarnations

section Revisions

variable (s : State) (o : Text)

-- The friends in a peer's collection, by the segment of its key.
def friends : Finset Text :=
  s.store.members false (.friendCollection o)

def revision : Option (KV.Typed.Content Value Text) :=
  s.store (.peerFriendRevision o)

def IsDrawn (v : Value) : Prop :=
  ∃ u ∈ s.revisions, v = .revision u

def Known : Prop :=
  ∀ c, revision s o = some c → ∃ v, c = .record v ∧ IsDrawn s v

-- As long as the revision is what it was when the friends were counted, there is room for one more.
structure Room (expected : Option Value) : Prop where
  known : Known s o
  drawn : ∀ v ∈ expected, IsDrawn s v
  room : revision s o = expected.map .record → (friends s o).card < peerFriendLimit

end Revisions

section Workspaces

variable (P) (s : State)

-- A record that recovery finds and that names the Workspace.
inductive Named (w : Text) : Prop
  | creation (i : CreationIntent) (hw : i.workspace = w)
    (h : s.store (creationIntentKey P i.relationID) = some (.record (.creationIntent i)))
    (hd : ¬Decided P s i.relationID i.incarnationID)
  | binding (r : Text) (b : WorkspaceBinding) (hw : b.workspaceName = w)
    (h : s.store (workspaceBindingKey P r) = some (.record (.workspaceBinding b)))
  | retirement (r : Text) (i : RetirementIntent) (hw : i.workspaceName = w)
    (h : s.store (retirementIntentKey P r) = some (.record (.retirementIntent i)))

end Workspaces

variable (P)

-- Peers are friends altogether or not at all, and nothing else is about friends.
structure FriendsInv (s : State) : Prop where
  whole : ∀ p : Pair P, Inactive P s.store p ∨
    ∃ inc w, Minted P s p.relation inc w ∧ Committed P s p.relation inc w ∧ Active P s.store p w
  rows : ∀ o x, s.store (.friend o x) ≠ none →
    ∃ p : Pair P, o = escapeStoreSegment P p.fst ∧ x = escapeStoreSegment P p.relation
  bindings : ∀ x, s.store (.workspaceBinding x) ≠ none →
    ∃ p : Pair P, x = escapeStoreSegment P p.relation
  known : ∀ o, Known s o
  limit : ∀ o, (friends s o).card ≤ peerFriendLimit

def DecisionOK (s : State) (x y : Text) (c : KV.Typed.Content Value Text) : Prop :=
  ∃ d : CreationDecision, c = .record (.creationDecision d) ∧
    x = escapeStoreSegment P d.relationID ∧ y = escapeStoreSegment P d.incarnationID ∧
    Minted P s d.relationID d.incarnationID d.workspace ∧ ∃ p : Pair P, d.relationID = p.relation

def IntentOK (s : State) (x : Text) (c : KV.Typed.Content Value Text) : Prop :=
  ∃ i : CreationIntent, c = .record (.creationIntent i) ∧
    x = escapeStoreSegment P i.relationID ∧ Genuine P s i

def RetirementOK (s : State) (x : Text) (c : KV.Typed.Content Value Text) : Prop :=
  ∃ i : RetirementIntent, c = .record (.retirementIntent i) ∧
    x = escapeStoreSegment P i.relationID ∧ Settled P s i

-- Work that is recorded is found again.
def Indexed (s : State) : Prop :=
  ∀ (work : Work) (p : Pair P), s.store (work.recordKey P p.relation) ≠ none →
    P.bucket p.relation ∈ s.store.members false (.recoveryDirectory work) ∧
    p.relation ∈ s.store.members false (.recoveryBucket work (P.bucket p.relation))

structure RecordsInv (s : State) : Prop where
  decisions : ∀ x y c, s.store (.creationDecision x y) = some c → DecisionOK P s x y c
  intents : ∀ x c, s.store (.creationIntent x) = some c → IntentOK P s x c
  retirements : ∀ x c, s.store (.retirementIntent x) = some c → RetirementOK P s x c
  indexed : Indexed P s

-- `G` stands for steps that do not get in the way of another lifecycle of the same peers.
structure Inv (G : Prop) (s : State) : Prop where
  friends : FriendsInv P s
  records : RecordsInv P s
  workspaces : ∀ w id, s.workspaces w = some id → id = w
  named : G → ∀ w, s.workspaces w ≠ none → Named P s w

-- Nothing of what a call once knew becomes wrong.
structure Next (G : Prop) (s s' : State) : Prop where
  names : ∀ w t, s.names w = some t → s'.names w = some t
  decisions : ∀ x y c, s.store (.creationDecision x y) = some c →
    s'.store (.creationDecision x y) = some c
  intents : ∀ i, HasIntent P s i → HasIntent P s' i
  hidden : ∀ (p : Pair P) inc w, Minted P s p.relation inc w → Decided P s p.relation inc →
    ¬Active P s.store p w → ¬Active P s'.store p w
  drawn : s.revisions ⊆ s'.revisions
  known : ∀ o, Known s o → Known s' o
  fresh : ∀ o, Known s o → revision s' o = revision s o ∨
    ∃ u, u ∉ s.revisions ∧ revision s' o = some (.record (.revision u))
  friends : ∀ o, Known s o → revision s' o = revision s o → friends s' o ⊆ friends s o
  gone : G → ∀ r inc w, Minted P s r inc w → Decided P s r inc → s.workspaces w = none →
    s'.workspaces w = none

variable {P} {G : Prop} {r inc inc' w : Text} {o : Text}

theorem Minted.of_names (hn : ∀ w t, s.names w = some t → s'.names w = some t)
    (h : Minted P s r inc w) : Minted P s' r inc w := by
  obtain ⟨hw, id, hid, ht⟩ := h
  exact ⟨hw, id, hn w _ hid, ht⟩

-- A name belongs to one incarnation.
theorem Minted.eq (h : Minted P s r inc w) (h' : Minted P s r' inc' w) : r = r' ∧ inc = inc' := by
  obtain ⟨_, id, hid, rfl⟩ := h
  obtain ⟨_, id', hid', rfl⟩ := h'
  rw [hid] at hid'
  cases hid'
  exact ⟨rfl, rfl⟩

theorem Minted.trimSpace (h : Minted P s r inc w) : P.trimSpace inc = inc := by
  obtain ⟨_, id, _, rfl⟩ := h
  exact P.trimSpace_idem id

theorem Decided.of_decisions (hd : ∀ x y c, s.store (.creationDecision x y) = some c →
    s'.store (.creationDecision x y) = some c) (h : Decided P s r inc) : Decided P s' r inc := by
  have ⟨c, hc⟩ := Option.ne_none_iff_exists'.mp h
  exact Option.ne_none_iff_exists'.mpr ⟨c, hd _ _ c hc⟩

theorem Committed.decided (h : Committed P s r inc w) : Decided P s r inc := by
  unfold Decided
  rw [h]
  simp

theorem IsDrawn.of_subset (hs : s.revisions ⊆ s'.revisions) (h : IsDrawn s v) : IsDrawn s' v := by
  obtain ⟨u, hu, hv⟩ := h
  exact ⟨u, hs hu, hv⟩

theorem Genuine.of_names (hn : ∀ w t, s.names w = some t → s'.names w = some t)
    (h : Genuine P s i) : Genuine P s' i :=
  ⟨h.peers, h.minted.of_names hn⟩

theorem Settled.of_grows (hn : ∀ w t, s.names w = some t → s'.names w = some t)
    (hd : ∀ x y c, s.store (.creationDecision x y) = some c →
      s'.store (.creationDecision x y) = some c) (h : Settled P s i) : Settled P s' i := by
  obtain ⟨inc, hm, hi⟩ := h.decided
  exact ⟨h.peers, ⟨inc, hm.of_names hn, hi.of_decisions hd⟩, h.workspace⟩

namespace Next

theorem minted (h : Next P G s s') (hm : Minted P s r inc w) : Minted P s' r inc w :=
  hm.of_names h.names

theorem decided (h : Next P G s s') (hd : Decided P s r inc) : Decided P s' r inc :=
  hd.of_decisions h.decisions

theorem refl (s : State) : Next P G s s where
  names := fun _ _ h => h
  decisions := fun _ _ _ h => h
  intents := fun _ h => h
  hidden := fun _ _ _ _ _ h => h
  drawn := Finset.Subset.refl _
  known := fun _ h => h
  fresh := fun _ _ => .inl rfl
  friends := fun _ _ _ => Finset.Subset.refl _
  gone := fun _ _ _ _ _ _ h => h

-- A revision that has been replaced does not come back.
theorem revision_trans (h : Next P G s s') (h' : Next P G s' s'') (hk : Known s o)
    (he : revision s'' o = revision s o) :
    revision s' o = revision s o ∧ revision s'' o = revision s' o := by
  rcases h'.fresh o (h.known o hk) with h₂ | ⟨u, hu, h₂⟩
  case inl => exact ⟨h₂.symm.trans he, h₂⟩
  case inr =>
    obtain ⟨v, hv, u', hu', rfl⟩ := hk _ (he.symm.trans h₂)
    cases hv
    exact absurd (h.drawn hu') hu

theorem trans (h : Next P G s s') (h' : Next P G s' s'') : Next P G s s'' where
  names := fun w t hw => h'.names w t (h.names w t hw)
  decisions := fun x y c hc => h'.decisions x y c (h.decisions x y c hc)
  intents := fun i hi => h'.intents i (h.intents i hi)
  hidden := fun p inc w hm hd ha =>
    h'.hidden p inc w (h.minted hm) (h.decided hd) (h.hidden p inc w hm hd ha)
  drawn := h.drawn.trans h'.drawn
  known := fun o hk => h'.known o (h.known o hk)
  fresh := fun o hk => by
    rcases h'.fresh o (h.known o hk) with h₂ | ⟨u, hu, h₂⟩
    case inl => rw [h₂]; exact h.fresh o hk
    case inr => exact .inr ⟨u, fun hm => hu (h.drawn hm), h₂⟩
  friends := fun o hk he => by
    have ⟨h₁, h₂⟩ := revision_trans h h' hk he
    exact (h'.friends o (h.known o hk) h₂).trans (h.friends o hk h₁)
  gone := fun hG r inc w hm hd hw =>
    h'.gone hG r inc w (h.minted hm) (h.decided hd) (h.gone hG r inc w hm hd hw)

end Next

section Stable

theorem stable_genuine (i : CreationIntent) : Stable (Next P G) fun s => Genuine P s i :=
  ⟨fun h hn => h.of_names hn.names⟩

theorem stable_hasIntent (i : CreationIntent) : Stable (Next P G) fun s => HasIntent P s i :=
  ⟨fun h hn => hn.intents i h⟩

theorem stable_decided (r inc : Text) : Stable (Next P G) fun s => Decided P s r inc :=
  ⟨fun h hn => hn.decided h⟩

theorem stable_settled (i : RetirementIntent) : Stable (Next P G) fun s => Settled P s i :=
  ⟨fun h hn => h.of_grows hn.names hn.decisions⟩

theorem stable_drawn (expected : Option Value) :
    Stable (Next P G) fun s => ∀ v ∈ expected, IsDrawn s v :=
  ⟨fun h hn v hv => (h v hv).of_subset hn.drawn⟩

theorem stable_room (o : Text) (expected : Option Value) :
    Stable (Next P G) fun s => Room s o expected := by
  constructor
  intro s s' h hn
  refine ⟨hn.known o h.known, (stable_drawn expected).later h.drawn hn, fun he => ?_⟩
  rcases hn.fresh o h.known with hr | ⟨u, hu, hr⟩
  case inl =>
    rw [hr] at he
    exact (Finset.card_le_card (hn.friends o h.known hr)).trans_lt (h.room he)
  case inr =>
    -- The revision that was read had been handed out before this one.
    rw [hr] at he
    obtain ⟨v, hv, hc⟩ := Option.map_eq_some_iff.mp he.symm
    obtain ⟨u', hu', rfl⟩ := h.drawn v hv
    cases hc
    exact absurd hu' hu

end Stable

end GizClaw.Friend

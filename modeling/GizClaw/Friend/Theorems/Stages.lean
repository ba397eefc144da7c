import GizClaw.Friend.Theorems.Within

-- How far the creation of a relation has come, as its records tell. The records agree about it as
-- long as calls about the relation come one after the other, and its rows are not deleted before
-- the intent that they were created by.

namespace GizClaw.Friend

open Interleaving
open PendingDeletion (Text Time)
open Social hiding Call

def Key.row? : Key → Option Text
  | friend _ x => some x
  | _ => none

section Stages

variable (P : Platform) (x : Text) (i : CreationIntent) (s : State)

def Idle : Prop :=
  ∀ o, s.store (.friend o x) = none

def Live (w : Text) : Prop :=
  ∃ o row, s.store (.friend o x) = some (.record (.friend row)) ∧ row.workspaceName = w

def Stored : Prop :=
  s.store (.creationIntent x) = some (.record (.creationIntent i))

def DecidedAs (d : Option DecisionState) : Prop :=
  s.store (.creationDecision x (escapeStoreSegment P i.incarnationID)) =
    d.map fun d => .record (.creationDecision (i.decision d))

-- The rows are there if and only if the incarnation has been committed.
inductive Stage : Prop
  | undecided (hd : DecidedAs P x i s none) (hr : Idle x s)
  | committed (hd : DecidedAs P x i s (some .committed)) (hr : Live x s i.workspace)
  | cancelled (hd : DecidedAs P x i s (some .cancelled)) (hr : Idle x s)

def Agrees : Prop :=
  ∀ i, Stored x i s → Stage P x i s

-- The rows of a relation are deleted when no intent of its creation is left.
def Tidy (m : Mutation) : Prop :=
  ∀ k ∈ m.deleteKeys, ∀ x ∈ k.row?, s.store (.creationIntent x) = none

end Stages

instance (s : State) (m : Mutation) : Decidable (Tidy s m) :=
  inferInstanceAs (Decidable (∀ k ∈ m.deleteKeys, ∀ x ∈ k.row?, _ = _))

abbrev TidyActs (P : Platform) : Exec (Act Key Value) Reply State :=
  Guarded P Tidy fun _ _ => True

variable {P : Platform} {x r : Text} {s s' : State} {i : CreationIntent} {α β : Type}

section Local

-- What depends on the records of the relation only.
structure Local (x : Text) (K : State → Prop) : Prop where
  aside : ∀ {s s'}, Aside x s s' → K s → K s'

theorem Local.and (h : Local x K) (h' : Local x K') : Local x fun s => K s ∧ K' s :=
  ⟨fun ha hk => ⟨h.aside ha hk.left, h'.aside ha hk.right⟩⟩

theorem local_true : Local x fun _ => True :=
  ⟨fun _ _ => trivial⟩

theorem local_store (hk : k.relation? = some x) (c : Option (KV.Typed.Content Value Text)) :
    Local x fun s => s.store k = c :=
  ⟨fun ha h => (ha k hk).trans h⟩

theorem local_idle : Local x (Idle x) :=
  ⟨fun ha h o => (ha (.friend o x) rfl).trans (h o)⟩

theorem local_live (w : Text) : Local x fun s => Live x s w :=
  ⟨fun ha ⟨o, row, h, hw⟩ => ⟨o, row, (ha (.friend o x) rfl).trans h, hw⟩⟩

theorem local_stored (i : CreationIntent) : Local x (Stored x i) :=
  local_store rfl _

theorem local_decidedAs (i : CreationIntent) (d : Option DecisionState) :
    Local x fun s => DecidedAs P x i s d :=
  local_store rfl _

theorem Stage.aside (ha : Aside x s s') (h : Stage P x i s) : Stage P x i s' := by
  cases h
  case undecided hd hr =>
    exact .undecided ((local_decidedAs i _).aside ha hd) (local_idle.aside ha hr)
  case cancelled hd hr =>
    exact .cancelled ((local_decidedAs i _).aside ha hd) (local_idle.aside ha hr)
  case committed hd hr =>
    exact .committed ((local_decidedAs i _).aside ha hd) ((local_live _).aside ha hr)

theorem local_agrees : Local x (Agrees P x) := by
  refine ⟨fun ha h i hi => ?_⟩
  exact (h i ((ha (.creationIntent x) rfl).symm.trans hi)).aside ha

end Local

theorem DecidedAs.eq (h : DecidedAs P x i s d) (h' : DecidedAs P x i s d') : d = d' := by
  refine Option.map_injective (fun d d' he => ?_) (h.symm.trans h')
  simp only [KV.Typed.Content.record.injEq, Value.creationDecision.injEq, CreationIntent.decision,
    CreationDecision.mk.injEq] at he
  exact he.right.right.right

section Rules

-- A call about the relation, while others are about other relations.
abbrev Solo (P : Platform) (x : Text) (Q : State → α → Prop) (s : State) (c : Call α) : Prop :=
  AloneElse (TidyActs P) (Inv P False) (ActStays (some x)) (Aside x) (Agrees P x)
    (internal · = false) Q s c

variable {K : State → Prop} {Q : α → Prop} {S : State → β → Prop}

theorem aside_of_guarded {r : Reply a} (ha : ActStays y a) (hy : y ≠ some x)
    (h : TidyActs P a s r s') : Aside x s s' :=
  aside_of_does ha hy (Guarded.does h)

-- Also what fails leaves the relation as it was.
theorem alone_plain {c : Call α} (h : Plain Q c) (hK : Local x K) (hk : K s) :
    Alone (TidyActs P) (Inv P False) (ActStays (some x)) (Aside x) (Agrees P x)
      (fun s => Ends (fun e => K s ∧ internal e = false) fun a => K s ∧ Q a) s c.run := by
  refine .mono (fun s a h => ?_)
    (.of_allTo h hk (fun _ => .of_none) hK.aside fun a s r s' ha _ hs hk he _ => ?_)
  · cases a
    case ok a | error e => exact h
  · have haside : Aside x s s' := aside_of_guarded ha nofun he
    exact ⟨local_agrees.aside haside hs, hK.aside haside hk⟩

theorem solo_plain (h : Plain Q c) (hK : Local x K) (hk : K s) :
    Solo P x (fun s a => K s ∧ Q a) s c := by
  refine .mono (fun s a h => ?_) (alone_plain h hK hk)
  cases a
  case ok => exact h
  case error => exact h.right

theorem solo_of_plain (h : Plain Q c) : Solo P x Any s c := by
  refine .mono (fun s a h => ?_) (solo_plain h local_true trivial)
  cases a
  case ok => trivial
  case error => exact h

theorem solo_bindPlain (h : Plain Q c) (hK : Local x K) (hk : K s)
    (hf : ∀ s a, K s → Q a → Solo P x S s (f a)) : Solo P x S s (c >>= f) :=
  .bind (solo_plain h hK hk) fun s a h => hf s a h.left h.right

-- What an action that only looks at the state tells.
theorem solo_load
    (h : ∀ s₁ v, Aside x s s₁ → Inv P False s₁ → Agrees P x s₁ → s₁.store k = v.map .record →
      T s₁ v) : Solo P x T s (load k) := by
  refine ⟨trivial, fun s₁ ha hb hs r s₂ he hb' => ?_⟩
  cases he
  case failed message | replyLost message => exact ⟨hs, rfl⟩
  case done =>
    refine ⟨hs, ?_⟩
    have hv := fun v => h s₁ v ha hb hs
    cases hg : s₁.store.get k
    case ok v => exact hv (some v) (KV.Typed.Store.get_eq_ok.mp hg)
    case error err =>
      cases err
      case notFound => exact hv none (KV.Typed.Store.get_eq_notFound.mp hg)
      all_goals exact rfl

theorem solo_readJSONValue {T : State → Option α → Prop}
    (hnone : ∀ s₁, Aside x s s₁ → Inv P False s₁ → Agrees P x s₁ → s₁.store k = none → T s₁ none)
    (hsome : ∀ s₁ v a, Aside x s s₁ → Inv P False s₁ → Agrees P x s₁ →
      s₁.store k = some (.record v) → decode v = some a → T s₁ (some a)) :
    Solo P x T s (readJSONValue decode k) := by
  refine .bind (solo_load fun s₁ v ha hi hs hv => And.intro ha (And.intro hi (And.intro hs hv))) ?_
  rintro s₁ v ⟨ha, hi, hs, hv⟩
  cases v
  case none => exact .pure (hnone s₁ ha hi hs hv)
  case some v =>
    dsimp only
    split
    case h_1 a hd => exact .pure (hsome s₁ v a ha hi hs hv hd)
    case h_2 => exact .throw (by decide)

theorem solo_newID
    (h : ∀ s₁ id, Aside x s s₁ → Inv P False s₁ → s₁.names (name id) = none →
      T (s₁.mint scope (name id) id) id) : Solo P x T s (newID scope name) := by
  refine ⟨trivial, ?_⟩
  rintro s₁ ha hb hs id s₂ ⟨hfree, rfl⟩ hb'
  have hmint : Aside x s₁ (s₁.mint scope (name id) id) := .of_store rfl
  exact ⟨local_agrees.aside hmint hs, h s₁ id ha hb hfree⟩

theorem solo_applyDrawn (hstays : ∀ revisions, Stays (some x) (m revisions))
    (ht : ∀ s₁ s₂ revisions, Aside x s s₁ → Inv P False s₁ → Agrees P x s₁ → Tidy s₁ (m revisions) →
      Applied (m revisions) s₁ s₂ → Agrees P x s₂ ∧ T s₂ true)
    (hf : ∀ s₁ revisions, Aside x s s₁ → Inv P False s₁ → Agrees P x s₁ →
      s₁.store.applyMutation (m revisions) = .ok none → T s₁ false) :
    Solo P x T s (applyDrawn n m) := by
  refine ⟨hstays, ?_⟩
  rintro s₁ ha hb hs r s₂ ⟨revisions, -, htidy, he⟩ hb'
  rcases State.apply_cases he with ⟨hm, -, hok, hr⟩ | ⟨rfl, hr, hnone⟩
  case inl =>
    have ⟨hs', hT⟩ := ht s₁ s₂ revisions ha hb hs (htidy hok) hm
    refine ⟨hs', ?_⟩
    cases r
    case error => exact rfl
    case ok b =>
      cases b
      case false => exact absurd rfl hr
      case true => exact hT
  case inr =>
    refine ⟨hs, ?_⟩
    cases r
    case error => exact rfl
    case ok b =>
      cases b
      case false => exact hf _ revisions ha hb hs (hnone rfl)
      case true => exact absurd rfl hr

theorem solo_apply (hstays : Stays (some x) m)
    (ht : ∀ s₁ s₂, Aside x s s₁ → Inv P False s₁ → Agrees P x s₁ → Tidy s₁ m → Applied m s₁ s₂ →
      Agrees P x s₂ ∧ T s₂ true)
    (hf : ∀ s₁, Aside x s s₁ → Inv P False s₁ → Agrees P x s₁ →
      s₁.store.applyMutation m = .ok none → T s₁ false) : Solo P x T s (apply m) :=
  solo_applyDrawn (fun _ => hstays) (fun s₁ s₂ _ => ht s₁ s₂) fun s₁ _ => hf s₁

end Rules

section Rows

variable {G : Prop} {a b w w' : Text}

theorem trimSpace_relationID (ha : P.trimSpace a = a) (hb : P.trimSpace b = b) :
    P.trimSpace (relationID P a b) = relationID P a b := by
  unfold relationID
  rw [ha, hb]
  dsimp only
  split
  case isTrue => exact P.trimSpace_colon a b ha hb
  case isFalse => exact P.trimSpace_colon b a hb ha

theorem relationID_comm (a b : Text) : relationID P a b = relationID P b a := by
  unfold relationID
  dsimp only
  split <;> split
  case isTrue.isTrue h h' => rw [le_antisymm h h']
  case isFalse.isFalse h h' => exact absurd (le_of_not_ge h) h'
  all_goals rfl

-- A relation whose rows are there is the one of its peers.
theorem peers_of_relation {p : Pair P} (ha : P.trimSpace a = a) (hb : P.trimSpace b = b)
    (h : p.relation = relationID P a b) : (a = p.fst ∧ b = p.snd) ∨ (a = p.snd ∧ b = p.fst) := by
  have hsplit (c d : Text) (h : p.relation = c ++ colon :: d) :
      c = min p.fst p.snd ∧ d = max p.fst p.snd := by
    rw [p.relation_eq, List.append_cons_inj_of_notMem
      (colon_notMem_of_isPublicKey p.isPublicKey_min)
      (colon_notMem_of_isPublicKey p.isPublicKey_max)] at h
    exact ⟨h.left.symm, h.right.right.symm⟩
  have hpeers (c d : Text) (h : p.relation = c ++ colon :: d) :
      (c = p.fst ∧ d = p.snd) ∨ (c = p.snd ∧ d = p.fst) := by
    obtain ⟨rfl, rfl⟩ := hsplit c d h
    rcases le_total p.fst p.snd with hle | hle
    case inl => exact .inl ⟨min_eq_left hle, max_eq_right hle⟩
    case inr => exact .inr ⟨min_eq_right hle, max_eq_left hle⟩
  unfold relationID at h
  rw [ha, hb] at h
  dsimp only at h
  split at h
  case isTrue => exact hpeers a b h
  case isFalse => exact (hpeers b a h).symm.imp And.symm And.symm

theorem active_of_row (hi : Inv P G s) (h : s.store (.friend o x) ≠ none) :
    ∃ (p : Pair P) (w : Text), Key.friend o x = friendKey P p.fst p.relation ∧
      x = escapeStoreSegment P p.relation ∧ Active P s.store p w := by
  obtain ⟨p, ho, hx⟩ := hi.friends.rows o x h
  have hk : Key.friend o x = friendKey P p.fst p.relation := by
    rw [friendKey, trimSpace_of_isPublicKey p.isPublicKey_fst, ho, hx]
  rcases hi.friends.whole p with hp | ⟨inc, w, -, -, ha⟩
  case inl => exact absurd (hk ▸ hp.fst.row) h
  case inr => exact ⟨p, w, hk, hx, ha⟩

theorem Live.active (hi : Inv P G s) (h : Live x s w) :
    ∃ p : Pair P, x = escapeStoreSegment P p.relation ∧ Active P s.store p w := by
  obtain ⟨o, row, hrow, rfl⟩ := h
  obtain ⟨p, w, hk, hx, ha⟩ := active_of_row hi (by rw [hrow]; simp)
  obtain ⟨row', hrow', -, -, rfl⟩ := ha.fst.row
  cases (hk ▸ hrow).symm.trans hrow'
  exact ⟨p, hx, ha⟩

theorem Active.live (h : Active P s.store p w) : Live (escapeStoreSegment P p.relation) s w := by
  obtain ⟨row, hrow, -, -, hw⟩ := h.fst.row
  exact ⟨_, row, hrow, hw⟩

theorem Live.eq (hi : Inv P G s) (h : Live x s w) (h' : Live x s w') : w = w' := by
  obtain ⟨p, hx, ha⟩ := h.active hi
  obtain ⟨q, hx', ha'⟩ := h'.active hi
  rw [hx, escapeStoreSegment_inj p.trimSpace_relation q.trimSpace_relation] at hx'
  obtain ⟨c, hc, -, -, rfl⟩ := (ha.of_relation hx').binding
  obtain ⟨c', hc', -, -, rfl⟩ := ha'.binding
  cases hc.symm.trans hc'
  rfl

theorem Idle.not_live (h : Idle x s) : ¬Live x s w :=
  fun ⟨o, _, hrow, _⟩ => nomatch (h o).symm.trans hrow

-- One of the two rows of a relation.
def Row (P : Platform) (s : State) (owner peer w : Text) : Prop :=
  ∃ row : FriendRecord,
    s.store (friendKey P owner (relationID P owner peer)) = some (.record (.friend row)) ∧
    row.relationID = relationID P owner peer ∧ row.peerPublicKey = peer ∧ row.workspaceName = w

-- Rows are there for both peers, or for none.
theorem rows_cases (hi : Inv P G s) (ha : P.trimSpace a = a) (hb : P.trimSpace b = b) :
    Idle (escapeStoreSegment P (relationID P a b)) s ∨
    ∃ w, Live (escapeStoreSegment P (relationID P a b)) s w ∧ Row P s a b w ∧ Row P s b a w := by
  by_cases hidle : Idle (escapeStoreSegment P (relationID P a b)) s
  case pos => exact .inl hidle
  case neg =>
    simp only [Idle, not_forall] at hidle
    obtain ⟨o, ho⟩ := hidle
    obtain ⟨p, w, -, hx, hactive⟩ := active_of_row hi ho
    rw [escapeStoreSegment_inj (trimSpace_relationID ha hb) p.trimSpace_relation] at hx
    have hswap : relationID P p.snd p.fst = p.relation := p.relation_swap
    refine .inr ⟨w, hx ▸ hactive.live, ?_⟩
    rcases peers_of_relation ha hb hx.symm with ⟨rfl, rfl⟩ | ⟨rfl, rfl⟩
    case inl => exact ⟨hactive.fst.row, by rw [Row, hswap]; exact hactive.snd.row⟩
    case inr => exact ⟨by rw [Row, hswap]; exact hactive.snd.row, hactive.fst.row⟩

end Rows

-- An incarnation whose name was not used before has not been decided.
theorem undecided_of_fresh {G : Prop} {id : Text} (hi : Inv P G s) (hr : P.trimSpace r = r)
    (hfree : s.names (directWorkspaceIncarnationName P r id) = none) :
    s.store (creationDecisionKey P r (P.trimSpace id)) = none := by
  by_contra hne
  have ⟨c, hc⟩ := Option.ne_none_iff_exists'.mp hne
  obtain ⟨d, -, hx, hy, hm, p, hp⟩ := hi.records.decisions _ _ c hc
  rw [hp, escapeStoreSegment_inj hr p.trimSpace_relation] at hx
  rw [escapeStoreSegment_inj (P.trimSpace_idem id) hm.trimSpace] at hy
  obtain ⟨hw, id', hid, -⟩ := hm
  have hname : directWorkspaceIncarnationName P r id = d.workspace := by
    rw [hw, hp, ← hx, ← hy]
    unfold directWorkspaceIncarnationName
    rw [P.trimSpace_idem]
  rw [hname, hid] at hfree
  nomatch hfree

section Reads

variable {K : State → Prop} {a b : Text}

-- What the rows of a relation tell about it.
def Tells (x : Text) (s : State) : Option FriendObject → Prop
  | none => Idle x s
  | some item => Live x s item.workspaceName

theorem internal_checkRelationship
    (hf : fromItem.relationID = r ∧ P.trimSpace fromItem.peerPublicKey = b ∧
      fromItem.workspaceName = w)
    (ht : toItem.relationID = r ∧ P.trimSpace toItem.peerPublicKey = a ∧ toItem.workspaceName = w)
    (h : checkRelationship P r a b fromItem toItem = .error e) : internal e = false := by
  rcases Except.bind_eq_error.mp h with h | ⟨_, -, h⟩
  case inl => exact internal_validate h
  case inr =>
    rcases Except.bind_eq_error.mp h with h | ⟨_, -, h⟩
    case inl => exact internal_validate h
    case inr =>
      dsimp only at h
      split at h
      case isTrue hc =>
        rw [hf.left, hf.right.left, hf.right.right, ht.left, ht.right.left, ht.right.right] at hc
        simp at hc
      case isFalse =>
        split at h
        case isTrue => cases h; decide
        case isFalse => cases h

theorem solo_readActiveRelationship (ha : P.trimSpace a = a) (hb : P.trimSpace b = b)
    (hx : escapeStoreSegment P (relationID P a b) = x) (hK : Local x K) (hk : K s) :
    Solo P x (fun s item => K s ∧ Inv P False s ∧ Tells x s item) s
      (readActiveRelationship P a b) := by
  subst hx
  have hkey (o : Text) (c : Option (KV.Typed.Content Value Text)) :
      Local (escapeStoreSegment P (relationID P a b)) fun s =>
        s.store (friendKey P o (relationID P a b)) = c :=
    local_store rfl c
  -- Both rows are read in states that have the same rows of this relation.
  refine .bind (Q := fun s v => K s ∧ s.store (friendKey P a (relationID P a b)) =
    v.map fun row => .record (.friend row)) (solo_readJSONValue ?_ ?_) ?_
  · exact fun s₁ haside _ _ hnone => ⟨hK.aside haside hk, hnone⟩
  · intro s₁ v row haside _ _ hv hrow
    rw [friend?_eq_some hrow] at hv
    exact ⟨hK.aside haside hk, hv⟩
  intro s₁ fromItem ⟨hk₁, hfrom⟩
  refine .bind (Q := fun s v => K s ∧ Inv P False s ∧
    s.store (friendKey P a (relationID P a b)) = fromItem.map (fun row => .record (.friend row)) ∧
    s.store (friendKey P b (relationID P a b)) = v.map fun row => .record (.friend row))
    (solo_readJSONValue ?_ ?_) ?_
  · exact fun s₂ haside hi _ hnone =>
      ⟨hK.aside haside hk₁, hi, (hkey a _).aside haside hfrom, hnone⟩
  · intro s₂ v row haside hi _ hv hrow
    rw [friend?_eq_some hrow] at hv
    exact ⟨hK.aside haside hk₁, hi, (hkey a _).aside haside hfrom, hv⟩
  intro s₂ toItem ⟨hk₂, hi, hfrom, hto⟩
  rcases rows_cases hi ha hb with
    hidle | ⟨w, hlive, ⟨row, hrow, hr, hp, hw⟩, ⟨row', hrow', hr', hp', hw'⟩⟩
  case inl =>
    rw [friendKey, hidle] at hfrom hto
    cases fromItem <;> cases hfrom
    cases toItem <;> cases hto
    exact .pure ⟨hk₂, hi, hidle⟩
  case inr =>
    rw [relationID_comm] at hrow' hr'
    rw [hrow] at hfrom
    rw [hrow'] at hto
    cases fromItem <;> cases hfrom
    cases toItem <;> cases hto
    refine .bindLift (fun e he => ?_) fun item hc => ?_
    · exact internal_checkRelationship ⟨hr, by rw [hp, hb], hw⟩ ⟨hr', by rw [hp', ha], hw'⟩ he
    · obtain ⟨rfl, -, -⟩ := checkRelationship_eq_ok hc
      have htells : Live (escapeStoreSegment P (relationID P a b)) s₂ row.workspaceName :=
        hw ▸ hlive
      exact .pure ⟨hk₂, hi, htells⟩

theorem solo_readCreationIntent (hx : escapeStoreSegment P r = x) (hK : Local x K) (hk : K s) :
    Solo P x (fun s v => K s ∧
      s.store (.creationIntent x) = v.map fun i => .record (.creationIntent i)) s
      (readCreationIntent P r) := by
  subst hx
  refine solo_readJSONValue (fun s₁ haside _ _ hnone => ⟨hK.aside haside hk, hnone⟩) ?_
  intro s₁ v i haside _ _ hv hi
  rw [creationIntent?_eq_some hi] at hv
  exact ⟨hK.aside haside hk, hv⟩

theorem creationDecision?_eq_some {v : Value}
    (h : v.creationDecision? = some d) : v = .creationDecision d := by
  cases v <;> cases h
  rfl

-- The decision about an intent that is stored fits to the rows.
theorem solo_readCreationDecision (hx : escapeStoreSegment P i.relationID = x) (hK : Local x K)
    (hk : K s) (hi : Stored x i s) :
    Solo P x (fun s d => K s ∧ Stored x i s ∧ Stage P x i s ∧ DecidedAs P x i s (d.map (·.state))) s
      (readCreationDecision P i) := by
  subst hx
  have hread (s₁ : State) (haside : Aside (escapeStoreSegment P i.relationID) s s₁)
      (hs : Agrees P (escapeStoreSegment P i.relationID) s₁) :=
    have hi₁ := (local_stored i).aside haside hi
    And.intro (hK.aside haside hk) (And.intro hi₁ (hs i hi₁))
  refine solo_readJSONValue (fun s₁ haside _ hs hnone => ?_) fun s₁ v d haside _ hs hv hd => ?_
  · have ⟨hk₁, hi₁, hstage⟩ := hread s₁ haside hs
    exact ⟨hk₁, hi₁, hstage, hnone⟩
  · have ⟨hk₁, hi₁, hstage⟩ := hread s₁ haside hs
    rw [creationDecision?_eq_some hd] at hv
    refine ⟨hk₁, hi₁, hstage, ?_⟩
    cases hstage
    case undecided hdec _ => nomatch hv.symm.trans hdec
    case committed hdec _ | cancelled hdec _ => cases hv.symm.trans hdec; exact hdec

end Reads

end GizClaw.Friend

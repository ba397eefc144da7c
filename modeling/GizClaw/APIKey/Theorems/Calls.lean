import GizClaw.APIKey.Theorems.Keys

-- Every call keeps the keys whole, and what a call has revoked stays revoked.

namespace GizClaw.APIKey

open Interleaving
open PendingDeletion (Text Time ascii)
open KV.Typed (Mutation Effect)

variable {s : State} {P : Platform}

abbrev Keeps {α : Type} (Q : State → α → Prop) (s : State) (x : Call α) : Prop :=
  SafeOk Does Inv Next Q s x

theorem stable_known (item : Key) : Stable Next fun s => Known s item :=
  ⟨fun h hn => h.next hn⟩

theorem stable_gone (name : Text) : Stable Next fun s => Gone s name :=
  ⟨fun h hn => h.next hn⟩

theorem stable_cleared (owner : Text) : Stable Next fun s => Cleared s owner :=
  ⟨fun h hn => h.next hn⟩

theorem stable_drawn (names : List Text) : Stable Next fun s => ∀ n ∈ names, n ∈ s.names :=
  ⟨fun h hn n hm => hn.names (h n hm)⟩

section Actions

-- What was read was so when it was read.
theorem keeps_read (k : StoreKey)
    (h : ∀ s₁ v, Next s s₁ → Inv s₁ → s₁.store k = v.map .record → Q s₁ v) :
    Keeps Q s (read k) := by
  refine .act fun s₁ hn hi r s₂ hd => ?_
  cases hd
  case failed message | replyLost message => exact ⟨hi, .refl _, .throw⟩
  case done =>
    refine ⟨hi, .refl _, ?_⟩
    have hv := fun v => h s₁ v hn hi
    cases hg : s₁.store.get k
    case ok v => exact .pure (hv (some v) (KV.Typed.Store.get_eq_ok.mp hg))
    case error err =>
      cases err
      case notFound => exact .pure (hv none (KV.Typed.Store.get_eq_notFound.mp hg))
      all_goals exact .throw

theorem keeps_now : Keeps Any s now := by
  refine .act fun s₁ _ hi r s₂ hd => ?_
  obtain rfl : s₂ = s₁ := hd
  exact ⟨hi, .refl _, .pure trivial⟩

theorem listMembers_eq_ok {σ : Store}
    (h : σ.listMembers k = .ok names) : σ.members false k = names := by
  unfold KV.Typed.Store.listMembers at h
  unfold KV.Typed.Store.members
  split at h <;> simp_all

theorem keeps_listMembers (k : StoreKey) {Q : State → List Text → Prop}
    (h : ∀ s₁ names, Next s s₁ → Inv s₁ → s₁.store.members false k = names.toFinset → Q s₁ names) :
    Keeps Q s (listMembers k) := by
  refine .act fun s₁ hn hi r s₂ ⟨l, hl, hd⟩ => ?_
  cases hd
  case failed message | replyLost message => exact ⟨hi, .refl _, .throw⟩
  case done =>
    refine ⟨hi, .refl _, ?_⟩
    match r with
    | .error err => exact .throw
    | .ok names => exact .pure (h s₁ names hn hi (listMembers_eq_ok hl))

-- A fence that is set stays.
theorem keeps_set (owner : Text) :
    Keeps (fun s _ => s.store (.retired owner) ≠ none) s (set (.retired owner) .retired) := by
  refine .act fun s₁ hn hi r s₂ hd => ?_
  have ⟨hinv, hnext⟩ := set_keeps hi owner
  cases hd
  case failed => exact ⟨hi, .refl _, .throw⟩
  case replyLost => exact ⟨hinv, hnext, .throw⟩
  case done => exact ⟨hinv, hnext, .pure (set_retired s₁ owner)⟩

theorem keeps_applyCreate (owner displayName : Text) (manageAPIKeys : Bool) (createdAt : Time) :
    Keeps Any s
      (applyCreate owner (newKey owner displayName manageAPIKeys createdAt)) := by
  refine .act fun s₁ hn hi r s₂ ⟨name, secret, hf, hd⟩ => ?_
  have ⟨hinv, hnext⟩ := create_keeps hi hf.name_new hf.secret_new
  cases hd
  case failed => exact ⟨hi, .refl _, .throw⟩
  case replyLost => exact ⟨hinv, hnext, .throw⟩
  case done =>
    refine ⟨hinv, hnext, ?_⟩
    generalize (s₁.create _).fst = r
    cases r
    case ok => exact .pure trivial
    case error err => cases err <;> exact .throw

end Actions

section Remove

variable {owner : Text} {names : List Text} {items : List Key}

-- What is about to be removed has been read, or is gone.
structure Removable (s : State) (owner : Text) (names : List Text) (items : List Key) : Prop where
  known : ∀ item ∈ items, Known s item ∧ item.owner = owner ∧ item.name ∈ names
  gone : ∀ n ∈ names, n ∈ items.map Key.name ∨ Gone s n

theorem stable_removable (owner : Text) (names : List Text) (items : List Key) :
    Stable Next fun s => Removable s owner names items :=
  ⟨fun h hn => ⟨fun item hm => (h.known item hm).imp_left (Known.next · hn),
    fun n hm => (h.gone n hm).imp_right (Gone.next · hn)⟩⟩

theorem Removable.cons_gone (h : Removable s owner names items) (hg : Gone s name) :
    Removable s owner (name :: names) items where
  known := fun item hm => (h.known item hm).imp_right (And.imp_right (List.mem_cons_of_mem _))
  gone := by
    intro n hm
    rcases List.mem_cons.mp hm with rfl | hm
    case inl => exact .inr hg
    case inr => exact h.gone n hm

theorem Removable.cons (h : Removable s owner names items) (hk : Known s item)
    (ho : item.owner = owner) : Removable s owner (item.name :: names) (item :: items) where
  known := by
    intro item' hm
    rcases List.mem_cons.mp hm with rfl | hm
    case inl => exact ⟨hk, ho, List.mem_cons_self⟩
    case inr => exact (h.known item' hm).imp_right (And.imp_right (List.mem_cons_of_mem _))
  gone := by
    intro n hm
    rw [List.map_cons, List.mem_cons]
    rcases List.mem_cons.mp hm with rfl | hm
    case inl => exact .inl (.inl rfl)
    case inr => exact (h.gone n hm).imp_left .inr

theorem applyMutation_ne_none {σ : Store}
    (hc : m.conditions = []) : σ.applyMutation m ≠ .ok none := by
  intro h
  have ⟨_, _, h⟩ := Except.bind_eq_ok.mp h
  have ⟨ok, hok, h⟩ := Except.bind_eq_ok.mp h
  rw [hc] at hok
  cases hok
  generalize ((σ.putAll m.entries).deleteAll m.deleteKeys).applyGroups m.groups = r at h
  cases r <;> cases h

theorem keeps_remove (h : Removable s owner names items) {Q : State → Prop}
    (hq : ∀ s₁ s₂, Next s s₁ → Removable s₁ owner names items →
      Removed s₁.store s₂.store owner names items → s₂.names = s₁.names → Q s₂) :
    Keeps (fun s _ => Q s) s (discard <| apply owner (cleanupMutation owner names items)) := by
  refine .map (Q := fun s _ => Q s) (.act fun s₁ hn hi r s₂ hd => ?_) fun _ _ h => h
  have h₁ := (stable_removable owner names items).later h hn
  replace hd : Effect s₁ (s₁.apply owner (cleanupMutation owner names items)).snd
    (s₁.apply owner (cleanupMutation owner names items)).fst r s₂ := hd
  unfold State.apply at hd
  split at hd
  case h_2 hno => exact absurd hno (applyMutation_ne_none rfl)
  case h_3 =>
    cases hd <;> exact ⟨hi, .refl _, .throw⟩
  case h_1 σ hσ =>
    have hr := cleanupMutation_apply hσ
    let s' : State := { s₁ with store := σ, log := s₁.log ++ [owner] }
    have ⟨hinv, hnext⟩ : Inv s' ∧ Next s₁ s' := removed_keeps hi hr rfl rfl rfl h₁.known h₁.gone
    cases hd
    case failed => exact ⟨hi, .refl _, .throw⟩
    case replyLost => exact ⟨hinv, hnext, .throw⟩
    case done => exact ⟨hinv, hnext, .pure (hq s₁ _ hn h₁ hr rfl)⟩

end Remove

section Calls

theorem decodeKey_eq_ok (h : decodeKey name v = .ok item) : v = .key item ∧ item.name = name := by
  unfold decodeKey at h
  split at h
  case h_2 => contradiction
  case h_1 =>
    have ⟨hno, h⟩ := Except.ite_error_eq_ok.mp h
    cases h
    exact ⟨rfl, by simpa using fun hne => hno (.inl hne)⟩

theorem keeps_load (name : Text) :
    Keeps (fun s item => item.name = name ∧ Known s item) s (load name) := by
  refine .bind (Q := fun s v => ∀ v' ∈ v, ∀ item, decodeKey name v' = .ok item → Known s item)
    (keeps_read _ fun s₁ v _ hi hv v' hm item hd => ?_) fun s v h => ?_
  case _ =>
    have ⟨he, hname⟩ := decodeKey_eq_ok hd
    cases hm
    exact hi.known (hname ▸ he ▸ hv)
  case _ =>
    cases v
    case none => exact .throw
    case some v => exact .lift fun item hd => ⟨(decodeKey_eq_ok hd).right, h v rfl item hd⟩

theorem keeps_rejectRetired (owner : Text) : Keeps Any s (rejectRetired owner) := by
  refine .bind (Q := Any) (keeps_read _ fun _ _ _ _ _ => trivial) fun s v _ => ?_
  cases v
  case none => exact .pure trivial
  case some => exact .throw

theorem keeps_createRounds (owner displayName : Text) (manageAPIKeys : Bool) (rounds : Nat) :
    Keeps Any s (createRounds owner displayName manageAPIKeys rounds) := by
  induction rounds generalizing s
  case zero => exact .throw
  case succ hi =>
    refine .bind keeps_now fun s createdAt _ => ?_
    refine .bind (keeps_applyCreate owner displayName manageAPIKeys createdAt) fun s created _ => ?_
    dsimp only
    split
    case isTrue => exact .pure trivial
    case isFalse => exact .bind (keeps_rejectRetired owner) fun s _ _ => hi

theorem keeps_create (owner displayName : Text) (manageAPIKeys : Bool) :
    Keeps Any s (create P owner displayName manageAPIKeys) :=
  .bindLift fun _ _ => .bindLift fun _ _ => .bind (keeps_rejectRetired owner) fun _ _ _ =>
    keeps_createRounds ..

theorem keeps_revoke (owner name : Text) :
    Keeps (fun s _ => Gone s name) s (revoke owner name) := by
  refine .bind (keeps_load name) fun s item ⟨hname, hk⟩ => ?_
  subst hname
  split
  case isFalse => exact .throw
  case isTrue ho =>
    rw [revokeMutation_eq]
    refine keeps_remove ⟨?known, ?gone⟩ fun s₁ s₂ hn h hr hnames => ⟨?drawn, ?record⟩
    case known => simpa using ⟨hk, ho⟩
    case gone => simp
    case drawn => exact hnames ▸ hn.names hk.name
    case record => rw [hr.record]; simp

-- The record is read last, and the call returns it as it is then.
theorem keeps_authenticate (secret : Text) :
    Keeps (fun s item => item.apiKey = secret ∧
      s.store (.record item.name) = some (.record (.key item))) s (authenticate secret) := by
  unfold authenticate
  split
  case isFalse => exact .throw
  case isTrue =>
    refine .bind (Q := Any) (keeps_read _ fun _ _ _ _ _ => trivial) fun s v _ => ?_
    cases v
    case none => exact .throw
    case some v =>
      refine .bindLift fun name _ => ?_
      refine .bind (Q := fun s v => s.store (.record name) = v.map .record)
        (keeps_read _ fun _ _ _ _ hv => hv) fun s v hv => ?_
      cases v
      case none => exact .throw
      case some =>
        refine .bindLift fun item hd => ?_
        have ⟨he, hname⟩ := decodeKey_eq_ok hd
        split
        case isTrue hs => exact .pure ⟨hs, hname ▸ he ▸ hv⟩
        case isFalse => exact .throw

theorem keeps_loadAll (owner : Text) (names : List Text) (h : ∀ n ∈ names, n ∈ s.names) :
    Keeps (fun s items => Removable s owner names items) s (loadAll owner names) := by
  induction names generalizing s
  case nil => exact .pure ⟨by simp, by simp⟩
  case cons name names hi =>
    refine .bindKeep (Q := fun s v => (v = none → Gone s name) ∧
      ∀ v' ∈ v, ∀ item, decodeKey name v' = .ok item → Known s item)
      (stable_drawn (name :: names)) h (keeps_read _ fun s₁ v hn hv hk => ⟨?none, ?some⟩)
      fun s v h hv => ?_
    case none =>
      rintro rfl
      exact ⟨hn.names (h name List.mem_cons_self), hk⟩
    case some =>
      intro v' hm item hd
      have ⟨he, hname⟩ := decodeKey_eq_ok hd
      cases hm
      exact hv.known (hname ▸ he ▸ hk)
    have hnames : ∀ n ∈ names, n ∈ s.names := fun n hm => h n (List.mem_cons_of_mem _ hm)
    cases v
    case none =>
      have hkeep := SafeOk.keep (stable_gone name) (hv.left rfl) (hi hnames)
      exact hkeep.mono fun _ _ ⟨hg, hr⟩ => hr.cons_gone hg
    case some v =>
      refine .bindLift fun item hd => ?_
      obtain rfl := (decodeKey_eq_ok hd).right
      split
      case isFalse => exact .throw
      case isTrue ho =>
        have hkeep := SafeOk.keep (stable_known item) (hv.right v rfl item hd) (hi hnames)
        exact hkeep.map fun _ _ ⟨hk, hr⟩ => hr.cons hk ho

theorem stable_retired (owner : Text) : Stable Next fun s => s.store (.retired owner) ≠ none :=
  ⟨fun h hn => (hn.retired owner h).left⟩

-- From the fence on, the keys of the owner only get fewer.
theorem stable_listed (owner : Text) (names : List Text) : Stable Next fun s =>
    s.store (.retired owner) ≠ none ∧ s.store.members false (.owner owner) ⊆ names.toFinset :=
  ⟨fun h hn => ⟨(hn.retired owner h.left).left, (hn.retired owner h.left).right.trans h.right⟩⟩

theorem keeps_cleanupPeer (owner : Text) :
    Keeps (fun s _ => Cleared s owner) s (cleanupPeer P owner) := by
  refine .bindLift fun _ _ => .bind (keeps_set owner) fun s _ hr => ?_
  refine .bind (Q := fun s names => (s.store (.retired owner) ≠ none ∧
    s.store.members false (.owner owner) ⊆ names.toFinset) ∧ ∀ n ∈ names, n ∈ s.names)
    (keeps_listMembers _ fun s₁ names hn hi hm => ⟨⟨?retired, hm.subset⟩, ?names⟩)
      fun s names h => ?_
  case retired => exact (stable_retired owner).later hr hn
  case names =>
    intro n hmem
    have ⟨item, hname, _, hrec⟩ := hi.whole.member owner n (hm ▸ List.mem_toFinset.mpr hmem)
    exact hi.names n (by simp [hrec])
  refine .bindKeep (stable_listed owner names) h.left (keeps_loadAll owner names h.right)
    fun s items h hitems => ?_
  refine keeps_remove hitems fun s₁ s₂ hn _ hr _ => ?_
  have h₁ := (stable_listed owner names).later h hn
  refine ⟨by rw [hr.retired]; exact h₁.left, Finset.eq_empty_of_forall_notMem fun n hmem => ?_⟩
  have ⟨hmem, hkeep⟩ := (hr.members owner n).mp hmem
  exact hkeep ⟨rfl, List.mem_toFinset.mp (h₁.right hmem)⟩

-- What a call that has returned leaves behind.
def Op.Post : Op → State → Result → Prop
  | .revokeSelf principal, s, _ => Gone s principal.name
  | .revoke _ name, s, _ => Gone s name
  | .revokeOwner _ name, s, _ => Gone s name
  | .cleanupPeer owner, s, _ => Cleared s owner
  | _, _, _ => True

theorem stable_post (op : Op) (r : Result) : Stable Next fun s => op.Post s r := by
  cases op
  case create | authenticate => exact ⟨fun _ _ => trivial⟩
  case revokeSelf principal | revoke principal name | revokeOwner owner name => exact stable_gone _
  case cleanupPeer => exact stable_cleared _

theorem keeps_call (op : Op) : Keeps op.Post s (op.call P) := by
  cases op
  case create owner name manage =>
    exact .map (Q := Any) (keeps_create owner name manage) fun _ _ h => h
  case authenticate secret =>
    exact .map (keeps_authenticate secret) fun _ _ _ => trivial
  case revokeSelf principal =>
    exact .map (Q := fun s _ => Gone s principal.name) (keeps_revoke _ _) fun _ _ h => h
  case revokeOwner owner name =>
    refine .map (Q := fun s _ => Gone s name) ?_ fun _ _ h => h
    exact .bindLift fun _ _ => .bindLift fun _ _ => keeps_revoke owner name
  case cleanupPeer owner =>
    exact .map (Q := fun s _ => Cleared s owner) (keeps_cleanupPeer owner) fun _ _ h => h
  case revoke name =>
    refine .map (Q := fun s _ => Gone s name) ?_ fun _ _ h => h
    unfold revokeAs
    split
    case isTrue => exact keeps_revoke _ _
    case isFalse => exact .throw

end Calls

section Owners

-- The action changes nothing but the keys and the fence of the owner.
def Act.For (owner : Text) : Act → Prop
  | .apply o _ => o = owner
  | .set k _ => k = .retired owner
  | .create .. => False
  | _ => True

-- For whom a call revokes keys.
def Op.revokesFor : Op → Option Text
  | .revokeSelf principal => some principal.owner
  | .revoke principal _ => some principal.owner
  | .revokeOwner owner _ => some owner
  | .cleanupPeer owner => some owner
  | _ => none

variable {owner : Text}

theorem allFor_read (k : StoreKey) : AllOk (Act.For owner) (read k) := by
  refine ⟨trivial, fun r => ?_⟩
  match r with
  | .ok v => trivial
  | .error err => cases err <;> trivial

theorem allFor_revoke (name : Text) : AllOk (Act.For owner) (revoke owner name) := by
  refine .bind (.bind (allFor_read _) fun v => ?load) fun item => ?_
  case load => cases v <;> trivial
  split
  case isTrue => exact .map ⟨rfl, fun _ => trivial⟩
  case isFalse => exact .throw

theorem allFor_loadAll (names : List Text) : AllOk (Act.For owner) (loadAll owner names) := by
  induction names
  case nil => exact .pure
  case cons hi =>
    refine .bind (allFor_read _) fun v => ?_
    cases v
    case none => exact hi
    case some =>
      refine .bind .lift fun item => ?_
      split
      case isTrue => exact .map hi
      case isFalse => exact .throw

theorem allFor_cleanupPeer : AllOk (Act.For owner) (cleanupPeer P owner) := by
  refine .bind .lift fun _ => .bind ⟨rfl, fun _ => trivial⟩ fun _ => ?_
  refine .bind ⟨trivial, fun _ => trivial⟩ fun names => .bind (allFor_loadAll names) fun items => ?_
  exact .map ⟨rfl, fun _ => trivial⟩

theorem allFor_call {op : Op} (h : op.revokesFor = some owner) :
    AllOk (Act.For owner) (op.call P) := by
  cases op <;> simp only [Op.revokesFor, Option.some.injEq, reduceCtorEq] at h <;> subst h
  case revokeSelf => exact .map (allFor_revoke _)
  case revokeOwner =>
    exact .map (.bind .lift fun _ => .bind .lift fun _ => allFor_revoke _)
  case cleanupPeer => exact .map allFor_cleanupPeer
  case revoke =>
    refine .map ?_
    unfold revokeAs
    split
    case isTrue => exact allFor_revoke _
    case isFalse => exact .throw

-- Mutations are logged under the owner that they are for.
theorem log_of_for (ha : a.For owner) (hd : Does a s r s') :
    ∀ o, s'.log = s.log ++ o → ∀ x ∈ o, x = owner := by
  have hsame : s'.log = s.log ∨ s'.log = s.log ++ [owner] := by
    cases a
    case get k | set k v => cases hd <;> exact .inl rfl
    case now => exact .inl (congrArg State.log hd)
    case create => exact ha.elim
    case listMembers =>
      have ⟨_, _, hd⟩ := hd
      cases hd <;> exact .inl rfl
    case apply o m =>
      subst ha
      have happly : (s.apply o m).snd.log = s.log ∨ (s.apply o m).snd.log = s.log ++ [o] := by
        unfold State.apply
        split
        case h_1 => exact .inr rfl
        case h_2 | h_3 => exact .inl rfl
      cases hd
      case done | replyLost => exact happly
      case failed => exact .inl rfl
  intro o ho x hx
  rcases hsame with h | h <;> rw [ho] at h
  case inl => simp [List.append_right_eq_self.mp h] at hx
  case inr => rw [List.append_cancel_left h] at hx; exact List.mem_singleton.mp hx

end Owners

section Runs

abbrev System := Config Act Reply (Except Err Result) State

-- The configurations that Servers on this platform can get to.
abbrev Reachable (P : Platform) : System → Prop :=
  Interleaving.Reachable Does (fun op : Op => (op.call P).run) .init

abbrev Steps (P : Platform) : System → System → Prop :=
  Relation.ReflTransGen (Step Does fun op : Op => (op.call P).run)

-- The call that was made in a slot, for as long as nothing else takes the slot.
abbrev Since (P : Platform) (i : Nat) (op : Op) : System → System → Prop :=
  Interleaving.Since Does (fun op : Op => (op.call P).run) i op

def Returned (c : System) (i : Nat) (r : Result) : Prop :=
  c.programs i = some (.pure (.ok r))

variable {c c₀ c₁ : System} {i : Nat} {op : Op} {r : Result} {secret : Text}

theorem Reachable.sound (h : Reachable P c) : c.Sound Does Inv Next :=
  Interleaving.Reachable.sound Next.refl Next.trans (fun op _ _ => (keeps_call op).safe) inv_init h

theorem Steps.sound (h : c.Sound Does Inv Next) (hs : Steps P c c₁) :
    c₁.Sound Does Inv Next ∧ Next c.shared c₁.shared :=
  h.steps Next.refl Next.trans (fun op _ _ => (keeps_call op).safe) hs

theorem Since.post (h₀ : c₀.Sound Does Inv Next) (h : Since P i op c₀ c) (hr : Returned c i r) :
    op.Post c.shared r := by
  have hpost := Interleaving.Since.post (P := fun s x => ∀ r, x = .ok r → op.Post s r) Next.refl
    Next.trans (fun op _ _ => (keeps_call op).safe) h₀ h (fun _ _ => keeps_call op)
    (fun _ => ⟨fun h hn r hr => (stable_post op r).later (h r hr) hn⟩) hr
  exact hpost r rfl

-- Whoever is authenticated had a record with the secret at some moment of the call.
theorem authenticated (h₀ : c₀.Sound Does Inv Next) (h : Since P i (.authenticate secret) c₀ c)
    (hr : Returned c i (.principal item)) :
    item.apiKey = secret ∧ ∃ c₁, Steps P c₀ c₁ ∧ Steps P c₁ c ∧
      c₁.shared.store (.record item.name) = some (.record (.key item)) := by
  have hop : ∀ s, Inv s → Keeps (fun s r => ∀ item, r = .principal item → item.apiKey = secret ∧
      s.store (.record item.name) = some (.record (.key item))) s
      ((Op.authenticate secret).call P) :=
    fun s _ => .map (keeps_authenticate secret) fun _ _ h _ he => Result.principal.inj he ▸ h
  have ⟨c₁, h₀₁, h₁, hk⟩ := Interleaving.Since.moment Next.refl Next.trans
    (fun op _ _ => (keeps_call op).safe) h₀ h hop hr
  have ⟨hs, hrec⟩ := hk _ rfl item rfl
  exact ⟨hs, c₁, h₀₁, h₁, hrec⟩

end Runs

-- In every reachable state keys are whole and bounded. A revocation for one owner leaves the keys
-- of all others alone. Whoever is authenticated had the record during the call, so nobody is with a
-- key that was revoked before, or with one of an owner that was cleaned up before.
theorem keys_whole_and_revocable {c : System} (h : Reachable P c) :
    Whole c.shared.store ∧
    (∀ owner, (c.shared.store.members false (.owner owner)).card ≤ peerAPIKeyLimit) ∧
    (∀ i op owner c₁ a next r s, op.revokesFor = some owner → Since P i op c c₁ →
      c₁.programs i = some (.act a next) → Does a c₁.shared r s →
      ∀ item : Key, item.owner ≠ owner →
        (s.store (.record item.name) = some (.record (.key item)) ↔
          c₁.shared.store (.record item.name) = some (.record (.key item)))) ∧
    (∀ i secret c₁ item, Since P i (.authenticate secret) c c₁ → Returned c₁ i (.principal item) →
      item.apiKey = secret ∧ ∃ c', Steps P c c' ∧ Steps P c' c₁ ∧
        c'.shared.store (.record item.name) = some (.record (.key item))) ∧
    (∀ i op owner name c₁ c₂ j secret c₃ item, op.target = some (owner, name) → Since P i op c c₁ →
      Returned c₁ i .done → Steps P c₁ c₂ → Since P j (.authenticate secret) c₂ c₃ →
      Returned c₃ j (.principal item) → item.name ≠ name) ∧
    (∀ i owner c₁ c₂ j secret c₃ item, Since P i (.cleanupPeer owner) c c₁ → Returned c₁ i .done →
      Steps P c₁ c₂ → Since P j (.authenticate secret) c₂ c₃ → Returned c₃ j (.principal item) →
      item.owner ≠ owner) := by
  have h₀ := h.sound
  -- What a call has left behind is so at every moment of a later one.
  have hlater : ∀ {i op c₁ c₂ j secret c₃ item}, Since P i op c c₁ → Returned c₁ i .done →
      Steps P c₁ c₂ → Since P j (.authenticate secret) c₂ c₃ → Returned c₃ j (.principal item) →
      ∃ s, Inv s ∧ op.Post s .done ∧ s.store (.record item.name) = some (.record (.key item)) := by
    intro i op c₁ c₂ j secret c₃ item hop hdone h₁₂ hauth hret
    have hsound₁ := (Steps.sound h₀ hop.steps).left
    have ⟨hsound₂, hnext₁₂⟩ := Steps.sound hsound₁ h₁₂
    have ⟨_, c', h₂', _, hrec⟩ := authenticated hsound₂ hauth hret
    have ⟨hsound', hnext₂'⟩ := Steps.sound hsound₂ h₂'
    have hpost := (stable_post op .done).later (Since.post h₀ hop hdone) (hnext₁₂.trans hnext₂')
    exact ⟨c'.shared, hsound'.inv, hpost, hrec⟩
  refine ⟨h₀.inv.whole, h₀.inv.limit, ?others, ?moment, ?revoked, ?cleaned⟩
  case others =>
    intro i op owner c₁ a next r s hop hsince hp hd item hne
    have hsound := (Steps.sound h₀ hsince.steps).left
    have hnext := (Steps.sound (P := P) hsound (.single (.act i hp hd))).right
    have hfor := ((allFor_call hop).rest (Program.Rest.of_since hsince hp)).left
    have ⟨owners, hlog, hkeys⟩ := hnext.log
    exact hkeys item fun hm => hne (log_of_for hfor hd owners hlog _ hm)
  case moment => exact fun i secret c₁ item hsince hret => authenticated h₀ hsince hret
  case revoked =>
    intro i op owner name c₁ c₂ j secret c₃ item htarget hop hdone h₁₂ hauth hret hname
    have ⟨s, _, hpost, hrec⟩ := hlater hop hdone h₁₂ hauth hret
    have hgone : Gone s name := by
      cases op <;> simp only [Op.target, Option.some.injEq, Prod.mk.injEq, reduceCtorEq] at htarget
      all_goals exact htarget.right ▸ hpost
    rw [hname, hgone.record] at hrec
    contradiction
  case cleaned =>
    intro i owner c₁ c₂ j secret c₃ item hop hdone h₁₂ hauth hret
    have ⟨s, hi, hpost, hrec⟩ := hlater hop hdone h₁₂ hauth hret
    exact hi.owner_ne hpost hrec

namespace Sample

def platform : Platform where
  trimSpace := id
  validString := fun _ => true
  isPublicKey := fun _ => true

def item : Key :=
  newKey (ascii "o") (ascii "d") true 1 (List.replicate 22 97) (List.replicate 43 97)

-- A key is created, in a run where nothing fails.
def creation : List (Turn Op Choice) :=
  .call 0 (.create (ascii "o") (ascii "d") true) ::
    List.replicate 3 (.act 0 ⟨List.replicate 22 97, List.replicate 43 97, .ok [], 1⟩)

end Sample

theorem Reachable.of_run {β : Type} {b : β} (f : System → β) (t : List (Turn Op Choice))
    (h : ((Config.init .init : System).run perform (fun op : Op => (op.call P).run) t).map f =
      some b) : ∃ c, Reachable P c ∧ f c = b :=
  Interleaving.Reachable.exists_run does_of_perform h

theorem keys_whole_and_revocable_sample :
    ∃ c, Reachable Sample.platform c ∧
      c.shared.store (.record Sample.item.name) = some (.record (.key Sample.item)) ∧
      c.shared.store (.secret Sample.item.apiKey) = some (.record (.name Sample.item.name)) ∧
      Sample.item.name ∈ c.shared.store.members false (.owner Sample.item.owner) := by
  obtain ⟨c, hc, hrow⟩ := Reachable.of_run (P := Sample.platform)
    (b := some (.record (.key Sample.item))) (fun c => c.shared.store (.record Sample.item.name))
    Sample.creation (by decide +kernel)
  have ⟨item, he, _, hsecret, hmember⟩ :=
    (keys_whole_and_revocable hc).left.record _ _ hrow
  cases he
  exact ⟨c, hc, hrow, hsecret, hmember⟩

end GizClaw.APIKey

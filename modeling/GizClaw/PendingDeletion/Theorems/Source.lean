import GizClaw.Lib.Except
import GizClaw.PendingDeletion.Source

-- Everything that a call may do to the store is one of three mutations. What the call knows when it
-- attempts one of them comes from its own checks, as the reads behind them may be outdated by then.

namespace GizClaw.PendingDeletion

open Interleaving
open KV.Typed (Mutation)

-- How a task is rewritten. Only a claim takes the lease of someone else.
inductive Writes (before after : Task) : Event → Prop
  | claimed (token : Text) (ha : after.status = .running ∧ after.leaseToken = token) :
    Writes before after (.claimed before.record.deletionID token)
  | renewed (hb : before.status = .running)
    (ha : after.status = .running ∧ after.leaseToken = before.leaseToken) :
    Writes before after (.renewed before.record.deletionID before.leaseToken)
  | checkpointed (hb : before.status = .running)
    (ha : after.status = .running ∧ after.leaseToken = before.leaseToken) :
    Writes before after (.checkpointed before.record.deletionID before.leaseToken)
  | deferred (hb : before.status = .running) (ha : after.status ≠ .running) :
    Writes before after (.deferred before.record.deletionID before.leaseToken)
  | failed (hb : before.status = .running) (ha : after.status ≠ .running) :
    Writes before after (.failed before.record.deletionID before.leaseToken)
  | requeued (ha : after.status ≠ .running) :
    Writes before after (.requeued before.record.deletionID)

-- The keys that a finalization may name.
def Domain (k : Key) : Prop :=
  validateFinalizeDomainKey k = .ok ()

-- `Known` is what holds of every marker that was ever read.
inductive Attempt (P : Platform) (ops : Set Op) (Known : Record → Prop) :
    Mutation Key Value Text → Event → Prop
  | create {r : Record} (ho : .createOrGet r ∈ ops) (hv : r.validate P = .ok ()) :
    Attempt P ops Known (createMutation P r (firstTask r (P.fingerprint r))) (.created r.deletionID)
  | write {before after : Task} {raw : KVTaskState} {e : Event} (hk : Known before.record)
    (hd : decodeTask P before.source before.record raw = .ok before) (hw : Writes before after e)
    (hr : after.record = before.record) (hf : after.markerFingerprint = before.markerFingerprint)
    (hv : validateStoredTask P after = .ok ()) :
    Attempt P ops Known (writeMutation P before after raw) e
  | finalize {task : Task} {raw : KVTaskState} {located : Record} {conditions : List Condition}
    {entries : List Entry} {keys deleteKeys : List Key} {removeMembers : List Members}
    (hk : Known task.record) (hd : decodeTask P task.source task.record raw = .ok task)
    (hs : task.status = .running) (hl : Known located)
    (hi : located.deletionID = task.record.deletionID)
    (hf : storedFingerprint P located = task.markerFingerprint)
    (hc : ∀ k, k ∈ deleteKeys ↔ k ∈ keys ∨ k ∈ commonKeys P located)
    (hkeys : ∀ k ∈ keys, Domain k) (hentries : ∀ e ∈ entries, Domain e.key)
    (hmembers : ∀ g ∈ removeMembers, Domain g.key) :
    Attempt P ops Known (finalizeMutation P task raw task.record.deletionID conditions entries
      deleteKeys removeMembers) (.finalized task.record.deletionID task.leaseToken)

theorem decodeTask_eq_ok :
    decodeTask P source r raw = .ok task ↔
    task = raw.task source r ∧ validateStoredTask P (raw.task source r) = .ok () := by
  unfold decodeTask
  rw [Except.bind_eq_ok]
  constructor
  case mp => rintro ⟨_, hv, h⟩; cases h; exact ⟨rfl, hv⟩
  case mpr => rintro ⟨rfl, hv⟩; exact ⟨(), hv, rfl⟩

theorem domain_of_checkEntries
    (h : checkEntries seen entries = .ok seen') : ∀ e ∈ entries, Domain e.key := by
  induction entries generalizing seen
  case nil => simp
  case cons hi =>
    have ⟨_, he, h⟩ := Except.bind_eq_ok.mp h
    have ⟨_, _, h⟩ := Except.bind_eq_ok.mp h
    simpa using ⟨he, hi h⟩

theorem domain_of_checkMembers
    (h : checkMembers seen groups = .ok ()) : ∀ g ∈ groups, Domain g.key := by
  induction groups
  case nil => simp
  case cons hi =>
    have ⟨_, hg, h⟩ := Except.bind_eq_ok.mp h
    have ⟨_, h⟩ := Except.ite_error_eq_ok.mp h
    simpa using ⟨hg, hi h⟩

theorem foldlM_appendKey {f : List Key → Key → Except Err (List Key)} {Q : Key → Prop}
    (hf : ∀ keys key keys', f keys key = .ok keys' → Q key ∧ keys' = keys ++ [key])
    {ks keys keys' : List Key} (h : ks.foldlM f keys = .ok keys') :
    keys' = keys ++ ks ∧ ∀ k ∈ ks, Q k := by
  induction ks generalizing keys
  case nil => cases h; simp
  case cons hi =>
    have ⟨keys₁, h₁, h⟩ := Except.bind_eq_ok.mp h
    have ⟨hq, hkeys⟩ := hf _ _ _ h₁
    have ⟨he, hks⟩ := hi h
    exact ⟨by simp [he, hkeys], by simpa using ⟨hq, hks⟩⟩

theorem appendKey_eq_ok (h : appendKey keys k = .ok keys') : keys' = keys ++ [k] := by
  have ⟨_, h⟩ := Except.ite_error_eq_ok.mp h
  cases h; rfl

theorem checkLocator_eq_ok {P : Platform} {c : Claim} (h : checkLocator P c o = .ok ()) :
    ∃ r, o = some r ∧ r.deletionID = c.task.record.deletionID ∧
      storedFingerprint P r = c.task.markerFingerprint := by
  unfold checkLocator at h
  split at h
  case h_1 => contradiction
  case h_2 r =>
    split_ifs at h with h₁ h₂
    exact ⟨r, rfl, not_not.mp h₁, not_not.mp h₂⟩

theorem kvFinalizeDeleteKeys_eq_ok {P : Platform} {r : Record} {ks keys : List Key}
    (h : kvFinalizeDeleteKeys P r ks = .ok keys) :
    keys = ks ++ commonKeys P r ∧ ∀ k ∈ ks, Domain k := by
  have ⟨keys₁, h₁, h⟩ := Except.bind_eq_ok.mp h
  have ⟨he, hd⟩ := foldlM_appendKey (Q := Domain) (fun keys key keys' hf => by
    have ⟨_, hv, hf⟩ := Except.bind_eq_ok.mp hf
    exact ⟨hv, appendKey_eq_ok hf⟩) h₁
  have ⟨he₁, _⟩ := foldlM_appendKey (Q := fun _ => True)
    (fun _ _ _ hf => ⟨trivial, appendKey_eq_ok hf⟩) h
  exact ⟨by rw [he₁, he]; simp, hd⟩

section Safety

variable {P : Platform} {ops : Set Op} {Known : Record → Prop} {Inv : State → Prop} {s : State}

-- Calls do not depend on what the others do in between.
abbrev Keeps (Inv : State → Prop) {α : Type} (Q : α → Prop) (s : State) (x : Call α) : Prop :=
  SafeOk Does Inv (fun _ _ => True) (fun _ => Q) s x

theorem keeps_load (hn : Q none)
    (hs : ∀ s v, Inv s → s.store k = some (.record v) → Q (some v)) : Keeps Inv Q s (load k) := by
  refine .act fun s₁ _ hi r s₂ hd => ?_
  cases hd
  case getFailed => exact ⟨hi, trivial, SafeOk.throw⟩
  case get =>
    refine ⟨hi, trivial, ?_⟩
    cases hg : s₁.store.get k
    case ok v => exact .pure (hs s₁ v hi (by
      unfold KV.Typed.Store.get at hg
      split at hg <;> simp_all))
    case error err =>
      cases err
      case notFound => exact .pure hn
      all_goals exact .throw

theorem keeps_apply
    (ha : ∀ s σ, Inv s → s.store.applyMutation m = .ok (some σ) → Inv ⟨σ, e :: s.log⟩) :
    Keeps Inv (fun _ => True) s (apply m e) := by
  refine .act fun s₁ _ hi r s₂ hd => ?_
  cases hd
  case applied σ h => exact ⟨ha s₁ σ hi h, trivial, SafeOk.pure trivial⟩
  case unmatched => exact ⟨hi, trivial, SafeOk.pure trivial⟩
  case rejected err h | applyFailed message => exact ⟨hi, trivial, SafeOk.throw⟩
  case replyLost σ message h => exact ⟨ha s₁ σ hi h, trivial, SafeOk.throw⟩

theorem keeps_newKVLeaseToken : Keeps Inv (fun _ => True) s newKVLeaseToken := by
  refine .act fun s₁ _ hi r s₂ hd => ?_
  cases hd
  case newToken => exact ⟨hi, trivial, SafeOk.pure trivial⟩
  case noToken => exact ⟨hi, trivial, SafeOk.throw⟩

theorem keeps_orConflict {α : Type} {Q : α → Prop} {x : Call α}
    (h : Keeps Inv Q s x) : Keeps Inv Q s (orConflict missing x) := by
  refine .tryCatch h fun s err => ?_
  split <;> exact .throw

section Reads

variable (hk : ∀ s id r, Inv s → s.store (byIDKey id) = some (.record (.record r)) → Known r)
include hk

theorem keeps_getStoredRecord (id : Text) :
    Keeps Inv (fun o => ∀ r ∈ o, Known r ∧ r.deletionID = id) s (getStoredRecord id) := by
  refine .bind (keeps_load (Q := fun o => ∀ r ∈ o, ∀ x, r = .record x → Known x) (by simp)
    fun s v hi hv => ?_) fun s o ho => ?_
  · rintro _ ⟨⟩ x rfl
    exact hk s id x hi hv
  · rcases o with - | (r | _ | _ | _)
    case none => exact .pure (by simp)
    case some.record =>
      refine .guard fun hr => ?_
      refine .pure ?_
      rintro _ ⟨⟩
      exact ⟨ho _ rfl _ rfl, not_not.mp hr⟩
    all_goals exact .throw

theorem keeps_get (id : Text) :
    Keeps Inv (fun o => ∀ r ∈ o, Known r ∧ r.deletionID = id) s (get P id) := by
  refine .bind (keeps_getStoredRecord hk id) fun s o ho => ?_
  cases o
  case none => exact .pure (by simp)
  case some =>
    refine .bindLift fun _ _ => ?_
    exact .pure ho

theorem keeps_followLocator (kind : Kind) (resourceID : Text) (v : Value) :
    Keeps Inv (fun r => Known r ∧ r.kind = kind ∧ r.resourceID = resourceID) s
      (followLocator P kind resourceID v) := by
  unfold followLocator
  split
  case h_2 => exact .throw
  case h_1 id =>
    refine .guard fun _ => ?_
    refine .bind (keeps_get hk id) fun s o ho => ?_
    cases o
    case none => exact .throw
    case some r =>
      refine .bindLift fun _ hv => ?_
      unfold validateLocatorRecord at hv
      split at hv
      case isTrue h => exact .pure ⟨(ho r rfl).left, h⟩
      case isFalse => contradiction

theorem keeps_getByLocator (kind : Kind) (resourceID : Text) :
    Keeps Inv (fun o => ∀ r ∈ o, Known r ∧ r.kind = kind ∧ r.resourceID = resourceID) s
      (getByLocator P kind resourceID) := by
  refine .bind (keeps_load (Q := fun _ => True) trivial fun _ _ _ _ => trivial)
    fun s o _ => ?_
  cases o
  case none => exact .pure (by simp)
  case some v =>
    refine .map (keeps_followLocator hk kind resourceID v) fun s r hr => ?_
    rintro _ ⟨⟩
    exact hr

-- A loaded task and the bytes that it was decoded from.
def Loaded (P : Platform) (Known : Record → Prop) (id : Text) (x : Task × KVTaskState) : Prop :=
  Known x.fst.record ∧ x.fst.record.deletionID = id ∧
  decodeTask P x.fst.source x.fst.record x.snd = .ok x.fst

theorem keeps_loadTask (src : KVSource) (id : Text) :
    Keeps Inv (fun x => Loaded P Known id x ∧ x.fst.source = src.name) s (loadTask P src id) := by
  refine .bind (keeps_getStoredRecord hk id) fun s o ho => ?_
  cases o
  case none => exact .throw
  case some r =>
    refine .guard fun _ => ?_
    refine .bind (keeps_load (Q := fun _ => True) trivial fun _ _ _ _ => trivial)
      fun s o _ => ?_
    rcases o with - | (_ | _ | raw | _)
    case none =>
      refine .bind (keeps_getStoredRecord hk id) fun s o _ => ?_
      cases o <;> exact .throw
    case some.state =>
      refine .bindLift fun task hd => ?_
      have ⟨hr, hi⟩ := ho r rfl
      have ht := (decodeTask_eq_ok.mp hd).left
      refine .pure ⟨⟨?_, ?_, ?_⟩, ?_⟩
      · rw [ht]; exact hr
      · rw [ht]; exact hi
      · rw [ht] at hd ⊢; exact hd
      · rw [ht]; rfl
    all_goals exact .throw

end Reads

section Calls

variable (hk : ∀ s id r, Inv s → s.store (byIDKey id) = some (.record (.record r)) → Known r)
variable (ha : ∀ s m e σ, Inv s → Attempt P ops Known m e → s.store.applyMutation m = .ok (some σ) →
  Inv ⟨σ, e :: s.log⟩)

include ha in
theorem keeps_writeTask {id : Text} (hl : Loaded P Known id (before, raw))
    (hsrc : before.source = src.name) (hw : Writes before after e)
    (hr : after.record = before.record) (hf : after.markerFingerprint = before.markerFingerprint) :
    Keeps Inv (fun _ => True) s (writeTask P src after raw e) := by
  have ⟨hkn, _, hd⟩ := hl
  refine .bindLift fun t ht => ?_
  rw [hr, ← hsrc, hd] at ht
  cases ht
  refine .bindLift fun _ hv => ?_
  exact keeps_apply fun s σ hi h => ha s _ _ σ hi (.write hkn hd hw hr hf hv) h

include ha in
theorem keeps_requeueFailed {id : Text} (hl : Loaded P Known id (task, raw))
    (hsrc : task.source = src.name) (now : Time) :
    Keeps Inv (fun _ => True) s (requeueFailed P src task raw now) := by
  refine .bind (keeps_writeTask ha hl hsrc (.requeued (by simp [Task.release])) rfl rfl)
    fun s b _ => ?_
  split
  case isTrue => exact .pure trivial
  case isFalse => exact .throw

include hk ha

theorem keeps_createOrGet (ho : .createOrGet r ∈ ops) :
    Keeps Inv (fun _ => True) s (createOrGet P r) := by
  refine .bindLift fun f hf => ?_
  have ⟨_, hv, hf⟩ := Except.bind_eq_ok.mp hf
  cases hf
  refine .bind (keeps_apply fun s σ hi h => ha s _ _ σ hi (.create ho hv) h) fun s b _ => ?_
  split
  case isTrue => exact .pure trivial
  case isFalse =>
    refine .bind (keeps_load (Q := fun _ => True) trivial fun _ _ _ _ => trivial)
      fun s o _ => ?_
    cases o
    case none => exact .throw
    case some v =>
      refine .bind (keeps_followLocator hk r.kind r.resourceID v) fun s _ _ => ?_
      exact .pure trivial

section

variable (src : KVSource)
include src

theorem keeps_claim (ref : Reference) (now : Time) (lease : Int) :
    Keeps Inv (fun _ => True) s (claim P src ref now lease) := by
  refine .guard fun _ => ?_
  refine .bindLift fun _ _ => ?_
  refine .guard fun _ => ?_
  refine .bind (keeps_loadTask hk src ref.deletionID) fun s ⟨task, raw⟩ hx => ?_
  obtain ⟨hl, hsrc⟩ := hx
  dsimp only
  split
  case isTrue => exact .pure trivial
  case isFalse =>
    refine .bind keeps_newKVLeaseToken fun s token _ => ?_
    cases now.add lease
    case none => exact .throw
    case some =>
      refine .bind (keeps_writeTask ha hl hsrc ?_ rfl rfl) fun s b _ => ?_
      · rw [← show task.record.deletionID = ref.deletionID from hl.right.left]
        exact .claimed token ⟨rfl, rfl⟩
      · split <;> exact .pure trivial

theorem keeps_transition (c : Claim) (now : Time) {mutate : Task → Task}
    (hr : ∀ t, (mutate t).record = t.record)
    (hf : ∀ t, (mutate t).markerFingerprint = t.markerFingerprint)
    (hw : ∀ t, t.status = .running →
      Writes t { mutate t with updatedAt := now } (event t.record.deletionID t.leaseToken)) :
    Keeps Inv (fun _ => True) s (transition P src c now event mutate) := by
  refine .bind (keeps_loadTask hk src c.task.record.deletionID) fun s ⟨task, raw⟩ hx => ?_
  obtain ⟨hl, hsrc⟩ := hx
  have hid : task.record.deletionID = c.task.record.deletionID := hl.right.left
  refine .guard fun hold => ?_
  simp only [holdsLease, Bool.decide_and, Bool.and_eq_true, decide_eq_true_eq, not_not] at hold
  have ⟨_, hrun, htok, _⟩ := hold
  refine .bind (keeps_writeTask ha hl hsrc ?_ (hr task) (hf task)) fun s b _ => ?_
  · rw [← hid, ← htok]
    exact hw task hrun
  · split
    case isTrue => exact .pure trivial
    case isFalse => exact .throw

theorem keeps_renew (c : Claim) (now : Time) (lease : Int) :
    Keeps Inv (fun _ => True) s (renew P src c now lease) := by
  refine .guard fun _ => ?_
  cases now.add lease
  case none => exact .throw
  case some =>
    exact keeps_transition hk ha src c now (fun _ => rfl) (fun _ => rfl)
      fun t ht => .renewed ht ⟨ht, rfl⟩

theorem keeps_checkpoint (c : Claim) (phase : Text) (now : Time) :
    Keeps Inv (fun _ => True) s (checkpoint P src c phase now) := by
  refine .bindLift fun _ _ => ?_
  refine .bind (keeps_transition hk ha src c now (fun _ => rfl) (fun _ => rfl)
    fun t ht => .checkpointed ht ⟨ht, rfl⟩) fun s _ _ => ?_
  exact .pure trivial

theorem keeps_defer (c : Claim) (code message : Text) (next now : Time) :
    Keeps Inv (fun _ => True) s (defer P src c code message next now) :=
  keeps_transition hk ha src c now (fun _ => rfl) (fun _ => rfl)
    fun _ ht => .deferred ht (by simp [Task.release])

theorem keeps_fail (c : Claim) (code message : Text) (terminal : Bool) (next now : Time)
    (max : Int) :
    Keeps Inv (fun _ => True) s (fail P src c code message terminal next now max) := by
  refine keeps_transition hk ha src c now (fun _ => rfl) (fun _ => rfl) fun t ht => .failed ht ?_
  simp only [Task.release]
  split <;> simp

theorem keeps_retry (id : Text) (now : Time) :
    Keeps Inv (fun _ => True) s (retry P src id now) := by
  refine .bind (keeps_loadTask hk src id) fun s ⟨task, raw⟩ hx => ?_
  exact .guard fun _ => keeps_requeueFailed ha hx.left hx.right now

theorem keeps_retryFailed (observed : Task) (now : Time) :
    Keeps Inv (fun _ => True) s (retryFailed P src observed now) := by
  refine .bindLift fun _ _ => ?_
  refine .guard fun _ => ?_
  refine .bind (keeps_loadTask hk src observed.record.deletionID)
    fun s ⟨task, raw⟩ hx => ?_
  exact .guard fun _ => keeps_requeueFailed ha hx.left hx.right now

theorem keeps_finalizeGuarded (c : Claim) (now : Time) (conditions : List Condition)
    (entries : List Entry) (deleteKeys : List Key) (removeMembers : List Members) :
    Keeps Inv (fun _ => True) s
      (finalizeGuarded P src c now conditions entries deleteKeys removeMembers) := by
  refine .bindLift fun _ _ => ?_
  refine .bindLift fun _ _ => ?_
  refine .bindLift fun _ _ => ?_
  refine .guard fun _ => ?_
  refine .bind (keeps_orConflict (keeps_loadTask hk src c.task.record.deletionID))
    fun s ⟨task, raw⟩ hx => ?_
  obtain ⟨⟨hkn, hid, hd⟩, _⟩ := hx
  refine .guard fun hold => ?_
  simp only [holdsLease, Bool.decide_and, Bool.and_eq_true, decide_eq_true_eq, not_not] at hold
  have ⟨hfp, hrun, htok, _⟩ := hold
  refine .bind (keeps_orConflict
    (keeps_getByLocator hk c.task.record.kind c.task.record.resourceID)) fun s o ho => ?_
  refine .bindLift fun _ h => ?_
  have ⟨r, hr, hri, hrf⟩ := checkLocator_eq_ok h
  subst hr
  have ⟨hrk, hkind, hres⟩ := ho r rfl
  refine .bindLift fun keys hkeys => ?_
  refine .bindLift fun seen hentries => ?_
  refine .bindLift fun _ hmembers => ?_
  have hkeys := kvFinalizeDeleteKeys_eq_ok hkeys
  have hcommon : commonKeys P c.task.record = commonKeys P r := by
    simp [commonKeys, hri, hkind, hres]
  refine .bind (keeps_apply fun s σ hi h => ?_) fun s b _ => ?_
  · rw [← hid] at h
    rw [← hid, ← htok]
    refine ha s _ _ σ hi (.finalize hkn hd hrun hrk (hri.trans hid.symm) (hrf.trans hfp.symm)
      (fun k => ?_) hkeys.right (domain_of_checkEntries hentries)
      (domain_of_checkMembers hmembers)) h
    rw [hkeys.left, hcommon, List.mem_append]
  · split
    case isTrue => exact .pure trivial
    case isFalse => exact .throw

end

-- Every call keeps an invariant that all attempts keep.
theorem keeps_call (op : Op) (ho : op ∈ ops) : Keeps Inv (fun _ => True) s (op.call P) := by
  cases op
  case createOrGet =>
    exact .bind (keeps_createOrGet hk ha ho) fun _ _ _ => .pure trivial
  case claim src ref now lease =>
    exact .map (keeps_claim hk ha src ref now lease) fun _ _ _ => trivial
  case renew src c now lease =>
    exact .bind (keeps_renew hk ha src c now lease) fun _ _ _ => .pure trivial
  case checkpoint src c phase now =>
    exact .bind (keeps_checkpoint hk ha src c phase now) fun _ _ _ => .pure trivial
  case defer src c code message next now =>
    exact .bind (keeps_defer hk ha src c code message next now)
      fun _ _ _ => .pure trivial
  case fail src c code message terminal next now max =>
    exact .bind (keeps_fail hk ha src c code message terminal next now max)
      fun _ _ _ => .pure trivial
  case retry src id now =>
    exact .map (keeps_retry hk ha src id now) fun _ _ _ => trivial
  case retryFailed src observed now =>
    exact .map (keeps_retryFailed hk ha src observed now) fun _ _ _ => trivial
  case finalizeGuarded src c now conditions entries deletes removes =>
    exact .bind (keeps_finalizeGuarded hk ha src c now conditions entries deletes removes)
      fun _ _ _ => .pure trivial

end Calls

-- An invariant of the store and the log that every attempt keeps holds in every reachable state.
theorem Reachable.keeps (Known : Record → Prop) (Inv : State → Prop) (h : Reachable P ops c)
    (h₀ : Inv .init)
    (hk : ∀ s id r, Inv s → s.store (byIDKey id) = some (.record (.record r)) → Known r)
    (ha : ∀ s m e σ, Inv s → Attempt P ops Known m e → s.store.applyMutation m = .ok (some σ) →
      Inv ⟨σ, e :: s.log⟩) : Inv c.shared :=
  Interleaving.Reachable.invariant h₀
    (fun op _ _ => (keeps_call hk ha op.val op.property).safe) h

end Safety

end GizClaw.PendingDeletion

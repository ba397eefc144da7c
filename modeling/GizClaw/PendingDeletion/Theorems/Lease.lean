import GizClaw.PendingDeletion.Lease
import GizClaw.PendingDeletion.Sample
import GizClaw.PendingDeletion.Theorems.Mutations

-- The lease of a worker that nobody else has claimed. Its own calls get into each other's way only
-- where one of them commits between the reads and the mutation of another.

namespace GizClaw.PendingDeletion.Lease

open Interleaving
open KV.Typed (Mutation)

variable {P : Platform} {h : Holder} {fresh : Bool} {s : State} {d : Duty}

attribute [local simp] State.after Except.bind bind

-- The stored task runs under the claim, with all that the worker has committed, and the handler was
-- not cancelled for a conflict.
structure Runs (h : Holder) (s : State) (st : KVTaskState) : Prop where
  stored : s.base.store h.taskKey = some (.record (.state st))
  status : st.status = .running
  token : st.leaseToken = h.claim.task.leaseToken
  fingerprint : st.markerFingerprint = h.claim.task.markerFingerprint
  deadline : st.leaseDeadline = s.deadline
  phase : st.phase = s.phase
  kept : .conflict ∉ s.cancelled

def Held (h : Holder) (s : State) : Prop :=
  ∃ st, Runs h s st

-- No call of the worker fails with a conflict.
abbrev Clears (h : Holder) (d : Duty) {α : Type} (Q : α → Prop) (s : State) (x : Call α) : Prop :=
  SafeElse (fun a => Does h true (.run d a)) (Held h) (fun _ _ => True) (· ≠ .conflict)
    (fun _ => Q) s x

section Calls

theorem clears_load (hn : Q none) (hs : ∀ s v, Held h s → h.timely d s (.get k) → s.base.store k =
    some (.record v) → Q (some v)) : Clears h d Q s (load k) := by
  refine .act fun s₁ _ hi r s₂ hd => ?_
  obtain ⟨base, hd, htimely, _, rfl⟩ := hd
  cases hd
  case getFailed =>
    exact ⟨by simpa using hi, trivial, SafeElse.throw (by simp)⟩
  case get =>
    refine ⟨by simpa using hi, trivial, ?_⟩
    unfold KV.Typed.Store.get
    cases hk : s₁.base.store k
    case none => exact .pure hn
    case some c =>
      cases c
      case record v => exact .pure (hs s₁ v hi htimely hk)
      case members => exact .throw (by simp)

theorem clears_getStoredRecord (id : Text) :
    Clears h d (fun o => ∀ r ∈ o, r.deletionID = id) s (getStoredRecord id) := by
  refine .bind (clears_load (Q := fun _ => True) trivial fun _ _ _ _ _ => trivial)
    fun s o _ => ?_
  rcases o with - | (r | _ | _ | _)
  case none => exact .pure (by simp)
  case some.record =>
    exact .guard (by simp) fun hr => .pure (by simpa using hr)
  all_goals exact .throw (by simp)

-- Checks of a task report no conflicts.
theorem validateTaskState_ne_conflict (task : Task) :
    validateTaskState task ≠ .error .conflict := by
  unfold validateTaskState validatePhase
  split
  case isFalse => simp
  case isTrue =>
    split_ifs <;> simp

theorem validateStoredTask_ne_conflict (task : Task) :
    validateStoredTask P task ≠ .error .conflict := by
  unfold validateStoredTask validateSource
  split
  case isTrue => simp
  case isFalse =>
    split
    case isTrue => simp
    case isFalse => exact validateTaskState_ne_conflict task

theorem decodeTask_ne_conflict (source : Text) (r : Record) (raw : KVTaskState) :
    decodeTask P source r raw ≠ .error .conflict := by
  unfold decodeTask
  have hne := validateStoredTask_ne_conflict (P := P) (raw.task source r)
  cases hv : validateStoredTask P (raw.task source r)
  case ok => simp [pure, Except.pure]
  case error =>
    rw [hv] at hne
    simpa using hne

-- What a call has loaded was stored then, before its deadline.
structure Loaded (P : Platform) (h : Holder) (d : Duty) (task : Task)
    (raw : KVTaskState) : Prop where
  decoded : task = raw.task h.source.name task.record
  deletionID : task.record.deletionID = h.claim.task.record.deletionID
  held : holdsLease h.claim task d.now

theorem clears_loadTask : Clears h d (fun x => Loaded P h d x.fst x.snd) s
    (loadTask P h.source h.claim.task.record.deletionID) := by
  refine .bind (clears_getStoredRecord _) fun s o ho => ?_
  cases o
  case none => exact .throw (by simp)
  case some r =>
    refine .guard (by simp) fun _ => ?_
    refine .bind (clears_load (Q := fun o => ∀ raw, o = some (.state raw) →
      holdsLease h.claim (raw.task h.source.name r) d.now) (by simp) fun s v hs htimely hv
        raw hraw => ?_)
      fun s o hheld => ?_
    · have ⟨st, hst⟩ := hs
      obtain rfl : v = .state raw := Option.some.inj hraw
      cases hv.symm.trans hst.stored
      have hlt : d.now < raw.leaseDeadline := by
        simpa [Holder.timely, Holder.taskKey, hv] using htimely
      simp [holdsLease, KVTaskState.task, hst.fingerprint, hst.status, hst.token, hlt]
    · rcases o with - | (_ | _ | raw | _)
      case none =>
        refine .bind (clears_getStoredRecord _) fun s o _ => ?_
        cases o <;> exact .throw (by simp)
      case some.state raw =>
        refine .bindLift (fun e he => ?_) fun task hd => ?_
        · rintro rfl
          exact decodeTask_ne_conflict _ _ _ he
        · obtain ⟨rfl, _⟩ := decodeTask_eq_ok.mp hd
          exact .pure ⟨rfl, ho r rfl, hheld raw rfl⟩
      all_goals exact .throw (by simp)

-- The rewritten task is the one that the duty is for.
structure Fulfils (d : Duty) (mutate : Task → Task) : Prop where
  record : ∀ t, (mutate t).record = t.record
  status : ∀ t, (mutate t).status = t.status
  token : ∀ t, (mutate t).leaseToken = t.leaseToken
  fingerprint : ∀ t, (mutate t).markerFingerprint = t.markerFingerprint
  deadline : ∀ t s, t.leaseDeadline = s.deadline → (mutate t).leaseDeadline =
    (d.effect s).deadline
  phase : ∀ t s, t.phase = s.phase → (mutate t).phase = (d.effect s).phase

variable {task : Task} {raw : KVTaskState} {mutate : Task → Task}

-- A mutation that goes through has found the task as it was loaded.
theorem Held.write (hs : Held h s) (hl : Loaded P h d task raw) (hf : Fulfils d mutate)
    (hm : s.base.store.applyMutation
      (writeMutation P previous { mutate task with updatedAt := now } raw) = .ok (some σ)) :
    Held h (s.after d ⟨σ, e :: s.base.log⟩) := by
  have ⟨st, hst⟩ := hs
  have hkey : kvTaskKey (mutate task).record.deletionID = h.taskKey := by
    rw [hf.record, hl.deletionID]
    rfl
  have hraw : st = raw := by
    have hcondition := write_condition hm
    rw [hkey, hst.stored] at hcondition
    cases hcondition
    rfl
  subst hraw
  have hstored : σ h.taskKey =
      some (.record (.state (encodeKVTaskState { mutate task with updatedAt := now }))) := by
    rw [← hkey, write_lookup hm not_isIndex_kvTaskKey]
    exact if_pos rfl
  have hafter : s.after d ⟨σ, e :: s.base.log⟩ =
      { d.effect s with base := ⟨σ, e :: s.base.log⟩ } := by
    simp
  have hdecoded := hl.decoded
  rw [hafter]
  have hkept : (d.effect s).cancelled = s.cancelled := by
    cases d <;> rfl
  refine ⟨_, hstored, ?_, ?_, ?_, ?_, ?_, hkept ▸ hst.kept⟩
  · exact (hf.status task).trans (hdecoded ▸ hst.status)
  · exact (hf.token task).trans (hdecoded ▸ hst.token)
  · exact (hf.fingerprint task).trans (hdecoded ▸ hst.fingerprint)
  · exact hf.deadline task s (hdecoded ▸ hst.deadline)
  · exact hf.phase task s (hdecoded ▸ hst.phase)

theorem clears_writeTask (hl : Loaded P h d task raw) (hf : Fulfils d mutate)
    (now : Time) (e : Event) :
    Clears h d (· = true) s (writeTask P h.source { mutate task with updatedAt := now } raw e) := by
  refine .bindLift (fun err he => ?_) fun previous _ => ?_
  · rintro rfl
    exact decodeTask_ne_conflict _ _ _ he
  refine .bindLift (fun err he => ?_) fun _ _ => ?_
  · rintro rfl
    exact validateStoredTask_ne_conflict _ he
  refine .act fun s₁ _ hi r s₂ hd => ?_
  obtain ⟨base, hd, _, hfresh, rfl⟩ := hd
  cases hd
  case applied hm => exact ⟨hi.write hl hf hm, trivial, SafeElse.pure rfl⟩
  case unmatched hm =>
    refine absurd hm (KV.Typed.Store.applyMutation_ne_none fun c hc => ?_)
    simpa using List.all_eq_true.mp (hfresh rfl) c hc
  case rejected hm | applyFailed =>
    exact ⟨by simpa using hi, trivial, SafeElse.throw (by simp)⟩
  case replyLost hm => exact ⟨hi.write hl hf hm, trivial, SafeElse.throw (by simp)⟩

theorem clears_transition (hf : Fulfils d mutate) (event : Text → Text → Event) :
    Clears h d (fun _ => True) s (transition P h.source h.claim d.now event mutate) := by
  refine .bind clears_loadTask fun s ⟨task, raw⟩ hl => ?_
  dsimp only
  rw [if_neg (not_not.mpr hl.held)]
  refine .bind (clears_writeTask hl hf _ _) fun s b hb => ?_
  rw [if_pos hb]
  exact .pure trivial

theorem clears_call : Clears h d (fun _ => True) s (d.call P h) := by
  cases d
  case renew now leaseDuration =>
    change Clears h _ _ s (PendingDeletion.renew P h.source h.claim now leaseDuration)
    refine .guard (by simp) fun _ => ?_
    cases hadd : now.add leaseDuration
    case none => exact .throw (by simp)
    case some =>
      refine clears_transition (d := .renew now leaseDuration) ?_ _
      refine ⟨fun _ => rfl, fun _ => rfl, fun _ => rfl, fun _ => rfl, fun t s _ => ?_,
        fun t s hp => hp⟩
      simp [Duty.effect, hadd]
  case checkpoint phase now =>
    change Clears h _ _ s (PendingDeletion.checkpoint P h.source h.claim phase now >>=
      fun _ => pure ())
    refine .bind (Q := Any) ?_ fun s _ _ => .pure trivial
    refine .bindLift (fun e he => ?_) fun _ _ => ?_
    · unfold validatePhase at he
      split at he
      case isTrue => nomatch he
      case isFalse =>
        cases he
        simp
    refine .bind (clears_transition (d := .checkpoint phase now) ?_ _) fun s _ _ =>
      SafeElse.pure trivial
    exact ⟨fun _ => rfl, fun _ => rfl, fun _ => rfl, fun _ => rfl, fun t s ht => ht,
      fun _ _ _ => rfl⟩

end Calls

theorem safe_program {op : Op} : Safe (Does h true) (Held h) Any
    (fun _ r => r ≠ .error .conflict) s (op.program P h) := by
  cases op
  case duty d =>
    refine .bind (.rename (f := Act.run d) clears_call) fun s r hr => ?_
    unfold Duty.settle
    split
    case h_1 =>
      rintro s₁ - ⟨st, hst⟩ - s₂ rfl
      refine ⟨⟨st, hst.stored, hst.status, hst.token, hst.fingerprint, hst.deadline, hst.phase,
        ?_⟩, trivial, ?_⟩
      · exact List.not_mem_cons_of_ne_of_not_mem (Ne.symm hr) hst.kept
      · exact fun he => hr (Except.error.inj he)
    case h_2 =>
      rintro rfl
      exact hr rfl
  case elsewhere =>
    rintro s₁ - ⟨st, hst⟩ - s₂ ⟨hstore, rfl⟩
    refine ⟨⟨st, ?_, hst.status, hst.token, hst.fingerprint, hst.deadline, hst.phase,
      hst.kept⟩, trivial, ?_⟩
    · exact hstore.trans hst.stored
    · exact fun he => nomatch he

-- Where no call commits between the reads and the mutation of another, every call finds its lease,
-- and all that was committed is there.
theorem lease_never_lost {s₀ : State} {c : Config Act Reply (Except Err Unit) State}
    (h₀ : Held h s₀) (hr : Reachable P h true s₀ c) :
    Held h c.shared ∧ ∀ i r, c.result i = some r → r ≠ .error .conflict :=
  Interleaving.Reachable.results h₀ (fun _ _ _ => safe_program) hr

section Samples

def perform (h : Holder) (fresh : Bool) (choice : Choice) :
    (a : Act) → State → Option (Reply a × State)
  | .run d a, s =>
    if h.timely d s a && (!fresh || unaltered s a) then
      (PendingDeletion.perform choice a s.base).map fun (r, base) => (r, s.after d base)
    else
      none
  | .cancel err, s => some ((), { s with cancelled := err :: s.cancelled })
  | .elsewhere store, s =>
    if store h.taskKey = s.base.store h.taskKey then
      some ((), { s with base := { s.base with store := store } })
    else
      none

theorem perform_does (ch : Choice) (a : Act) (s : State) (r : Reply a) (s' : State)
    (hp : perform h fresh ch a s = some (r, s')) : Does h fresh a s r s' := by
  cases a
  case run =>
    simp only [perform, Option.ite_none_right_eq_some, Bool.and_eq_true, Bool.or_eq_true,
      Bool.not_eq_true']
      at hp
    obtain ⟨⟨htimely, hfresh⟩, hp⟩ := hp
    have ⟨⟨r', base⟩, hbase, he⟩ := Option.map_eq_some_iff.mp hp
    cases he
    refine ⟨base, does_of_perform _ _ _ _ _ hbase, htimely, fun hf => ?_, rfl⟩
    exact hfresh.resolve_left fun hn => nomatch hn.symm.trans hf
  case cancel =>
    cases hp
    rfl
  case elsewhere =>
    simp only [perform, Option.ite_none_right_eq_some] at hp
    obtain ⟨hstore, hp⟩ := hp
    cases hp
    exact ⟨hstore, rfl⟩

-- A worker that has claimed a task until time 11.
def Holder.sample : Holder where
  source := ⟨ascii "kv", [.workspace]⟩
  claim := ⟨{ firstTask .sample (List.replicate 64 48) with
    source := ascii "kv", status := .running, leaseToken := [1], leaseDeadline :=
      11, updatedAt := 1 }⟩

def claiming : List (Turn PendingDeletion.Op Choice) :=
  let ref : Reference := ⟨ascii "kv", Record.sample.deletionID, List.replicate 64 48⟩
  [.call 0 (.createOrGet .sample), .act 0 .reply, .call 0 (.claim Holder.sample.source ref 1 10),
    .act 0 .reply, .act 0 .reply, .act 0 (.token [1]), .act 0 .reply]

def State.sample : State where
  base := (((Config.init .init).run PendingDeletion.perform
    (fun op => (op.call .sample).run) claiming).map (·.shared)).getD .init
  deadline := 11
  phase := ascii "validate"
  cancelled := []

def State.stored (s : State) : Option (Time × Text) :=
  match s.base.store Holder.sample.taskKey with
  | some (.record (.state st)) => some (st.leaseDeadline, st.phase)
  | _ => none

theorem held_sample : Held .sample .sample := by
  refine ⟨encodeKVTaskState Holder.sample.claim.task, ?_, rfl, rfl, rfl, rfl, rfl, List.not_mem_nil⟩
  decide +kernel

-- The handler saves its phase between the reads of a renewal and its mutation.
def overlapping : List (Turn Op Choice) :=
  [.call 0 (.duty (.renew 2 20)), .act 0 .reply, .act 0 .reply,
    .call 1 (.duty (.checkpoint (ascii "finalize") 3)), .act 1 .reply, .act 1 .reply, .act 1 .reply,
    .act 0 .reply, .act 0 .reply]

theorem renewal_lost_to_checkpoint : Held .sample .sample ∧
    ∃ c, Reachable .sample .sample false .sample c ∧ c.result 0 = some (.error .conflict) ∧
      c.shared.cancelled = [.conflict] ∧ c.shared.stored = some (11, ascii "finalize") := by
  refine ⟨held_sample, ?_⟩
  have hrun : ∃ c, Reachable .sample .sample false .sample c ∧
      (((c.result 0).any fun r => match r with
        | .error e => e = .conflict
        | .ok _ => false), c.shared.cancelled, c.shared.stored) =
      (true, [.conflict], some (11, ascii "finalize")) :=
    Interleaving.Reachable.exists_run (t := overlapping) perform_does (by decide +kernel)
  have ⟨c, hc, he⟩ := hrun
  simp only [Prod.mk.injEq] at he
  obtain ⟨hresult, hcancelled, hstored⟩ := he
  match hr : c.result 0 with
  | none => simp [hr] at hresult
  | some (.ok _) => simp [hr] at hresult
  | some (.error e) =>
    have hconflict : e = .conflict := by simpa [hr] using hresult
    exact ⟨c, hc, hconflict ▸ hr, hcancelled, hstored⟩

-- One call comes after the other.
def alternating : List (Turn Op Choice) :=
  [.call 0 (.duty (.renew 2 20)), .act 0 .reply, .act 0 .reply, .act 0 .reply,
    .call 1 (.duty (.checkpoint (ascii "finalize") 12)), .act 1 .reply, .act 1 .reply,
      .act 1 .reply]

theorem lease_never_lost_alternating : ∃ c, Reachable .sample .sample true .sample c ∧
    c.shared.stored = some (22, ascii "finalize") ∧ Held .sample c.shared ∧
      ∀ i r, c.result i = some r → r ≠ .error .conflict := by
  have hrun : ∃ c, Reachable .sample .sample true .sample c ∧
      c.shared.stored = some (22, ascii "finalize") :=
    Interleaving.Reachable.exists_run (t := alternating) perform_does (by decide +kernel)
  have ⟨c, hc, hstored⟩ := hrun
  exact ⟨c, hc, hstored, lease_never_lost held_sample hc⟩

end Samples

end GizClaw.PendingDeletion.Lease

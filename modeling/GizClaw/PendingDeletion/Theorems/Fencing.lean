import GizClaw.PendingDeletion.Sample
import GizClaw.PendingDeletion.Theorems.Mutations

-- Leases fence: what is done under a lease happens while its claim is the latest one of the task
-- and has not come to an end, however the clocks of the workers go.

namespace GizClaw.PendingDeletion

open Interleaving
open KV.Typed (Mutation)

section Log

-- The deletion ID and the token of the claim that an effect was made with.
def Event.lease : Event → Option (Text × Text)
  | renewed id t | checkpointed id t | deferred id t | failed id t | finalized id t => some (id, t)
  | created _ | claimed .. | requeued _ => none

-- The token of the claim that the event ends.
def Event.ends : Event → Option Text
  | deferred _ t | failed _ t | finalized _ t => some t
  | created _ | claimed .. | renewed .. | checkpointed .. | requeued _ => none

def Event.token : Event → Option Text
  | claimed _ t => some t
  | _ => none

-- After such an event earlier claims of the task are over.
def Event.Supersedes (id : Text) : Event → Prop
  | claimed i _ | deferred i _ | failed i _ | finalized i _ => i = id
  | created _ | renewed .. | checkpointed .. | requeued _ => False

-- The latest claim of the task has the token, and no end of a claim was committed since.
def Current (log : List Event) (id token : Text) : Prop :=
  ∃ later earlier, log = later ++ .claimed id token :: earlier ∧ ∀ e ∈ later, ¬e.Supersedes id

-- Every effect in the log was made under the claim that was current then.
def Fenced : List Event → Prop
  | [] => True
  | e :: log => (∀ id t, e.lease = some (id, t) → Current log id t) ∧ Fenced log

variable {log log' : List Event} {e e' : Event} {id id' t : Text}

theorem Current.cons (h : Current log id t) (he : ¬e.Supersedes id) : Current (e :: log) id t := by
  have ⟨later, earlier, hl, hn⟩ := h
  exact ⟨e :: later, earlier, by rw [hl]; rfl, by simpa using ⟨he, hn⟩⟩

theorem Current.mem (h : Current log id t) : .claimed id t ∈ log := by
  have ⟨later, earlier, hl, _⟩ := h
  simp [hl]

theorem current_claimed : Current (.claimed id t :: log) id t :=
  ⟨[], log, rfl, by simp⟩

theorem Fenced.split (h : Fenced (log' ++ e :: log)) :
    (∀ id t, e.lease = some (id, t) → Current log id t) ∧ Fenced log := by
  induction log'
  case nil => exact h
  case cons hi => exact hi h.right

theorem Event.lease_of_ends (h : e.ends = some t) :
    ∃ id, e.lease = some (id, t) ∧ e.Supersedes id := by
  cases e <;> simp [ends] at h <;> subst h <;> exact ⟨_, rfl, rfl⟩

theorem mem_tokens (h : .claimed id t ∈ log) : t ∈ log.filterMap Event.token :=
  List.mem_filterMap.mpr ⟨_, h, rfl⟩

theorem claimed_inj (hd : (log.filterMap Event.token).Nodup) (h : .claimed id t ∈ log)
    (h' : .claimed id' t ∈ log) : id = id' := by
  induction log
  case nil => simp at h
  case cons e log hi =>
    have hd' : (log.filterMap Event.token).Nodup :=
      hd.sublist ((List.sublist_cons_self e log).filterMap _)
    rcases List.mem_cons.mp h with rfl | hm <;> rcases List.mem_cons.mp h' with he | hm'
    · cases he; rfl
    · exact absurd (mem_tokens hm') (List.nodup_cons.mp hd).left
    · subst he; exact absurd (mem_tokens hm) (List.nodup_cons.mp hd).left
    · exact hi hd' hm hm'

-- Once a claim has ended, no event before the end has ended it.
theorem Fenced.ends_once (h : Fenced log) (hd : (log.filterMap Event.token).Nodup) (t : Text) :
    (log.filter (·.ends = some t)).length ≤ 1 := by
  induction log
  case nil => simp
  case cons e log hi =>
    have hd' : (log.filterMap Event.token).Nodup :=
      hd.sublist ((List.sublist_cons_self e log).filterMap _)
    by_cases he : e.ends = some t
    case neg => simpa [he] using hi h.right hd'
    case pos =>
      have ⟨id, hl, _⟩ := Event.lease_of_ends he
      have ⟨later, earlier, hlog, hn⟩ := h.left id t hl
      suffices hno : log.filter (·.ends = some t) = [] by simp [he, hno]
      rw [List.filter_eq_nil_iff]
      intro e' he' hends
      simp only [decide_eq_true_eq] at hends
      have ⟨id', hl', hs'⟩ := Event.lease_of_ends hends
      have ⟨l₁, l₂, hsplit⟩ := List.append_of_mem he'
      have hc := (hsplit ▸ h.right).split.left id' t hl'
      have hid : id = id' := claimed_inj hd' (h.left id t hl).mem (by simp [hsplit, hc.mem])
      subst hid
      rw [hlog, List.mem_append, List.mem_cons] at he'
      rcases he' with hm | rfl | hm
      case inl => exact hn e' hm hs'
      case inr.inl => simp [Event.ends] at hends
      case inr.inr =>
        -- The event would come before the only claim with its token.
        have ⟨l₃, l₄, hsplit'⟩ := List.append_of_mem hm
        have hf : Fenced ((later ++ .claimed id t :: l₃) ++ e' :: l₄) := by
          have := h.right
          rw [hlog, hsplit'] at this
          simpa using this
        have hm' : .claimed id t ∈ l₄ := (hf.split.left id t hl').mem
        rw [hlog, List.filterMap_append, hsplit'] at hd'
        have hnd : (t :: (l₃ ++ e' :: l₄).filterMap Event.token).Nodup := hd'.of_append_right
        refine (List.nodup_cons.mp hnd).left (List.mem_filterMap.mpr ⟨.claimed id t, ?_, rfl⟩)
        simp [hm']

end Log

section Invariant

variable {P : Platform} {ops : Set Op} {s : State} {σ : Store} {m : Mutation Key Value Text}
  {e : Event}

-- The lease of a running task is the one of the current claim.
structure Leased (s : State) : Prop where
  running : ∀ id st, s.store (kvTaskKey id) = some (.record (.state st)) → st.status = .running →
    Current s.log id st.leaseToken
  fenced : Fenced s.log

theorem Leased.attempt (h : Leased s) (ha : Attempt P ops (fun _ => True) m e)
    (hm : s.store.applyMutation m = .ok (some σ)) : Leased ⟨σ, e :: s.log⟩ := by
  cases ha
  case create r ho hv =>
    refine ⟨fun id st hs hr => ?_, by simp [Event.lease], h.fenced⟩
    by_cases hid : id = r.deletionID
    case pos =>
      simp only [create_lookup hm, not_isIndex_kvTaskKey, not_false_eq_true, hid, ↓reduceIte,
        Option.some.injEq, KV.Typed.Content.record.injEq, Value.state.injEq] at hs
      subst hs
      simp [encodeKVTaskState, firstTask] at hr
    case neg =>
      simp only [create_lookup hm, not_isIndex_kvTaskKey, not_false_eq_true, kvTaskKey_inj, hid,
        kvTaskKey_ne_byLocatorKey, byIDKey_ne_kvTaskKey.symm, ↓reduceIte] at hs
      exact (h.running id st hs hr).cons (by simp [Event.Supersedes])
  case write before after raw hk hd hr hf hv hw =>
    have hc := write_condition hm
    obtain ⟨he, _⟩ := decodeTask_eq_ok.mp hd
    have hcur : before.status = .running →
        Current s.log before.record.deletionID before.leaseToken := by
      intro hrun
      rw [he] at hrun ⊢
      exact h.running _ _ (by rw [hr, he] at hc; exact hc) hrun
    refine ⟨fun id st hs hrun => ?_, fun id t hl => ?_, h.fenced⟩
    · change σ (kvTaskKey id) = _ at hs
      simp only [write_lookup hm not_isIndex_kvTaskKey, kvTaskKey_inj, hr] at hs
      split at hs
      case isTrue hid =>
        simp only [Option.some.injEq, KV.Typed.Content.record.injEq, Value.state.injEq] at hs
        subst hid hs
        change Current _ _ after.leaseToken
        cases hw
        case claimed ha => rw [← ha.right]; exact current_claimed
        case renewed hb ha | checkpointed hb ha =>
          rw [ha.right]; exact (hcur hb).cons (by simp [Event.Supersedes])
        case deferred hb ha | failed hb ha | requeued ha => exact absurd hrun ha
      case isFalse hid =>
        refine (h.running id st hs hrun).cons ?_
        cases hw <;> simp [Event.Supersedes, Ne.symm hid]
    · cases hw <;> cases hl
      all_goals exact hcur ‹_›
  case finalize task raw located conditions entries keys deleteKeys removeMembers hk hd hs hl hi
      hf hc hkeys hentries hmembers =>
    obtain ⟨he, _⟩ := decodeTask_eq_ok.mp hd
    have hcond := finalize_condition hm
    refine ⟨fun id st hst hrun => ?_, fun id t hl => ?_, h.fenced⟩
    · change σ (kvTaskKey id) = _ at hst
      rw [finalize_lookup hm hc hkeys hentries hmembers inRoot_kvTaskKey
        not_isIndex_kvTaskKey] at hst
      obtain ⟨hid, hst⟩ := Option.ite_none_left_eq_some.mp hst
      refine (h.running id st hst hrun).cons ?_
      simp only [commonKeys, List.mem_cons, kvTaskKey_inj, hi] at hid
      rintro rfl
      simp at hid
    · cases hl
      rw [he] at hcond hs ⊢
      exact h.running _ _ hcond hs

theorem reachable_leased (h : Reachable P ops c) : Leased c.shared :=
  h.keeps (fun _ => True) Leased ⟨fun _ _ h => (nomatch h), trivial⟩ (fun _ _ _ _ _ => trivial)
    fun _ _ _ _ hi ha hm => hi.attempt ha hm

end Invariant

section Actions

variable {P : Platform} {src : KVSource} {l : Text × Text}

-- The claim that a call of a worker is made with.
def Op.lease : Op → Option (Text × Text)
  | renew _ c .. | checkpoint _ c .. | defer _ c .. | fail _ c .. | finalizeGuarded _ c .. =>
    some (c.task.record.deletionID, c.task.leaseToken)
  | createOrGet _ | claim .. | retry .. | retryFailed .. => none

-- The action writes nothing, or it writes in the name of the lease.
def Act.Under (l : Text × Text) : Act → Prop
  | .get _ | .newToken => True
  | .apply _ e => e.lease = some l

theorem load_under : AllOk (Act.Under l) (load k) := by
  refine ⟨trivial, fun r => ?_⟩
  rcases r with err | v
  case error => cases err <;> trivial
  case ok => trivial

theorem apply_under (h : e.lease = some l) : AllOk (Act.Under l) (apply m e) := by
  refine ⟨h, fun r => ?_⟩
  cases r <;> trivial

theorem getStoredRecord_under {id : Text} : AllOk (Act.Under l) (getStoredRecord id) := by
  refine .bind load_under fun v => ?_
  split
  case h_1 => exact .pure
  case h_2 => split <;> first | exact .throw | exact .pure
  case h_3 => exact .throw

theorem loadTask_under {id : Text} : AllOk (Act.Under l) (loadTask P src id) := by
  refine .bind getStoredRecord_under fun r => ?_
  split
  case h_1 => exact .throw
  case h_2 =>
    refine .guard fun _ => ?_
    refine .bind load_under fun v => ?_
    split
    case h_1 => exact .bind .lift fun _ => .pure
    case h_2 => exact .throw
    case h_3 =>
      refine .bind getStoredRecord_under fun r => ?_
      split <;> exact .throw

theorem getByLocator_under : AllOk (Act.Under l) (getByLocator P kind rid) := by
  refine .bind load_under fun v => ?_
  split
  case h_1 => exact .pure
  case h_2 =>
    refine .map ?_
    unfold followLocator
    split
    case h_2 => exact .throw
    case h_1 =>
      refine .guard fun _ => ?_
      refine .bind (.bind getStoredRecord_under fun r => ?_) fun r => ?_
      · split
        case h_1 => exact .pure
        case h_2 => exact .bind .lift fun _ => .pure
      · split
        case h_1 => exact .throw
        case h_2 => exact .bind .lift fun _ => .pure

theorem transition_under (h : (event c.task.record.deletionID c.task.leaseToken).lease = some l) :
    AllOk (Act.Under l) (transition P src c now event mutate) := by
  refine .bind loadTask_under fun ⟨task, raw⟩ => ?_
  refine .guard fun _ => ?_
  refine .bind (.bind .lift fun _ => .bind .lift fun _ => apply_under h) fun b => ?_
  split <;> first | exact .pure | exact .throw

theorem orConflict_under {α : Type} {x : Call α} (h : AllOk (Act.Under l) x) :
    AllOk (Act.Under l) (orConflict err x) := by
  refine .tryCatch h fun e => ?_
  split <;> exact .throw

-- Whatever a worker does with a claim is done in the name of its lease.
theorem call_under {op : Op} (h : op.lease = some l) : (op.call P).run.All (Act.Under l) := by
  cases op <;> cases h
  case renew src c now d =>
    refine AllOk.bind (x := renew P src c now d) ?_ fun _ => .pure
    refine .guard fun _ => ?_
    split
    case h_1 => exact .throw
    case h_2 => exact transition_under rfl
  case checkpoint =>
    exact AllOk.bind (.bind .lift fun _ => .bind (transition_under rfl) fun _ => .pure)
      fun _ => .pure
  case defer src c code message next now =>
    exact AllOk.bind (x := defer P src c code message next now) (transition_under rfl)
      fun _ => .pure
  case fail src c code message terminal next now max =>
    exact AllOk.bind (x := fail P src c code message terminal next now max) (transition_under rfl)
      fun _ => .pure
  case finalizeGuarded src c now conditions entries deletes removes =>
    refine AllOk.bind (x := finalizeGuarded P src c now conditions entries deletes removes) ?_
      fun _ => .pure
    refine .bind .lift fun _ => .bind .lift fun _ => .bind .lift fun _ => ?_
    refine .guard fun _ => ?_
    refine .bind (orConflict_under loadTask_under) fun ⟨task, raw⟩ => ?_
    refine .guard fun _ => ?_
    refine .bind (orConflict_under getByLocator_under) fun _ => ?_
    refine .bind .lift fun _ => .bind .lift fun _ => .bind .lift fun _ =>
      .bind .lift fun _ => ?_
    refine .bind (apply_under rfl) fun b => ?_
    split <;> first | exact .pure | exact .throw

end Actions

-- Claims are told apart by their tokens. What is left of a call with a claim that is not current
-- does not touch the store at all.
theorem reachable_fenced {P : Platform} {ops : Set Op}
    {c : Config Act Reply (Except Err Answer) State} (h : Reachable P ops c)
    (hd : (c.shared.log.filterMap Event.token).Nodup) :
    (∀ later e earlier id t, c.shared.log = later ++ e :: earlier → e.lease = some (id, t) →
      Current earlier id t) ∧
    (∀ (op : Op) id t i a next r s, op.lease = some (id, t) →
      (op.call P).run.Rest (.act a next) → c.programs i = some (.act a next) →
      Does a c.shared r s → ¬Current c.shared.log id t → s = c.shared) ∧
    (∀ t, (c.shared.log.filter (·.ends = some t)).length ≤ 1) := by
  have hl := reachable_leased h
  refine ⟨fun later e earlier id t he => ?_, fun op id t i a next r s ho hr hp hs hn => ?_,
    hl.fenced.ends_once hd⟩
  · exact (he ▸ hl.fenced).split.left id t
  · have hu := ((call_under ho).rest hr).left
    have hl' := (reachable_leased (h.step (.act i hp hs))).fenced
    cases hs
    case applied hm | replyLost hm => exact absurd (hl'.left id t hu) hn
    all_goals rfl

-- A second worker claims the task after the lease of the first one.
def reclaim : List (Turn (Set.univ : Set Op) Choice) :=
  let src : KVSource := ⟨ascii "kv", [.workspace]⟩
  let ref : Reference := ⟨ascii "kv", Record.sample.deletionID, List.replicate 64 48⟩
  [.call 0 ⟨.createOrGet .sample, trivial⟩, .act 0 .reply,
    .call 0 ⟨.claim src ref 1 1, trivial⟩, .act 0 .reply, .act 0 .reply, .act 0 (.token [1]),
    .act 0 .reply, .call 1 ⟨.claim src ref 5 1, trivial⟩, .act 1 .reply, .act 1 .reply,
    .act 1 (.token [2]), .act 1 .reply]

theorem reachable_fenced_reclaimed :
    ∃ c, Reachable .sample Set.univ c ∧
      c.shared.log = [.claimed Record.sample.deletionID [2], .claimed Record.sample.deletionID [1],
        .created Record.sample.deletionID] ∧
      ∀ (op : Op) i a next r s, op.lease = some (Record.sample.deletionID, [1]) →
        (op.call .sample).run.Rest (.act a next) → c.programs i = some (.act a next) →
        Does a c.shared r s → s = c.shared := by
  have h : ∃ c, Reachable .sample Set.univ c ∧ c.shared.log =
      [.claimed Record.sample.deletionID [2], .claimed Record.sample.deletionID [1],
        .created Record.sample.deletionID] :=
    Interleaving.Reachable.exists_run (t := reclaim) does_of_perform (by decide +kernel)
  have ⟨c, hc, hl⟩ := h
  refine ⟨c, hc, hl, fun op i a next r s ho hr hp hd => ?_⟩
  refine (reachable_fenced hc (by rw [hl]; decide)).right.left op _ _ i a next r s ho hr hp hd ?_
  rintro ⟨later, earlier, he, hn⟩
  rw [hl] at he
  cases later
  case nil => exact absurd (List.cons.inj he).left (by decide)
  case cons e later =>
    refine hn e List.mem_cons_self ?_
    rw [← (List.cons.inj he).left]
    rfl

end GizClaw.PendingDeletion

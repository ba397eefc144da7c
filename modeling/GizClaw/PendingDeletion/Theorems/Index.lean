import GizClaw.PendingDeletion.Sample
import GizClaw.PendingDeletion.Theorems.Mutations

-- The rows of a deletion come and go together, and the index lists exactly the stored tasks. The
-- mutations compare the bytes of the task only, so everything else must follow from them: equal
-- bytes have equal fingerprints, and equal fingerprints are those of equal markers.

namespace GizClaw.PendingDeletion

open Interleaving

variable {P : Platform} {ops : Set Op} {S : Set Record} {σ σ' : Store} {s : State} {k : Key}
  {x id : Text} {r : Record} {task task' : Task} {raw st : KVTaskState}

-- The task is what the by-id record and the task state of its deletion ID make.
structure Stored (σ : Store) (task : Task) : Prop where
  record : σ (byIDKey task.record.deletionID) = some (.record (.record task.record))
  state : σ (kvTaskKey task.record.deletionID) = some (.record (.state (encodeKVTaskState task)))

structure Consistent (P : Platform) (σ : Store) : Prop where
  rows : ∀ id,
    (∃ r st, r.deletionID = id ∧ σ (byIDKey id) = some (.record (.record r)) ∧
      σ (byLocatorKey P r.kind r.resourceID) = some (.record (.locator id)) ∧
      σ (kvTaskKey id) = some (.record (.state st))) ∨
    (σ (byIDKey id) = none ∧ σ (kvTaskKey id) = none ∧
      ∀ kind resourceID, σ (byLocatorKey P kind resourceID) ≠ some (.record (.locator id)))
  kinds : ∀ k, IsIndex k → σ.OfKind true k
  index : ∀ k, IsIndex k → ∀ x, x ∈ σ.members true k ↔ ∃ task, Stored σ task ∧
    Lists P (some task) k x

-- What was stored is also valid.
structure Sound (P : Platform) (σ : Store) : Prop extends Consistent P σ where
  valid : ∀ task, Stored σ task → task.record.validate P = .ok () ∧
    task.markerFingerprint = P.fingerprint task.record ∧ validateTaskState task = .ok ()

section Members

theorem lists_congr (hr : task.record = task'.record)
    (he : encodeKVTaskState task = encodeKVTaskState task') :
    Lists P (some task) = Lists P (some task') := by
  cases task
  cases task'
  obtain ⟨rfl, rfl, rfl, rfl, rfl, rfl, rfl, rfl, rfl, rfl⟩ := he
  subst hr
  rfl

theorem Lists.exists_eq (h : Lists P (some task) k x) : ∃ t, x = kvIndexMember P t task := by
  have ⟨g, hg, _, hx⟩ := h
  simp only [kvTaskIndexes, List.mem_cons] at hg
  rcases hg with rfl | hg
  case inl => exact ⟨_, by simpa using hx⟩
  case inr =>
    split at hg
    case isFalse => simp at hg
    case isTrue =>
      simp only [List.mem_singleton] at hg
      subst hg
      exact ⟨_, by simpa using hx⟩

-- The time and the fingerprint have fixed lengths, so a member tells the deletion ID.
theorem deletionID_eq_of_lists (h : Lists P (some task) k x) (h' : Lists P (some task') k x)
    (hf : task.markerFingerprint.length = 64) (hf' : task'.markerFingerprint.length = 64) :
    task.record.deletionID = task'.record.deletionID := by
  have ⟨t, ht⟩ := h.exists_eq
  have ⟨t', ht'⟩ := h'.exists_eq
  have he := ht.symm.trans ht'
  simp only [kvIndexMember, List.append_assoc, List.cons_append] at he
  have ⟨_, he⟩ := List.append_inj he (by rw [P.format_length, P.format_length])
  simp only [List.cons.injEq, true_and] at he
  exact (List.append_inj' he (by simp [hf, hf'])).left

end Members

section Validation

theorem parseUUID_newSHA1 : parseUUID (P.newSHA1 kind rid) = true := by
  have h := P.newSHA1_form kind rid
  unfold parseUUID
  rw [if_pos h.left, h.right]

theorem Record.validate_eq_ok (h : r.validate P = .ok ()) :
    parseUUID r.deletionID = true ∧ r.deletedAt ≠ 0 := by
  have ⟨_, _, h⟩ := Except.bind_eq_ok.mp h
  have ⟨_, _, h⟩ := Except.bind_eq_ok.mp h
  split_ifs at h with hid ht
  refine ⟨?_, ht⟩
  by_cases he : r.deletionID = P.newSHA1 r.kind r.resourceID
  case pos => rw [he]; exact parseUUID_newSHA1
  case neg => simpa [he] using hid

theorem validateTaskState_encode :
    validateTaskState ((encodeKVTaskState task).task source r) = validateTaskState task :=
  rfl

theorem validateTaskState_firstTask (h : r.validate P = .ok ()) :
    validateTaskState (firstTask r f) = .ok () := by
  have ht := (Record.validate_eq_ok h).right
  have hp : validatePhase (ascii "validate") = .ok () := by decide
  simp [validateTaskState, firstTask, hp, ht]

theorem validateTaskState_of_stored (h : validateStoredTask P task = .ok ()) :
    validateTaskState task = .ok () := by
  have ⟨_, _, h⟩ := Except.bind_eq_ok.mp h
  have ⟨_, h⟩ := Except.ite_error_eq_ok.mp h
  exact h

end Validation

section Rows

-- What is known of a marker that was created.
def Created (P : Platform) (S : Set Record) (r : Record) : Prop :=
  r ∈ S ∧ r.validate P = .ok ()

theorem Created.storedFingerprint (h : Created P S r) : storedFingerprint P r =
    P.fingerprint r := by
  have hf : fingerprint P r = .ok (P.fingerprint r) := by
    unfold fingerprint
    rw [h.right]
    rfl
  unfold PendingDeletion.storedFingerprint
  rw [hf]

-- The rows of one deletion ID.
inductive Row (P : Platform) (S : Set Record) (σ : Store) (id : Text) : Prop
  | absent (hi : σ (byIDKey id) = none) (ht : σ (kvTaskKey id) = none)
    (hl : ∀ kind rid, σ (byLocatorKey P kind rid) ≠ some (.record (.locator id)))
  | present {r : Record} {st : KVTaskState} (hr : Created P S r) (hid : r.deletionID = id)
    (hi : σ (byIDKey id) = some (.record (.record r)))
    (ht : σ (kvTaskKey id) = some (.record (.state st)))
    (hl : ∀ kind rid, σ (byLocatorKey P kind rid) = some (.record (.locator id)) ↔
      kind = r.kind ∧ rid = r.resourceID)
    (hf : st.markerFingerprint = P.fingerprint r) (hv : validateTaskState (st.task [] r) = .ok ())

structure Inv (P : Platform) (S : Set Record) (σ : Store) : Prop where
  rows : ∀ id, Row P S σ id
  kinds : ∀ k, IsIndex k → σ.OfKind true k
  index : ∀ k, IsIndex k → ∀ x, x ∈ σ.members true k ↔ ∃ task, Stored σ task ∧
    Lists P (some task) k x

theorem Inv.consistent (h : Inv P S σ) : Consistent P σ where
  kinds := h.kinds
  index := h.index
  rows id := by
    cases h.rows id
    case absent hi ht hl => exact .inr ⟨hi, ht, hl⟩
    case present r st hr hid hi ht hl _ _ =>
      exact .inl ⟨r, st, hid, hi, (hl _ _).mpr ⟨rfl, rfl⟩, ht⟩

theorem Inv.sound (h : Inv P S σ) : Sound P σ where
  toConsistent := h.consistent
  valid task hs := by
    cases h.rows task.record.deletionID
    case absent hi _ _ => cases hi ▸ hs.record
    case present hr hid hi ht hl hf hv =>
      have hrec := hs.record
      have hst := hs.state
      rw [hi] at hrec
      rw [ht] at hst
      simp only [Option.some.injEq, KV.Typed.Content.record.injEq, Value.record.injEq,
        Value.state.injEq] at hrec hst
      subst hrec hst
      exact ⟨hr.right, hf, hv⟩

theorem inv_empty : Inv P S fun _ => none where
  rows _ := .absent rfl rfl (by simp)
  kinds _ _ _ := by simp
  index k _ x := by
    constructor
    case mp => simp [KV.Typed.Store.members]
    case mpr => rintro ⟨task, ht, _⟩; cases ht.record

theorem Inv.created (h : Inv P S σ) (hr : σ (byIDKey id) = some (.record (.record r))) :
    Created P S r := by
  cases h.rows id
  case absent hi _ _ => simp [hi] at hr
  case present hr' _ hi _ _ _ _ =>
    rw [hi] at hr
    cases hr
    exact hr'

-- Other deletions keep their rows.
theorem Row.of_eq (h : Row P S σ id) (hi : σ' (byIDKey id) = σ (byIDKey id))
    (ht : σ' (kvTaskKey id) = σ (kvTaskKey id))
    (hl : ∀ kind rid, σ' (byLocatorKey P kind rid) = some (.record (.locator id)) ↔
      σ (byLocatorKey P kind rid) = some (.record (.locator id))) : Row P S σ' id := by
  cases h
  case absent hi' ht' hl' =>
    exact .absent (hi.trans hi') (ht.trans ht') fun kind rid => by
      rw [ne_eq, hl kind rid]
      exact hl' kind rid
  case present hr hid hi' ht' hl' hf hv =>
    exact .present hr hid (hi.trans hi') (ht.trans ht')
      (fun kind rid => (hl kind rid).trans (hl' kind rid)) hf hv

end Rows

section Listed

-- What the tasks of the other deletions and the one of this deletion have in the index.
def Others (P : Platform) (σ : Store) (id : Text) (k : Key) (x : Text) : Prop :=
  ∃ task, Stored σ task ∧ task.record.deletionID ≠ id ∧ Lists P (some task) k x

def Own (P : Platform) (σ : Store) (id : Text) (k : Key) (x : Text) : Prop :=
  ∃ task, Stored σ task ∧ task.record.deletionID = id ∧ Lists P (some task) k x

theorem exists_stored_iff (id : Text) :
    (∃ task, Stored σ task ∧ Lists P (some task) k x) ↔ Others P σ id k x ∨ Own P σ id k x := by
  constructor
  case mp =>
    rintro ⟨task, hs, hl⟩
    by_cases h : task.record.deletionID = id
    case pos => exact .inr ⟨task, hs, h, hl⟩
    case neg => exact .inl ⟨task, hs, h, hl⟩
  case mpr =>
    rintro (⟨task, hs, _, hl⟩ | ⟨task, hs, _, hl⟩) <;> exact ⟨task, hs, hl⟩

theorem others_congr (hi : ∀ id' ≠ id, σ' (byIDKey id') = σ (byIDKey id'))
    (ht : ∀ id' ≠ id, σ' (kvTaskKey id') = σ (kvTaskKey id')) :
    Others P σ' id k x ↔ Others P σ id k x := by
  refine exists_congr fun task => ?_
  rw [and_left_comm, and_left_comm (b := task.record.deletionID ≠ id)]
  refine and_congr_right fun hne => and_congr_left fun _ => ?_
  constructor <;> exact fun hs => ⟨hi _ hne ▸ hs.record, ht _ hne ▸ hs.state⟩

theorem not_own (hi : σ (byIDKey id) = none) : ¬Own P σ id k x := by
  rintro ⟨task, hs, rfl, _⟩
  cases hi ▸ hs.record

theorem own_iff (hi : σ (byIDKey task.record.deletionID) = some (.record (.record task.record)))
    (ht : σ (kvTaskKey task.record.deletionID) = some (.record (.state (encodeKVTaskState task)))) :
    Own P σ task.record.deletionID k x ↔ Lists P (some task) k x := by
  constructor
  case mpr => exact fun hl => ⟨task, ⟨hi, ht⟩, rfl, hl⟩
  case mp =>
    rintro ⟨task', hs, hid, hl⟩
    have hr := hs.record
    have hst := hs.state
    rw [hid, hi] at hr
    rw [hid, ht] at hst
    simp only [Option.some.injEq, KV.Typed.Content.record.injEq, Value.record.injEq,
      Value.state.injEq] at hr hst
    rwa [lists_congr hr hst]

-- No other task lists what a task lists.
theorem Inv.not_others (h : Inv P S σ) (hf : task.markerFingerprint.length = 64)
    (hl : Lists P (some task) k x) : ¬Others P σ task.record.deletionID k x := by
  rintro ⟨task', hs, hne, hl'⟩
  refine hne (deletionID_eq_of_lists hl' hl ?_ hf)
  cases h.rows task'.record.deletionID
  case absent hi _ _ => cases hi ▸ hs.record
  case present r st _ _ _ ht _ hf' _ =>
    have he := hs.state
    rw [ht] at he
    simp only [Option.some.injEq, KV.Typed.Content.record.injEq, Value.state.injEq] at he
    rw [he] at hf'
    rw [show task'.markerFingerprint = P.fingerprint r from hf']
    exact (P.hex r).left

end Listed

section Attempts

theorem Inv.create (h : Inv P S σ) (hr : Created P S r)
    (hm : σ.applyMutation (createMutation P r (firstTask r (P.fingerprint r))) = .ok (some σ')) :
    Inv P S σ' := by
  have ⟨hcl, hci, hct⟩ := create_conditions hm
  have hi : ∀ id, σ' (byIDKey id) = if id = r.deletionID then some (.record (.record r))
      else σ (byIDKey id) := by simp [create_lookup hm]
  have ht : ∀ id, σ' (kvTaskKey id) = if id = r.deletionID then
      some (.record (.state (encodeKVTaskState (firstTask r (P.fingerprint r)))))
      else σ (kvTaskKey id) := by
    intro id
    simp [create_lookup hm, byIDKey_ne_kvTaskKey.symm]
  have hl : ∀ kind rid, σ' (byLocatorKey P kind rid) = if kind = r.kind ∧ rid = r.resourceID then
      some (.record (.locator r.deletionID)) else σ (byLocatorKey P kind rid) := by
    intro kind rid
    simp [create_lookup hm, kvTaskKey_ne_byLocatorKey.symm, byIDKey_ne_byLocatorKey.symm]
  refine ⟨fun id => ?_, fun k hk => ?_, fun k hk x => ?_⟩
  · by_cases hid : r.deletionID = id
    case pos =>
      subst hid
      refine .present hr rfl (by simp [hi]) (by rw [ht, if_pos rfl]) (fun kind rid => ?_) rfl
        (validateTaskState_encode.trans (validateTaskState_firstTask hr.right))
      rw [hl]
      split
      case isTrue hlk => simp [hlk]
      case isFalse hlk =>
        rw [iff_false_right hlk]
        cases h.rows r.deletionID
        case absent hn => exact hn kind rid
        case present hi' _ _ _ _ => simp [hci] at hi'
    case neg =>
      refine (h.rows id).of_eq (by simp [hi, Ne.symm hid]) (by simp [ht, Ne.symm hid])
        fun kind rid => ?_
      rw [hl]
      split
      case isFalse => rfl
      case isTrue hlk =>
        rw [hlk.left, hlk.right, hcl]
        simp [hid]
  · exact KV.Typed.Store.ofKind_applyMutation hm (create_spares hk) (h.kinds k hk)
  · let task := firstTask r (P.fingerprint r)
    have hown : Own P σ' task.record.deletionID k x ↔ Lists P (some task) k x :=
      own_iff ((hi _).trans (if_pos rfl)) ((ht _).trans (if_pos rfl))
    have hoth : Others P σ' r.deletionID k x ↔ Others P σ r.deletionID k x :=
      others_congr (fun id hne => by simp [hi, hne]) (fun id hne => by simp [ht, hne])
    rw [create_members hm hk, h.index k hk, exists_stored_iff r.deletionID,
      exists_stored_iff r.deletionID, or_iff_left (not_own hci), hoth]
    exact or_congr_right hown.symm

-- The marker behind a task that was read is the stored one, once the state has been compared.
theorem Inv.stored (h : Inv P S σ) (hd : S.InjOn P.fingerprint) (hk : Created P S task.record)
    (hdec : decodeTask P task.source task.record raw = .ok task)
    (hc : σ (kvTaskKey task.record.deletionID) = some (.record (.state raw))) :
    Stored σ task ∧ task.markerFingerprint = P.fingerprint task.record ∧
    (∀ kind rid, σ (byLocatorKey P kind rid) = some (.record (.locator task.record.deletionID)) ↔
      kind = task.record.kind ∧ rid = task.record.resourceID) := by
  have ⟨he, hv⟩ := decodeTask_eq_ok.mp hdec
  have hraw : raw = encodeKVTaskState task := by rw [he]; rfl
  have hfp : task.markerFingerprint = P.fingerprint task.record := by
    rw [← he] at hv
    have ⟨_, _, hv⟩ := Except.bind_eq_ok.mp hv
    have ⟨hn, hv⟩ := Except.ite_error_eq_ok.mp hv
    rw [← not_ne_iff.mp hn, hk.storedFingerprint]
  cases h.rows task.record.deletionID
  case absent ht _ => simp [ht] at hc
  case present r st hr _ hi ht hl hf _ =>
    rw [ht] at hc
    cases hc
    have hrt : r = task.record :=
      hd hr.left hk.left (by rw [← hf, hraw, ← hfp]; rfl)
    subst hrt
    exact ⟨⟨hi, hraw ▸ ht⟩, hfp, hl⟩

theorem Inv.write (h : Inv P S σ) (hd : S.InjOn P.fingerprint) (hk : Created P S before.record)
    (hdec : decodeTask P before.source before.record raw = .ok before)
    (hr : after.record = before.record) (hf : after.markerFingerprint = before.markerFingerprint)
    (hv : validateStoredTask P after = .ok ())
    (hm : σ.applyMutation (writeMutation P before after raw) = .ok (some σ')) : Inv P S σ' := by
  have hc := write_condition hm
  rw [hr] at hc
  have ⟨hs, hfp, hloc⟩ := h.stored hd hk hdec hc
  have hi : ∀ id, σ' (byIDKey id) = σ (byIDKey id) := by simp [write_lookup hm]
  have ht : ∀ id, σ' (kvTaskKey id) = if id = before.record.deletionID then
      some (.record (.state (encodeKVTaskState after))) else σ (kvTaskKey id) := by
    simp [write_lookup hm, hr]
  have hl : ∀ kind rid, σ' (byLocatorKey P kind rid) = σ (byLocatorKey P kind rid) := by
    simp [write_lookup hm, kvTaskKey_ne_byLocatorKey.symm]
  refine ⟨fun id => ?_, fun k hk => ?_, fun k hik x => ?_⟩
  · by_cases hid : id = before.record.deletionID
    case pos =>
      subst hid
      exact .present hk rfl ((hi _).trans hs.record) (by rw [ht, if_pos rfl])
        (fun kind rid => by rw [hl]; exact hloc kind rid) (hf.trans hfp)
        (validateTaskState_encode.trans (validateTaskState_of_stored hv))
    case neg =>
      exact (h.rows id).of_eq (hi id) (by simp [ht, hid]) fun kind rid => by rw [hl]
  · exact KV.Typed.Store.ofKind_applyMutation hm (write_spares hk) (h.kinds k hk)
  · have hold := own_iff (P := P) (k := k) (x := x) hs.record hs.state
    have hnew : Own P σ' after.record.deletionID k x ↔ Lists P (some after) k x :=
      own_iff (by rw [hi, hr, hs.record]) (by rw [hr, ht, if_pos rfl])
    have hdis : Lists P (some before) k x → ¬Others P σ before.record.deletionID k x :=
      h.not_others (by rw [hfp]; exact (P.hex _).left)
    have hoth : Others P σ' before.record.deletionID k x ↔
        Others P σ before.record.deletionID k x :=
      others_congr (fun id _ => hi id) (fun id hne => by simp [ht, hne])
    rw [hr] at hnew
    rw [write_members hm hik, h.index k hik, exists_stored_iff before.record.deletionID,
      exists_stored_iff before.record.deletionID, hold, hnew, hoth]
    tauto

theorem Inv.finalize {keys deleteKeys : List Key} (h : Inv P S σ) (hd : S.InjOn P.fingerprint)
    (hk : Created P S task.record) (hdec : decodeTask P task.source task.record raw = .ok task)
    (hl : Created P S located) (hf : storedFingerprint P located = task.markerFingerprint)
    (hc : ∀ k, k ∈ deleteKeys ↔ k ∈ keys ∨ k ∈ commonKeys P located) (hkeys : ∀ k ∈ keys, Domain k)
    (hentries : ∀ e ∈ entries, Domain e.key) (hmembers : ∀ g ∈ removeMembers, Domain g.key)
    (hm : σ.applyMutation (finalizeMutation P task raw task.record.deletionID conditions entries
      deleteKeys removeMembers) = .ok (some σ')) : Inv P S σ' := by
  have ⟨hs, hfp, hloc⟩ := h.stored hd hk hdec (finalize_condition hm)
  -- The marker that the locator led to is the stored one too.
  obtain rfl : located = task.record :=
    hd hl.left hk.left (by rw [← hl.storedFingerprint, hf, hfp])
  have hcommon : ∀ k ∈ commonKeys P task.record, ¬IsIndex k := by simp [commonKeys]
  have hi : ∀ id, σ' (byIDKey id) = if id = task.record.deletionID then none
      else σ (byIDKey id) := by
    intro id
    simp [finalize_lookup hm hc hkeys hentries hmembers, commonKeys]
  have ht : ∀ id, σ' (kvTaskKey id) = if id = task.record.deletionID then none
      else σ (kvTaskKey id) := by
    intro id
    simp [finalize_lookup hm hc hkeys hentries hmembers, commonKeys, byIDKey_ne_kvTaskKey.symm]
  have hl' : ∀ kind rid, σ' (byLocatorKey P kind rid) =
      if kind = task.record.kind ∧ rid = task.record.resourceID then none
      else σ (byLocatorKey P kind rid) := by
    intro kind rid
    simp [finalize_lookup hm hc hkeys hentries hmembers, commonKeys,
      byIDKey_ne_byLocatorKey.symm, kvTaskKey_ne_byLocatorKey.symm]
  refine ⟨fun id => ?_, fun k hk => ?_, fun k hik x => ?_⟩
  · by_cases hid : id = task.record.deletionID
    case pos =>
      subst hid
      refine .absent (by simp [hi]) (by simp [ht]) fun kind rid => ?_
      rw [hl']
      split
      case isTrue => simp
      case isFalse => rwa [ne_eq, hloc kind rid]
    case neg =>
      refine (h.rows id).of_eq (by simp [hi, hid]) (by simp [ht, hid]) fun kind rid => ?_
      rw [hl']
      split
      case isFalse => rfl
      case isTrue hlk =>
        rw [(hloc kind rid).mpr hlk]
        simp [Ne.symm hid]
  · exact KV.Typed.Store.ofKind_applyMutation hm
      (finalize_spares hc hkeys hentries hmembers hcommon hk) (h.kinds k hk)
  · have hold := own_iff (P := P) (k := k) (x := x) hs.record hs.state
    have hdis : Lists P (some task) k x → ¬Others P σ task.record.deletionID k x :=
      h.not_others (by rw [hfp]; exact (P.hex _).left)
    have hnew : ¬Own P σ' task.record.deletionID k x := not_own (by simp [hi])
    have hoth : Others P σ' task.record.deletionID k x ↔ Others P σ task.record.deletionID k x :=
      others_congr (fun id hne => by simp [hi, hne]) (fun id hne => by simp [ht, hne])
    rw [finalize_members hm hc hkeys hentries hmembers hcommon hik, h.index k hik,
      exists_stored_iff task.record.deletionID, exists_stored_iff task.record.deletionID, hold,
      or_iff_left hnew, hoth]
    tauto

end Attempts

theorem reachable_inv {c : Config Act Reply (Except Err Answer) State}
    (hd : Set.InjOn P.fingerprint {r | .createOrGet r ∈ ops}) (h : Reachable P ops c) :
    Inv P {r | .createOrGet r ∈ ops} c.shared.store := by
  refine h.keeps (Created P _) (fun s => Inv P {r | .createOrGet r ∈ ops} s.store) inv_empty
    (fun s id r hi hr => hi.created hr) fun s m e σ hi ha hm => ?_
  cases ha
  case create ho hv => exact hi.create ⟨ho, hv⟩ hm
  case write hk hdec hr hf hv _ =>
    exact hi.write hd hk hdec hr hf hv hm
  case finalize hk hdec _ hl _ hf hc hkeys hentries hmembers =>
    exact hi.finalize hd hk hdec hl hf hc hkeys hentries hmembers hm

end GizClaw.PendingDeletion

import GizClaw.Lib.Machine
import GizClaw.KV.Theorems.TiKV

-- The expiry index of the TiKV store. Its rows may outlive the records that they were written for,
-- so the purge has to compare deadlines before it removes anything.

namespace GizClaw.KV.TiKV

variable {o : Option Options} {now : Time} {db db' : DB} {tx : Tx Bytes Cell}
variable {e e' : EncKey} {d d' : Int}

attribute [local simp] Tx.delete

section IndexKeys

theorem uint64_inj (h : Admitted d) (h' : Admitted d') : uint64 d = uint64 d' ↔ d = d' := by
  unfold Admitted at h h'
  unfold uint64
  omega

theorem indexDeadline_expiryKey (h : Admitted d) : indexDeadline (expiryKey e.bytes d) = d := by
  have hu : Bytes.ofBigEndian (Bytes.bigEndian 8 (uint64 d)) = uint64 d := by
    rw [Bytes.ofBigEndian_bigEndian, Nat.mod_eq_of_lt (uint64_lt d)]
  unfold Admitted at h
  simp only [indexDeadline, expiryKey, List.append_assoc, List.drop_left]
  rw [List.take_left' (by simp), hu]
  unfold int64 uint64
  rw [Int.bmod_eq_of_le] <;> omega

theorem indexedKey_expiryKey (o : Option Options) (e : EncKey) (d : Int) :
    indexedKey o (expiryKey e.bytes d) = e.bytes := by
  rw [indexedKey, Options.encode_decode, expiryKey, List.drop_left' (by simp)]

-- An index row whose deadline has passed.
def Due (nano : Int) (k : Bytes) : Prop :=
  ∃ (e : EncKey) (d : Int), Admitted d ∧ d ≤ nano ∧ k = expiryKey e.bytes d

-- The range of the scan ends behind the current time.
theorem candidates_due (h : Inv db) (hn : 0 ≤ unixNano now)
    (hk : k ∈ candidates now limit db) : Due (unixNano now) k := by
  have ⟨hm, hge, hlt⟩ := (Rows.mem_scan ..).mp (List.mem_of_mem_take hk)
  have hlt : k < expiryPrefix ++ Bytes.bigEndian 8 (uint64 (unixNano now)) ∨
      expiryPrefix ++ Bytes.bigEndian 8 (uint64 (unixNano now)) <+: k := by
    cases hs : Bytes.prefixEnd (expiryPrefix ++ Bytes.bigEndian 8 (uint64 (unixNano now)))
    case none => exact Bytes.lt_or_isPrefix_of_prefixEnd hs k
    case some s => exact (Bytes.lt_prefixEnd_iff hs).mp (hlt s hs)
  have hp : expiryPrefix <+: k := by
    rcases hlt with hlt | hlt
    case inl => exact Bytes.isPrefix_of_lt_append hge hlt
    case inr => exact (List.prefix_append ..).trans hlt
  obtain ⟨e, d, hd, rfl⟩ := h.index k hm hp
  refine ⟨e, d, hd, ?_, rfl⟩
  have hu : uint64 d ≤ uint64 (unixNano now) := by
    simp only [expiryKey, List.append_assoc, Bytes.append_lt_append_iff,
      List.prefix_append_right_inj] at hlt
    rcases hlt with hlt | hlt
    case inl =>
      have hlt := Bytes.lt_of_append_lt (by simp) hlt
      exact ((Bytes.bigEndian_lt_iff (uint64_lt _) (uint64_lt _)).mp hlt).le
    case inr =>
      have heq := List.prefix_of_prefix_length_le hlt (List.prefix_append ..) (by simp)
      have heq := heq.eq_of_length (by simp)
      exact (Bytes.bigEndian_injective (uint64_lt _) (uint64_lt _) heq).ge
  unfold Admitted at hd
  unfold uint64 at hu
  omega

end IndexKeys

-- What a purge may do to record rows.
def Purged (nano : Int) (db db' : DB) : Prop :=
  ∀ e : EncKey, db'.lookup (recordKey e.bytes) = db.lookup (recordKey e.bytes) ∨
    db'.lookup (recordKey e.bytes) = none ∧
      ∃ v, db.lookup (recordKey e.bytes) = some (.value v) ∧ v.deadline ≠ 0 ∧ v.deadline ≤ nano

namespace Purged

variable {nano : Int}

theorem refl : Purged nano db db :=
  fun _ => .inl rfl

theorem trans (h₁ : Purged nano db₁ db₂) (h₂ : Purged nano db₂ db₃) : Purged nano db₁ db₃ := by
  intro e
  rcases h₂ e with h₂ | ⟨h₂, v, hv⟩
  case inl => exact h₂ ▸ h₁ e
  case inr =>
    rcases h₁ e with h₁ | ⟨h₁, _⟩
    case inl => exact .inr ⟨h₂, v, h₁ ▸ hv⟩
    case inr => rw [h₁] at hv; simp at hv

end Purged

-- The deadline of a record row, which is zero for anything else.
def rowDeadline : Option Cell → Int
  | some (.value v) => v.deadline
  | _ => 0

theorem deadline_classify (nano : Int) (row : Option Cell) :
    (classify nano row).deadline = rowDeadline row := by
  rcases row with _ | (v | _)
  case some.value => rw [classify]; split <;> rfl
  all_goals rfl

theorem exists_of_rowDeadline (h : rowDeadline row ≠ 0) :
    ∃ v, row = some (.value v) ∧ v.deadline = rowDeadline row := by
  unfold rowDeadline at h ⊢
  split at h
  case h_1 v => exact ⟨v, rfl, rfl⟩
  case h_2 => contradiction

-- The transaction on an index row that is there.
theorem run_purgeTxn (h : Inv tx.view) (now : Time) (ha : Admitted d)
    (hi : expiryKey e.bytes d ∈ tx.view) :
    (purgeTxn o now (expiryKey e.bytes d)).run tx = .ok ((),
      if rowDeadline (tx.view.lookup (recordKey e.bytes)) = d ∧ d ≤ unixNano now
        then (tx.delete (recordKey e.bytes)).delete (expiryKey e.bytes d)
        else tx.delete (expiryKey e.bytes d)) := by
  have hlen : ¬(expiryKey e.bytes d).length < expiryPrefix.length + 8 := by
    simp [expiryKey]
  obtain ⟨cell, hc⟩ := Finmap.mem_iff.mp hi
  simp only [purgeTxn, hlen, ↓reduceIte, Prog.run, hc, Prog.run_bind, indexedKey_expiryKey,
    indexDeadline_expiryKey ha, run_getTxn h, Except.bind_ok, deadline_classify]
  split <;> rfl

theorem run_purgeTxn_of_absent (now : Time) (hi : expiryKey e.bytes d ∉ tx.view) :
    (purgeTxn o now (expiryKey e.bytes d)).run tx = .ok ((), tx) := by
  have hlen : ¬(expiryKey e.bytes d).length < expiryPrefix.length + 8 := by
    simp [expiryKey]
  have hc := Finmap.lookup_eq_none.mpr hi
  simp only [purgeTxn, hlen, ↓reduceIte, Prog.run, hc]
  rfl

-- The index row is stale, and its removal leaves the row of the current deadline alone.
theorem purge_stale (h : Inv tx.view) (ha : Admitted d)
    (hne : rowDeadline (tx.view.lookup (recordKey e.bytes)) ≠ d) :
    Keeps now tx (tx.delete (expiryKey e.bytes d)) ∧
    Purged (unixNano now) tx.view (tx.delete (expiryKey e.bytes d)).view := by
  have c : Changes e tx.view (tx.delete (expiryKey e.bytes d)).view :=
    Changes.refl.erase owned_expiryKey
  have hrec (e' : EncKey) : (tx.delete (expiryKey e.bytes d)).view.lookup (recordKey e'.bytes) =
      tx.view.lookup (recordKey e'.bytes) := by
    simp
  have hmem (e' : EncKey) :
      memberSet (tx.delete (expiryKey e.bytes d)).view e' = memberSet tx.view e' := by
    simp
  refine ⟨⟨c.inv h ?inv, ?alike⟩, fun e' => .inl (hrec e')⟩
  case inv =>
    rw [hrec, hmem]
    refine (h.fits e).reindex fun v hv hz hv' hix => ?_
    simp only [Indexed, Tx.delete, Finmap.mem_erase, ne_eq, expiryKey_inj, true_and]
    rw [hv] at hne
    exact ⟨(uint64_inj hv' ha).not.mpr hne, hix⟩
  case alike =>
    refine congrArg (Logical.live · (unixNano now)) (funext fun e' => ?_)
    rw [logical, logical, hrec, hmem]

-- The record has the deadline of the index row, and so it goes with it.
theorem purge_expired (h : Inv tx.view) (hv : tx.view.lookup (recordKey e.bytes) = some (.value v))
    (hz : v.deadline ≠ 0) (hd : v.deadline ≤ unixNano now) :
    let tx' := (tx.delete (recordKey e.bytes)).delete (expiryKey e.bytes v.deadline)
    Keeps now tx tx' ∧ Purged (unixNano now) tx.view tx'.view := by
  intro tx'
  have hfits := h.fits e
  rw [hv] at hfits
  have c : Changes e tx.view tx'.view :=
    (Changes.refl.erase owned_recordKey).erase owned_expiryKey
  have hrec : tx'.view.lookup (recordKey e.bytes) = none := by simp [tx']
  have hmem : memberSet tx'.view e = ∅ := by
    simpa [tx'] using hfits.members_of_deadline hz
  have hlive : (logical tx.view).live (unixNano now) e = none := by
    simp [live_eq h, hv, classify, hz, hd, Found.toVal]
  refine ⟨⟨c.inv h ?inv, funext fun e' => ?alike⟩, fun e' => ?purged⟩
  case inv =>
    rw [hrec, hmem]
    exact .free
  case alike =>
    rw [c.logical_eq, hrec, Option.bind_none, Logical.live_update]
    split
    case isTrue he => rw [he, hlive, Option.filter_none]
    case isFalse => rfl
  case purged =>
    by_cases he : e' = e
    case pos => exact .inr (he ▸ ⟨hrec, v, hv, hz, hd⟩)
    case neg => exact .inl (c.lookup_recordKey he)

theorem purgeTxn_spec (h : Inv tx.view) (o : Option Options) (ha : Admitted d)
    (hd : d ≤ unixNano now) :
    ∃ tx', (purgeTxn o now (expiryKey e.bytes d)).run tx = .ok ((), tx') ∧ Keeps now tx tx' ∧
      Purged (unixNano now) tx.view tx'.view := by
  by_cases hi : expiryKey e.bytes d ∈ tx.view
  case neg => exact ⟨tx, run_purgeTxn_of_absent now hi, ⟨h, rfl⟩, .refl⟩
  case pos =>
    refine ⟨_, run_purgeTxn h now ha hi, ?_⟩
    split
    case isFalse hne => exact purge_stale h ha fun he => hne ⟨he, hd⟩
    case isTrue heq =>
      have hz : rowDeadline (tx.view.lookup (recordKey e.bytes)) ≠ 0 := by
        rw [heq.left]
        exact ha.left.ne'
      have ⟨v, hv, hvd⟩ := exists_of_rowDeadline hz
      rw [heq.left] at hvd
      rw [← hvd]
      exact purge_expired h hv (by rw [hvd]; exact ha.left.ne') (hvd ▸ hd)

theorem purgeAllTxn_spec (h : Inv tx.view) (o : Option Options)
    (hk : ∀ k ∈ ks, Due (unixNano now) k) :
    ∃ tx', (purgeAllTxn o now ks).run tx = .ok ((), tx') ∧ Keeps now tx tx' ∧
      Purged (unixNano now) tx.view tx'.view := by
  induction ks generalizing tx
  case nil => exact ⟨tx, rfl, ⟨h, rfl⟩, .refl⟩
  case cons ks hi =>
    simp only [List.mem_cons, forall_eq_or_imp] at hk
    obtain ⟨⟨e, d, ha, hd, rfl⟩, hk⟩ := hk
    have ⟨tx₁, h₁, hk₁, hp₁⟩ := purgeTxn_spec (e := e) h o ha hd
    have ⟨tx₂, h₂, hk₂, hp₂⟩ := hi hk₁.left hk
    refine ⟨tx₂, ?_, ⟨hk₂.left, hk₂.right.trans hk₁.right⟩, hp₁.trans hp₂⟩
    change (purgeTxn o now (expiryKey e.bytes d) >>= fun _ => purgeAllTxn o now ks).run tx = _
    rw [Prog.run_bind, h₁, Except.bind_ok, h₂]

theorem purgeCandidates_spec (h : Inv db) (o : Option Options)
    (hk : ∀ k ∈ ks, Due (unixNano now) k) :
    let db' := (purgeCandidates o now ks db).snd
    Inv db' ∧ Logical.Alike (unixNano now) (logical db') (logical db) ∧
      Purged (unixNano now) db db' := by
  unfold purgeCandidates
  split
  case isTrue => exact ⟨h, rfl, .refl⟩
  case isFalse =>
    have hi : Inv (Tx.start db).view := h
    have ⟨tx, hr, hkeeps, hp⟩ := purgeAllTxn_spec hi o hk
    rw [update_ok hr]
    exact ⟨hkeeps.left, hkeeps.right, hp⟩

section Histories

-- A purge scans the index on a snapshot. Its transaction comes later, and other calls may come in
-- between.
inductive Event (o : Option Options) where
  | request (r : Request o)
  | compareAndMutate (guard : Key o) (expected : Bytes) (entries : List (Entry o))
    (keys : List (Key o))
  | scan (limit : Int)
  | purge (i : Nat)

structure Sched where
  db : DB
  scans : List (List Bytes)

def Sched.step (event : Time × Event o) (s : Sched) : Sched :=
  match event.snd with
  | .request r => { s with db := (request event.fst r s.db).snd }
  | .compareAndMutate guard expected entries keys =>
    { s with db := (compareAndMutate event.fst guard expected entries keys s.db).snd }
  | .scan limit =>
    match checkLimit limit with
    | .error _ => s
    | .ok _ => { s with scans := s.scans ++ [candidates event.fst limit.toNat s.db] }
  | .purge i =>
    match s.scans[i]? with
    | none => s
    | some ks => { s with db := (purgeCandidates o event.fst ks s.db).snd }

theorem batchMutate_inv (h : Inv db) (now : Time) (entries : List (Entry o)) (keys : List (Key o)) :
    Inv (batchMutate now entries keys db).snd := by
  have hi : Inv (Tx.start db).view := h
  exact update_inv h fun a tx hr hm => inv_of_ends (batchTxn_ends hi rfl entries keys) hr hm

theorem mutationTxn_inv (h : Inv db) (now : Time) (m : Mutation o) :
    Inv (update id (mutationTxn now m) db).snd := by
  have hi : Inv (Tx.start db).view := h
  exact update_inv h fun a tx hr hm => inv_of_ends (mutationTxn_ends hi rfl m) hr hm

theorem createIfAllAbsent_inv (h : Inv db) (now : Time) (guards entries : List (Entry o)) :
    Inv (createIfAllAbsent now guards entries db).snd := by
  unfold createIfAllAbsent
  split
  case isTrue => exact h
  case isFalse =>
    have hi : Inv (Tx.start db).view := h
    refine update_inv h fun a tx hr hm => ?_
    exact inv_of_createEnds (createTxn_ends hi rfl guards entries) hr hm

theorem call_inv (h : Inv db) (now : Time) (w : Write o) : Inv (call now w db).snd := by
  unfold call
  cases w
  case set key value | delete key => exact batchMutate_inv h now _ _
  case batchMutate entries keys => exact batchMutate_inv h now entries keys
  case applyMutation m =>
    dsimp only [applyMutation]
    split
    case h_1 => exact h
    case h_2 => exact mutationTxn_inv h now m

theorem request_inv (h : Inv db) (now : Time) (r : Request o) : Inv (request now r db).snd := by
  cases r
  case write w => exact call_inv h now w
  case createIfAllAbsent guards entries => exact createIfAllAbsent_inv h now guards entries

theorem compareAndMutate_inv (h : Inv db) (now : Time) (guard : Key o) (expected : Bytes)
    (entries : List (Entry o)) (keys : List (Key o)) :
    Inv (compareAndMutate now guard expected entries keys db).snd := by
  rw [compareAndMutate, compareTxn_eq]
  exact mutationTxn_inv h now _

-- What a scan has found stays due.
structure Sched.Sound (now : Time) (s : Sched) : Prop where
  inv : Inv s.db
  due : ∀ ks ∈ s.scans, ∀ k ∈ ks, Due now k

namespace Sched.Sound

variable {s : Sched}

theorem mono (h : s.Sound t) (ht : t ≤ t') : s.Sound t' where
  inv := h.inv
  due ks hks k hk := by
    obtain ⟨e, d, ha, hd, rfl⟩ := h.due ks hks k hk
    exact ⟨e, d, ha, hd.trans ht, rfl⟩

theorem step {event : Time × Event o} (h : s.Sound event.fst) (hn : Readable event.fst) :
    (s.step event).Sound event.fst := by
  unfold Sched.step
  cases event.snd
  case request r => exact ⟨request_inv h.inv _ r, h.due⟩
  case compareAndMutate guard expected entries keys =>
    exact ⟨compareAndMutate_inv h.inv _ guard expected entries keys, h.due⟩
  case scan =>
    dsimp only
    split
    case h_1 => exact h
    case h_2 =>
      refine ⟨h.inv, fun ks hks k hk => ?_⟩
      rcases List.mem_append.mp hks with hks | hks
      case inl => exact h.due ks hks k hk
      case inr =>
        rw [List.mem_singleton.mp hks] at hk
        have hdue := candidates_due h.inv (hn.unixNano_eq.symm ▸ hn.left) hk
        rwa [hn.unixNano_eq] at hdue
  case purge =>
    dsimp only
    split
    case h_1 => exact h
    case h_2 ks hk =>
      have hdue := h.due ks (List.mem_of_getElem? hk)
      rw [← hn.unixNano_eq] at hdue
      exact ⟨(purgeCandidates_spec h.inv o hdue).left, h.due⟩

end Sched.Sound

theorem expiry_index_complete (history : List (Time × Event o))
    (hc : Machine.Ordered Prod.fst history) (hr : ∀ event ∈ history, Readable event.fst)
    (now : Time) (hn : Readable now) (hl : ∀ event ∈ history, event.fst ≤ now) :
    let s := Machine.fold Sched.step history ⟨∅, []⟩
    (∀ e : EncKey, ∀ v, s.db.lookup (recordKey e.bytes) = some (.value v) → v.deadline ≠ 0 →
      expiryKey e.bytes v.deadline ∈ s.db) ∧
    (∀ ks ∈ s.scans,
      let db' := (purgeCandidates o now ks s.db).snd
      Purged now s.db db' ∧ Logical.Alike now (logical db') (logical s.db)) := by
  intro s
  have h : s.Sound now := Machine.fold_timed Sched.step (P := Sched.Sound)
    (fun event s hr h => h.step hr) (fun t t' s ht h => h.mono ht)
    (fun t => ⟨empty_inv, by simp⟩) hc hr hl
  refine ⟨fun e v hv hz => h.inv.indexed hv hz, fun ks hks => ?_⟩
  have hdue := h.due ks hks
  rw [← hn.unixNano_eq] at hdue
  have ⟨_, ha, hp⟩ := purgeCandidates_spec h.inv o hdue
  rw [hn.unixNano_eq] at ha hp
  exact ⟨hp, ha⟩

-- A record that has expired when the scan comes along, and that is written again afterwards.
@[local simp]
def refreshed : List (Time × Event none) :=
  [(1, .request (.write (.batchMutate [⟨sampleKey, [7], some 5⟩] []))), (6, .scan 10),
    (7, .request (.write (.batchMutate [⟨sampleKey, [8], some 9⟩] [])))]

theorem expiry_index_complete_after_refresh :
    let s := Machine.fold Sched.step refreshed ⟨∅, []⟩
    s.scans.length = 1 ∧
    ∀ ks ∈ s.scans, Purged 8 s.db (purgeCandidates none 8 ks s.db).snd := by
  refine ⟨rfl, fun ks hks => ?_⟩
  have h := expiry_index_complete refreshed (by simp [Machine.Ordered])
    (by simp [Readable]) 8 (by decide) (by simp)
  exact (h.right ks hks).left

end Histories

end GizClaw.KV.TiKV

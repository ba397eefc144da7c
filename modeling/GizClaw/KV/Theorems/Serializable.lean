import GizClaw.KV.Theorems.Coverage

-- TiKV calls are serializable. Most of them guard all of their reads. A purge is different: it may
-- read a record row and write only the index row, which every call that gives a record that
-- deadline writes as well.

namespace GizClaw.KV.TiKV

variable {o : Option Options} {now : Time} {db db₀ db₁ : DB} {tx tx' tx₀ tx₁ : Tx Bytes Cell}
variable {e : EncKey} {d : Int} {α : Type}

attribute [local simp] Tx.delete

section Stability

-- What an attempt that has written `W` knows about the state that it commits to.
structure Stable (W : List Bytes) (db₀ db₁ : DB) : Prop where
  written : ∀ k ∈ W, db₁.lookup k = db₀.lookup k
  members : ∀ e : EncKey, recordKey e.bytes ∈ W →
    ∀ m, db₁.lookup (memberKey e m) = db₀.lookup (memberKey e m)
  stamps : ∀ (e : EncKey) d, d ≠ 0 → expiryKey e.bytes d ∈ W →
    rowDeadline (db₁.lookup (recordKey e.bytes)) = d →
    rowDeadline (db₀.lookup (recordKey e.bytes)) = d

namespace Stable

variable {W : List Bytes}

theorem refl : Stable W db db where
  written _ _ := rfl
  members _ _ _ := rfl
  stamps  _ _ _ _ h := h

theorem guarded (h : Stable W db₀ db₁) (hk : k ∈ Guarded W) : db₁.lookup k = db₀.lookup k := by
  obtain ⟨e, he, rfl | ⟨m, rfl⟩⟩ := hk
  case inl => exact h.written _ he
  case inr => exact h.members e he m

-- A commit that has written none of `W`.
theorem commit (h : Stable W db₀ db₁) (he : Extends (.start db) tx) (hs : Stable tx.written db db₁)
    (hw : ∀ k ∈ tx.written, k ∉ W) : Stable W db₀ (tx.commit db₁) where
  written k hk := by
    rw [Tx.lookup_commit, if_neg fun hm => hw k hm hk, h.written k hk]
  members e hk m := by
    have hm : memberKey e m ∉ tx.written := fun hm =>
      (he.members e m hm).elim List.not_mem_nil fun hr => hw _ hr hk
    rw [Tx.lookup_commit, if_neg hm, h.members e hk m]
  stamps e d hz hk hd := by
    rw [Tx.lookup_commit] at hd
    split at hd
    case isFalse => exact h.stamps e d hz hk hd
    case isTrue hr =>
      refine h.stamps e d hz hk ?_
      rw [hs.written _ hr]
      exact (he.stamps e d hz hd).resolve_right fun hx => hw _ hx hk

theorem erase (h : Stable W db₀ db₁) (k : Bytes) : Stable W (db₀.erase k) (db₁.erase k) where
  written i hi := by
    rw [Rows.lookup_erase, Rows.lookup_erase, h.written i hi]
  members e he m := by
    rw [Rows.lookup_erase, Rows.lookup_erase, h.members e he m]
  stamps e d hz he := by
    rw [Rows.lookup_erase, Rows.lookup_erase]
    split
    case isTrue => exact id
    case isFalse => exact h.stamps e d hz he

end Stable

-- What was read is still there, so the call does the same on the current state.
theorem Covered.replay (hp : Covered Q p) (h : p.run (.start db₀) = .ok (a, tx)) (ha : Q a)
    (hs : Stable tx.written db₀ db₁) :
    ∃ tx₁, p.run (.start db₁) = .ok (a, tx₁) ∧ tx₁.commit db₁ = tx.commit db₁ := by
  have ⟨_, hr⟩ := hp _ _ _ h ha
  have hagree : Tx.Agree (Guarded tx.written) (.start db₀) (.start db₁) :=
    ⟨rfl, fun k hk => hs.guarded (hk.resolve_right List.not_mem_nil)⟩
  have hrel := Prog.run_congr hagree hr
  rw [h] at hrel
  have ⟨⟨b, tx₁⟩, h₁, hb, hagree⟩ := hrel.exists_of_ok
  obtain rfl : b = a := hb
  exact ⟨tx₁, h₁, hagree.commit_eq db₁⟩

end Stability

section Purges

variable {W ks : List Bytes}

theorem purgeAllTxn_cons (o : Option Options) (now : Time) (k : Bytes) (ks : List Bytes) :
    purgeAllTxn o now (k :: ks) = purgeTxn o now k >>= fun _ => purgeAllTxn o now ks :=
  rfl

theorem purgeTxn_extends (h : Inv tx.view) (ha : Admitted d)
    (hr : (purgeTxn o now (expiryKey e.bytes d)).run tx = .ok ((), tx')) : Extends tx tx' := by
  by_cases hi : expiryKey e.bytes d ∈ tx.view
  case neg =>
    rw [run_purgeTxn_of_absent now hi] at hr
    cases hr
    exact .refl
  case pos =>
    rw [run_purgeTxn h now ha hi] at hr
    cases hr
    split
    case isTrue =>
      refine ⟨fun k hk => by simp [hk], fun e' m hm => ?_, fun e' d' hz hd => .inl ?_⟩
      · exact .inl (by simpa using hm)
      · by_cases he : e' = e
        · subst he
          exact absurd hd.symm (by simpa [rowDeadline] using hz)
        · simpa [he] using hd
    case isFalse =>
      refine ⟨fun k hk => by simp [hk], fun e' m hm => ?_, fun e' d' _ hd => .inl ?_⟩
      · exact .inl (by simpa using hm)
      · simpa using hd

theorem purgeAllTxn_extends (h : Inv tx.view) (hk : ∀ k ∈ ks, Due (unixNano now) k)
    (hr : (purgeAllTxn o now ks).run tx = .ok (a, tx')) : Extends tx tx' := by
  induction ks generalizing tx
  case nil => cases hr; exact .refl
  case cons hi =>
    obtain ⟨⟨e, d, ha, hd, rfl⟩, hks⟩ := List.forall_mem_cons.mp hk
    rw [purgeAllTxn_cons, Prog.run_bind] at hr
    have ⟨⟨_, tx₁⟩, h₁, h₂⟩ := Except.bind_eq_ok.mp hr
    have ⟨tx₁', h₁', hkeep, _⟩ := purgeTxn_spec (e := e) h o ha hd
    cases h₁'.symm.trans h₁
    exact (purgeTxn_extends h ha h₁).trans (hi hkeep.left hks h₂)

-- One candidate whose index row is there, on two states.
theorem purgeTxn_replay (h₀ : Inv tx₀.view) (h₁ : Inv tx₁.view) (hw : tx₁.written = tx₀.written)
    (hs : Stable W tx₀.view tx₁.view) (ha : Admitted d) (hi : expiryKey e.bytes d ∈ tx₀.view)
    (hr : (purgeTxn o now (expiryKey e.bytes d)).run tx₀ = .ok ((), tx)) (hsub : tx.written ⊆ W) :
    ∃ tx', (purgeTxn o now (expiryKey e.bytes d)).run tx₁ = .ok ((), tx') ∧
      tx'.written = tx.written ∧ Stable W tx.view tx'.view := by
  rw [run_purgeTxn h₀ now ha hi] at hr
  cases hr
  have hk : expiryKey e.bytes d ∈ W := hsub (by split <;> simp)
  have hi₁ : expiryKey e.bytes d ∈ tx₁.view := by
    rw [Finmap.mem_iff, hs.written _ hk]
    exact Finmap.mem_iff.mp hi
  have hd : rowDeadline (tx₁.view.lookup (recordKey e.bytes)) = d ∧ d ≤ unixNano now ↔
      rowDeadline (tx₀.view.lookup (recordKey e.bytes)) = d ∧ d ≤ unixNano now := by
    constructor
    case mp => exact fun h => ⟨hs.stamps e d ha.left.ne' hk h.left, h.right⟩
    case mpr =>
      intro hd
      rw [if_pos hd] at hsub
      rwa [hs.written _ (hsub (by simp))]
  refine ⟨_, run_purgeTxn h₁ now ha hi₁, ?_⟩
  simp only [hd]
  split
  case isTrue => exact ⟨by simp [hw], (hs.erase _).erase _⟩
  case isFalse => exact ⟨by simp [hw], hs.erase _⟩

theorem mem_view_purgeTxn {e' : EncKey} (h : Inv tx.view) (ha : Admitted d)
    (hr : (purgeTxn o now (expiryKey e.bytes d)).run tx = .ok ((), tx'))
    (hne : expiryKey e'.bytes d' ≠ expiryKey e.bytes d) :
    expiryKey e'.bytes d' ∈ tx'.view ↔ expiryKey e'.bytes d' ∈ tx.view := by
  by_cases hi : expiryKey e.bytes d ∈ tx.view
  case neg =>
    rw [run_purgeTxn_of_absent now hi] at hr
    cases hr
    rfl
  case pos =>
    rw [run_purgeTxn h now ha hi] at hr
    cases hr
    split <;> simp [Finmap.mem_erase, -expiryKey_inj, hne]

-- All candidates on the snapshot, and those that it has found on the current state.
theorem purgeAllTxn_replay (h₀ : Inv tx₀.view) (h₁ : Inv tx₁.view) (hw : tx₁.written = tx₀.written)
    (hs : Stable W tx₀.view tx₁.view) (hk : ∀ k ∈ ks, Due (unixNano now) k) (hnd : ks.Nodup)
    {hit : Bytes → Bool} (hf : ∀ k ∈ ks, hit k ↔ k ∈ tx₀.view)
    (hr : (purgeAllTxn o now ks).run tx₀ = .ok (a, tx)) (hsub : tx.written ⊆ W) :
    ∃ tx', (purgeAllTxn o now (ks.filter hit)).run tx₁ = .ok ((), tx') ∧
      tx'.written = tx.written ∧ Stable W tx.view tx'.view := by
  induction ks generalizing tx₀ tx₁
  case nil => cases hr; exact ⟨tx₁, rfl, hw, hs⟩
  case cons k ks ih =>
    obtain ⟨⟨e, d, ha, hd, rfl⟩, hks⟩ := List.forall_mem_cons.mp hk
    have ⟨hhit, hfs⟩ := List.forall_mem_cons.mp hf
    have ⟨hnot, hnds⟩ := List.nodup_cons.mp hnd
    rw [purgeAllTxn_cons, Prog.run_bind] at hr
    have ⟨⟨_, tx₂⟩, hr₁, hr₂⟩ := Except.bind_eq_ok.mp hr
    have ⟨_, hr₁', hkeep, _⟩ := purgeTxn_spec (e := e) h₀ o ha hd
    cases hr₁'.symm.trans hr₁
    have hf₂ : ∀ k ∈ ks, hit k ↔ k ∈ tx₂.view := by
      intro k hm
      obtain ⟨e', d', _, _, rfl⟩ := hks k hm
      rw [hfs _ hm, mem_view_purgeTxn h₀ ha hr₁ fun he => hnot (he ▸ hm)]
    by_cases hi : expiryKey e.bytes d ∈ tx₀.view
    case neg =>
      rw [run_purgeTxn_of_absent now hi] at hr₁
      cases hr₁
      rw [List.filter_cons_of_neg fun h => hi (hhit.mp h)]
      exact ih h₀ h₁ hw hs hks hnds hf₂ hr₂
    case pos =>
      have hsub₁ : tx₂.written ⊆ W := List.Subset.trans (Prog.written_subset hr₂) hsub
      have ⟨tx₃, hr₃, hw₃, hs₃⟩ := purgeTxn_replay h₀ h₁ hw hs ha hi hr₁ hsub₁
      have ⟨_, hr₃', hkeep₃, _⟩ := purgeTxn_spec (e := e) h₁ o ha hd
      cases hr₃'.symm.trans hr₃
      have ⟨tx', hr', h'⟩ := ih hkeep.left hkeep₃.left hw₃ hs₃ hks hnds hf₂ hr₂
      refine ⟨tx', ?_, h'⟩
      rw [List.filter_cons_of_pos (hhit.mpr hi), purgeAllTxn_cons, Prog.run_bind, hr₃,
        Except.bind_ok, hr']

end Purges

section Serial

theorem update_of_run (h : fn.run (.start db) = .ok (a, tx)) (ha : matched a) :
    update matched fn db = (.ok a, tx.commit db) := by
  simp only [update, h, ha, ↓reduceIte]

theorem call_of_run (h : (writeTxn now w).run (.start db) = .ok (true, tx)) :
    call now w db = (.ok true, tx.commit db) := by
  cases w
  case set key value | delete key | batchMutate entries keys => exact update_of_run h rfl
  case applyMutation m =>
    rw [writeTxn, Prog.run_bind, Prog.run_ofExcept] at h
    rw [call, applyMutation]
    cases hv : m.validate now <;> rw [hv] at h
    case error => cases h
    case ok => exact update_of_run h rfl

theorem request_of_run (h : (requestTxn now r).run (.start db) = .ok (a, tx))
    (ha : (Answer.reply a).matched) : request now r db = (.ok a, tx.commit db) := by
  cases r
  case write =>
    obtain ⟨b, hb, heq⟩ := Prog.exists_of_run_map h
    subst heq
    obtain rfl : b = true := ha
    rw [request, call_of_run hb]
    rfl
  case createIfAllAbsent =>
    rw [requestTxn] at h
    split at h
    case isTrue => cases h
    case isFalse hg =>
      obtain ⟨conflict, hb, heq⟩ := Prog.exists_of_run_map h
      subst heq
      cases conflict
      case some => cases ha
      case none =>
        rw [request, createIfAllAbsent, if_neg hg, update_of_run hb rfl]
        rfl

def reliance (o : Option Options) : Isolation.Reliance Bytes Cell (Pending o) Time where
  Good := Inv
  Clock := Readable
  Ready t c := ∀ ks, c = .purge (.ok ks) → ks.Nodup ∧ ∀ k ∈ ks, Due t k
  Stable := Stable

abbrev Commit (o : Option Options) :=
  Isolation.Commit Bytes Cell (Answer o) (Pending o) Time

abbrev Ran (c : Commit o) (db₀ db₁ : DB) : Prop :=
  Isolation.Ran (protocol o) (reliance o) c db₀ db₁

variable {c : Commit o}

theorem covered_txn {p : Pending o} (now : Time) (hp : ∀ scan, p ≠ .purge scan) :
    Covered (fun a => a.matched) (p.txn now) := by
  cases p
  case request r => exact (covered_requestTxn now r).map _ fun _ h => h
  case compareAndMutate guard expected entries keys =>
    exact (covered_compareTxn now guard expected entries keys).map _ fun _ h => h
  case purge scan => exact absurd rfl (hp scan)

section

variable (h : Ran c db₀ db₁)
include h

theorem Ran.due (hc : c.call = .purge (.ok ks)) : ks.Nodup ∧ ∀ k ∈ ks, Due (unixNano c.now) k := by
  have ⟨hnd, hdue⟩ := h.ready ks hc
  rw [Readable.unixNano_eq h.clock]
  exact ⟨hnd, hdue⟩

theorem Ran.run_purge (hc : c.call = .purge (.ok ks)) :
    (purgeAllTxn o c.now ks).run (.start db₀) = .ok ((), c.tx) ∧ c.result = .purged ks.length := by
  have hr := h.run
  change (c.call.txn c.now).run _ = _ at hr
  rw [hc, Pending.txn, Prog.run_bind] at hr
  have ⟨⟨_, tx⟩, h₁, h₂⟩ := Except.bind_eq_ok.mp hr
  have ⟨hres, htx⟩ := Prod.mk.inj (Except.ok.inj h₂)
  exact ⟨htx ▸ h₁, hres.symm⟩

theorem Ran.extends : Extends (.start db₀) c.tx := by
  by_cases hp : ∃ scan, c.call = .purge scan
  case neg =>
    exact (covered_txn c.now (fun scan hc => hp ⟨scan, hc⟩) _ _ _ h.run h.accepts).left
  case pos =>
    obtain ⟨_ | ks, hc⟩ := hp
    case error =>
      have hr := h.run
      rw [hc] at hr
      exact nomatch hr
    case ok =>
      have hi : Inv (Tx.start db₀).view := h.snapshot
      exact purgeAllTxn_extends hi (h.due hc).right (h.run_purge hc).left

-- The purge of what was found, with the rows of the snapshot replaced by the current ones.
theorem Ran.purge_alone (hc : c.call = .purge (.ok ks)) :
    (purgeCandidates o c.now (ks.filter (· ∈ db₀)) db₁).snd = c.tx.commit db₁ ∧
    ∃ n, (purgeCandidates o c.now (ks.filter (· ∈ db₀)) db₁).fst = .ok n := by
  have h₀ : Inv (Tx.start db₀).view := h.snapshot
  have h₁ : Inv (Tx.start db₁).view := h.current
  have ⟨hnd, hdue⟩ := h.due hc
  have ⟨hr, _⟩ := h.run_purge hc
  have hf : ∀ k ∈ ks, decide (k ∈ db₀) ↔ k ∈ (Tx.start db₀).view := fun k _ => decide_eq_true_iff
  have ⟨tx, hr₁, hw, hs⟩ :=
    purgeAllTxn_replay h₀ h₁ rfl h.stable hdue hnd hf hr (List.Subset.refl _)
  have hcommit : tx.commit db₁ = c.tx.commit db₁ := by
    refine Finmap.ext_lookup fun k => ?_
    rw [Tx.lookup_commit, Tx.lookup_commit, hw]
    split
    case isTrue hk => exact hs.written k hk
    case isFalse => rfl
  unfold purgeCandidates
  split
  case isTrue hnil =>
    rw [hnil] at hr₁
    cases hr₁
    exact ⟨hcommit, 0, rfl⟩
  case isFalse =>
    rw [update_of_run hr₁ rfl]
    exact ⟨hcommit, _, rfl⟩

theorem Ran.alone :
    c.call.alone c.now db₀ db₁ = (.ok c.result, c.tx.commit db₁) ∧ Inv (c.tx.commit db₁) := by
  have hr : (c.call.txn c.now).run (.start db₀) = .ok (c.result, c.tx) := h.run
  have hres := h.accepts
  cases hc : c.call <;> rw [hc] at hr
  case request r =>
    have ⟨tx, hrun, hcommit⟩ :=
      (covered_txn (p := .request r) c.now fun _ => nofun).replay hr hres h.stable
    have ⟨a, ha, heq⟩ := Prog.exists_of_run_map hrun
    have hreq := request_of_run ha (heq ▸ hres)
    refine ⟨?_, ?_⟩
    · rw [Pending.alone, hreq, hcommit, ← heq]
      rfl
    · have hinv := request_inv h.current c.now r
      rwa [hreq, hcommit] at hinv
  case compareAndMutate guard expected entries keys =>
    have ⟨tx, hrun, hcommit⟩ := (covered_txn (p := .compareAndMutate guard expected entries keys)
      c.now fun _ => nofun).replay hr hres h.stable
    have ⟨b, hb, heq⟩ := Prog.exists_of_run_map hrun
    have hb' : id b = true := by
      rw [← heq] at hres
      exact hres
    have hreq : compareAndMutate c.now guard expected entries keys db₁ = _ := update_of_run hb hb'
    refine ⟨?_, ?_⟩
    · rw [Pending.alone, hreq, hcommit, ← heq]
      rfl
    · have hinv := compareAndMutate_inv h.current c.now guard expected entries keys
      rwa [hreq, hcommit] at hinv
  case purge scan =>
    cases scan
    case error => exact nomatch hr
    case ok ks =>
      have ⟨hsnd, n, hfst⟩ := h.purge_alone hc
      have hdue : ∀ k ∈ ks.filter (· ∈ db₀), Due (unixNano c.now) k := fun k hk =>
        (h.due hc).right k (List.mem_of_mem_filter hk)
      have hinv := (purgeCandidates_spec h.current o hdue).left
      refine ⟨?_, hsnd ▸ hinv⟩
      rw [Pending.alone, (h.run_purge hc).right, ← hsnd]
      exact Prod.ext (by simp [hfst]) rfl

end

theorem protocol_sound : Isolation.Sound (protocol o) (reliance o)
    fun call now snapshot db => call.alone now snapshot db where
  ready c t db ht hg ks hc := by
    cases c
    case purgeExpired limit =>
      change Pending.purge _ = _ at hc
      cases hl : checkLimit limit <;> rw [hl] at hc
      case error => exact nomatch hc
      case ok =>
        cases hc
        refine ⟨(Rows.nodup_scan ..).take, fun k hk => ?_⟩
        have hdue := candidates_due hg (ht.unixNano_eq.symm ▸ ht.left) hk
        rwa [ht.unixNano_eq] at hdue
    all_goals exact nomatch hc
  mono t t' c ht h ks hc := by
    have ⟨hnd, hdue⟩ := h ks hc
    refine ⟨hnd, fun k hk => ?_⟩
    obtain ⟨e, d, ha, hd, rfl⟩ := hdue k hk
    exact ⟨e, d, ha, hd.trans ht, rfl⟩
  refl W db := Stable.refl
  commit c W db₀ db₀' db₁ h hs hw := hs.commit (Ran.extends h) h.stable (hw c (by simp))
  serial c db₀ db₁ h := Ran.alone h

-- A call that commits has written the record rows of its guards.
theorem Ran.guards_written (h : Ran c db₀ db₁) (hk : key ∈ c.call.guards) :
    recordKey key.encode.bytes ∈ c.tx.written := by
  have hr : (c.call.txn c.now).run (.start db₀) = .ok (c.result, c.tx) := h.run
  have hres := h.accepts
  unfold Pending.guards at hk
  split at hk <;> rename_i hc
  case h_1 =>
    rw [hc] at hr
    obtain ⟨a, ha, heq⟩ := Prog.exists_of_run_map hr
    obtain ⟨b, hb, heq'⟩ := Prog.exists_of_run_map ha
    subst heq'
    rw [← heq] at hres
    obtain rfl : b = true := hres
    rw [writeTxn, Prog.run_bind] at hb
    obtain ⟨⟨_, tx⟩, _, hm⟩ := Except.bind_eq_ok.mp hb
    obtain ⟨c, hmem, rfl⟩ := List.mem_map.mp hk
    exact written_mutationTxn hm c hmem
  case h_2 | h_5 => exact absurd hk List.not_mem_nil
  case h_3 =>
    rw [hc] at hr
    obtain ⟨a, ha, heq⟩ := Prog.exists_of_run_map hr
    rw [requestTxn] at ha
    split at ha
    case isTrue => cases ha
    case isFalse =>
      obtain ⟨conflict, hb, heq'⟩ := Prog.exists_of_run_map ha
      subst heq'
      rw [← heq] at hres
      obtain ⟨g, hmem, rfl⟩ := List.mem_map.mp hk
      cases conflict
      case some => cases hres
      case none => exact written_createTxn hb g hmem
  case h_4 guard expected entries keys =>
    rw [hc] at hr
    obtain ⟨b, hb, heq⟩ := Prog.exists_of_run_map hr
    rw [← heq] at hres
    obtain rfl : b = true := hres
    rw [compareTxn_eq] at hb
    rw [List.mem_singleton.mp hk]
    exact written_mutationTxn hb ⟨guard, some expected⟩ (by simp)

theorem tikv_calls_serializable (events : List (Isolation.Event (Op o) Time))
    (hc : Machine.Ordered Isolation.Event.now events)
    (hr : ∀ event ∈ events, Readable event.now) (db₀ : DB) (h : Inv db₀) :
    let s := Machine.fold (protocol o).step events (.init db₀)
    (∃ states : Nat → DB, states 0 = db₀ ∧ s.db = states s.log.length ∧
      ∀ (n : Nat) (c : Commit o), s.log[n]? = some c → c.start ≤ n ∧
        c.call.alone c.now (states c.start) (states n) = (.ok c.result, states (n + 1))) ∧
    (∀ (m n : Nat) (c c' : Commit o), s.log[m]? = some c → s.log[n]? = some c' → m < n →
      c'.start ≤ m → ∀ key ∈ c.call.guards, key ∉ c'.call.guards) := by
  intro s
  have ⟨t, ht⟩ := (events.map (·.now)).toFinset.exists_le
  have hf : s.Fits (protocol o) (reliance o) db₀ t :=
    .run protocol_sound h hc hr fun event he => ht _ (by simpa using ⟨event, he, rfl⟩)
  refine ⟨⟨fun n => Isolation.after db₀ (s.log.take n), rfl, ?_, fun n c hn => ?_⟩, ?_⟩
  · dsimp only
    rw [List.take_length, hf.current]
  · exact ⟨(hf.history.ran n c hn).left, hf.serial_eq protocol_sound hn⟩
  · intro m n c c' hm hn hlt hle key hk hk'
    have ⟨_, hran, _⟩ := hf.history.ran m c hm
    have ⟨_, hran', hapart⟩ := hf.history.ran n c' hn
    refine hapart c (List.mem_of_getElem? (i := m - c'.start) ?_) _ (Ran.guards_written hran hk)
      (Ran.guards_written hran' hk')
    rw [List.getElem?_drop, Nat.add_sub_cancel' hle, List.getElem?_take_of_lt hlt, hm]

section Samples

-- The steps of one attempt in a row.
def attempt (session : Nat) (now : Time) (operations : Nat) :
    List (Isolation.Event (Op none) Time) :=
  ⟨session, now, .start⟩ ::
    List.replicate operations ⟨session, now, .advance⟩ ++ [⟨session, now, .finish⟩]

-- Two calls that create the same key. The second one conflicts with the first, and finds the key in
-- its next attempt.
def createTwice : List (Isolation.Event (Op none) Time) :=
  let create (value : Bytes) : Isolation.Action (Op none) :=
    .call (.request (.createIfAllAbsent [⟨sampleKey, value, none⟩] []))
  [⟨0, 1, create [7]⟩, ⟨1, 1, create [8]⟩, ⟨1, 1, .start⟩] ++ attempt 0 1 9 ++
    List.replicate 9 ⟨1, 1, .advance⟩ ++ [⟨1, 1, .finish⟩] ++ attempt 1 2 9

theorem tikv_calls_serializable_create_twice :
    let s := Machine.fold (protocol none).step createTwice (.init ∅)
    s.log.map (·.result) = [.reply (.applied true)] ∧
    ∃ states : Nat → DB, states 0 = ∅ ∧ s.db = states s.log.length ∧
      ∀ (n : Nat) (c : Commit none), s.log[n]? = some c → c.start ≤ n ∧
        c.call.alone c.now (states c.start) (states n) = (.ok c.result, states (n + 1)) := by
  refine ⟨by decide, ?_⟩
  refine (tikv_calls_serializable createTwice ?_ ?_ ∅ empty_inv).left
  · unfold Machine.Ordered; decide
  · decide

-- A record that has expired at 6.
def expiredRecord : DB :=
  (batchMutate 1 [⟨sampleKey, [7], some 5⟩] [] ∅).snd

theorem candidates_expiredRecord :
    candidates 6 10 expiredRecord = [expiryKey sampleKey.encode.bytes 5] := by
  have h : expiredRecord.keys.filter (Tx.InRange expiryPrefix
      (Bytes.prefixEnd (expiryPrefix ++ Bytes.bigEndian 8 (uint64 (unixNano 6))))) =
      {expiryKey sampleKey.encode.bytes 5} := by
    decide
  simp only [candidates, Tx.scan, Tx.start, Rows.scan, h]
  simp

-- Both purges have the same candidate. The second one conflicts with the first, and finds nothing
-- in its next attempt.
def purgeTwice : List (Isolation.Event (Op none) Time) :=
  [⟨0, 6, .call (.purgeExpired 10)⟩, ⟨1, 6, .call (.purgeExpired 10)⟩, ⟨1, 6, .start⟩] ++
    attempt 0 6 4 ++ List.replicate 4 ⟨1, 6, .advance⟩ ++ [⟨1, 6, .finish⟩] ++ attempt 1 6 4

theorem step_call_purge (hi : s.sessions i = .idle) (hd : s.db = expiredRecord) :
    (protocol none).step ⟨i, 6, .call (.purgeExpired 10)⟩ s =
    s.put i (.ready (.purge (.ok [expiryKey sampleKey.encode.bytes 5]))) := by
  rw [← candidates_expiredRecord, ← hd]
  simp only [Isolation.Protocol.step, hi]
  rfl

theorem concurrent_purges_report_twice :
    (Machine.fold (protocol none).step purgeTwice (.init expiredRecord)).log.map (·.result) =
      [.purged 1, .purged 1] ∧
    (purgeExpired none 6 10 expiredRecord).fst = .ok 1 ∧
    (purgeExpired none 6 10 (purgeExpired none 6 10 expiredRecord).snd).fst = .ok 0 := by
  have hfirst : purgeExpired none 6 10 expiredRecord =
      purgeCandidates none 6 [expiryKey sampleKey.encode.bytes 5] expiredRecord := by
    rw [← candidates_expiredRecord]
    rfl
  refine ⟨?_, ?_, ?_⟩
  · simp only [purgeTwice, Machine.fold, List.cons_append, List.foldl_cons]
    rw [step_call_purge rfl rfl, step_call_purge rfl rfl]
    decide
  · rw [hfirst]
    decide
  · have hnone : (purgeCandidates none 6 [expiryKey sampleKey.encode.bytes 5] expiredRecord).snd =
        ∅ := by
      decide
    have hempty : candidates 6 10 ∅ = [] := by simp [candidates, Tx.scan, Tx.start, Rows.scan]
    rw [hfirst, hnone]
    change (purgeCandidates none 6 (candidates 6 10 ∅) ∅).fst = .ok 0
    rw [hempty]
    rfl

end Samples

end Serial

end GizClaw.KV.TiKV

import GizClaw.KV.Concurrent
import GizClaw.KV.Theorems.Expiry

-- Snapshot isolation only notices conflicts on written rows, so every row that a call has read must
-- be guarded by one that it has written. Record rows guard themselves and the member rows of their
-- collection.

namespace GizClaw.KV.TiKV

open Prog (run_bind run run_ofExcept)

variable {o : Option Options} {now : Time} {tx tx' : Tx Bytes Cell} {e : EncKey} {α β : Type}
variable {p : Txn α} {f : α → Txn β} {Q : α → Prop} {k : Bytes}

attribute [local simp] Tx.set Tx.delete rowDeadline

section Locality

def rowsOf (e : EncKey) : Set Bytes :=
  {k | k = recordKey e.bytes ∨ ∃ m, k = memberKey e m}

-- From `tx` to `tx'` only rows of `e` have been written.
structure Within (e : EncKey) (tx tx' : Tx Bytes Cell) : Prop where
  grows : tx.written ⊆ tx'.written
  owned : ∀ k ∈ tx'.written, k ∈ tx.written ∨ Owned e k
  frame : ∀ k, ¬Owned e k → tx'.view.lookup k = tx.view.lookup k

namespace Within

theorem refl : Within e tx tx where
  grows := List.Subset.refl _
  owned _ h := .inl h
  frame _ _ := rfl

theorem trans (h₁ : Within e tx₁ tx₂) (h₂ : Within e tx₂ tx₃) : Within e tx₁ tx₃ where
  grows := List.Subset.trans h₁.grows h₂.grows
  owned k h := (h₂.owned k h).elim (h₁.owned k) .inr
  frame k h := (h₂.frame k h).trans (h₁.frame k h)

theorem set (h : Owned e k) (cell : Cell) : Within e tx (tx.set k cell) where
  grows := List.subset_cons_self ..
  owned i hi := (List.mem_cons.mp hi).elim (fun hk => .inr (hk ▸ h)) .inl
  frame i hi := by
    have hk : i ≠ k := fun hk => hi (hk ▸ h)
    simp [hk]

theorem delete (h : Owned e k) : Within e tx (tx.delete k) where
  grows := List.subset_cons_self ..
  owned i hi := (List.mem_cons.mp hi).elim (fun hk => .inr (hk ▸ h)) .inl
  frame i hi := by
    have hk : i ≠ k := fun hk => hi (hk ▸ h)
    simp [hk]

theorem deleteAll (h : ∀ k ∈ ks, Owned e k) : Within e tx (tx.deleteAll ks) := by
  induction ks generalizing tx
  case nil => exact refl
  case cons hi =>
    have ⟨hk, hks⟩ := List.forall_mem_cons.mp h
    exact (delete hk).trans (hi hks)

end Within

-- A program that stays within the rows of `e`.
structure Local (e : EncKey) (p : Txn α) : Prop where
  reads : ∀ tx, p.ReadsIn (rowsOf e) tx
  writes : ∀ tx a tx', p.run tx = .ok (a, tx') → Within e tx tx'

namespace Local

theorem pure (a : α) : Local e (pure a : Txn α) where
  reads _ := trivial
  writes _ _ _ h := by cases h; exact .refl

theorem fail (err : Err) : Local e (.fail err : Txn α) where
  reads _ := trivial
  writes _ _ _ h := nomatch h

theorem ofExcept (x : Except Err α) : Local e (.ofExcept x : Txn α) := by
  cases x
  case error err => exact fail err
  case ok a => exact pure a

theorem bind (hp : Local e p) (hf : ∀ a, Local e (f a)) : Local e (p >>= f) where
  reads tx := (hp.reads tx).bind fun a tx' _ => (hf a).reads tx'
  writes tx b tx' h := by
    rw [run_bind] at h
    have ⟨⟨a, tx₁⟩, h₁, h₂⟩ := Except.bind_eq_ok.mp h
    exact (hp.writes _ _ _ h₁).trans ((hf a).writes _ _ _ h₂)

theorem write (h : Owned e k) (cell : Cell) : Local e (.write k cell : Txn Unit) where
  reads _ := trivial
  writes _ _ _ hr := by cases hr; exact .set h cell

theorem remove (h : Owned e k) : Local e (.remove k : Txn Unit) where
  reads _ := trivial
  writes _ _ _ hr := by cases hr; exact .delete h

theorem getTxn (now : Time) (e : EncKey) : Local e (getTxn now e.bytes) where
  reads tx := ⟨.inl rfl, Prog.readsIn_ofExcept ..⟩
  writes tx a tx' h := by
    exact (ofExcept _).writes _ _ _ h

theorem removeIndex (e : EncKey) (d : Int) : Local e (removeIndex e.bytes d) := by
  unfold TiKV.removeIndex
  split
  case isTrue => exact remove owned_expiryKey
  case isFalse => exact pure ()

theorem removeMembers (e : EncKey) (found : Found) : Local e (removeMembers e.bytes found) := by
  unfold TiKV.removeMembers
  split
  case h_2 => exact pure ()
  case h_1 =>
    split
    case isFalse => exact pure ()
    case isTrue =>
      refine ⟨fun tx => ⟨fun k hk => ?range, ?rest⟩, fun tx a tx' h => ?writes⟩
      case range =>
        obtain ⟨m, rfl⟩ := inRange_prefixEnd.mp hk
        exact .inr ⟨m, rfl⟩
      case rest =>
        generalize tx.scan .. = ks
        induction ks generalizing tx
        case nil => trivial
        case cons k ks hi => exact hi (tx.delete k)
      case writes =>
        rw [run, Prog.run_forM_remove] at h
        cases h
        refine .deleteAll fun k hk => ?_
        obtain ⟨m, _, rfl⟩ := mem_scan_memberPrefix.mp hk
        exact owned_memberKey

theorem deleteTxn (now : Time) (e : EncKey) : Local e (deleteTxn now e.bytes) :=
  (getTxn now e).bind fun found => (removeIndex e found.deadline).bind fun _ =>
    (removeMembers e found).bind fun _ => remove owned_recordKey

theorem updateMembers (e : EncKey) (adds : Bool) (ms : List Bytes) (count : Nat) :
    Local e (updateMembers (memberPrefix e.bytes) adds ms count) := by
  induction ms generalizing count
  case nil => exact pure count
  case cons m ms hi =>
    have hk : Owned e (memberPrefix e.bytes ++ m) := owned_memberKey
    have hset := fun count => (write hk .mark).bind fun _ => hi count
    have hdel := fun count => (remove hk).bind fun _ => hi count
    unfold TiKV.updateMembers
    constructor
    case reads =>
      refine fun tx => ⟨.inr ⟨m, rfl⟩, ?_⟩
      dsimp only
      split_ifs
      · exact (hset _).reads tx
      · trivial
      · exact (hdel _).reads tx
      · exact (hi _).reads tx
    case writes =>
      intro tx a tx' h
      rw [run] at h
      split_ifs at h
      · exact (hset _).writes _ _ _ h
      · cases h
      · exact (hdel _).writes _ _ _ h
      · exact (hi _).writes _ _ _ h

theorem storeCount (g : Group o) (previous count : Nat) :
    Local g.key.encode (storeCount g previous count) := by
  unfold TiKV.storeCount
  split_ifs
  · exact fail _
  · exact remove owned_recordKey
  · exact write owned_recordKey _

end Local

end Locality

section Coverage

-- What can be said about the writes of every call: members are never written without their record
-- row, and a record with a new deadline never without its index row.
structure Extends (tx tx' : Tx Bytes Cell) : Prop where
  grows : tx.written ⊆ tx'.written
  members : ∀ (e : EncKey) m, memberKey e m ∈ tx'.written →
    memberKey e m ∈ tx.written ∨ recordKey e.bytes ∈ tx'.written
  stamps : ∀ (e : EncKey) d, d ≠ 0 → rowDeadline (tx'.view.lookup (recordKey e.bytes)) = d →
    rowDeadline (tx.view.lookup (recordKey e.bytes)) = d ∨ expiryKey e.bytes d ∈ tx'.written

namespace Extends

theorem refl : Extends tx tx where
  grows := List.Subset.refl _
  members _ _ h := .inl h
  stamps  _ _ _ h := .inl h

theorem trans (h₁ : Extends tx₁ tx₂) (h₂ : Extends tx₂ tx₃) : Extends tx₁ tx₃ where
  grows := List.Subset.trans h₁.grows h₂.grows
  members e m h := by
    rcases h₂.members e m h with h | h
    case inl => exact (h₁.members e m h).imp_right (h₂.grows ·)
    case inr => exact .inr h
  stamps e d hz h := by
    rcases h₂.stamps e d hz h with h | h
    case inl => exact (h₁.stamps e d hz h).imp_right (h₂.grows ·)
    case inr => exact .inr h

-- Within one key it is enough to look at its record row.
theorem of_within (h : Within e tx tx') (hw : recordKey e.bytes ∈ tx'.written)
    (hs : ∀ d, d ≠ 0 → rowDeadline (tx'.view.lookup (recordKey e.bytes)) = d →
      rowDeadline (tx.view.lookup (recordKey e.bytes)) = d ∨ expiryKey e.bytes d ∈ tx'.written) :
    Extends tx tx' where
  grows := h.grows
  members e' m hm := by
    refine (h.owned _ hm).imp_right fun ho => ?_
    simp only [Owned, memberKey_ne_recordKey, memberKey_inj, memberKey_ne_expiryKey, exists_false,
      or_false, false_or, exists_and_left, exists_eq', and_true] at ho
    rwa [ho]
  stamps e' d hz hd := by
    by_cases he : e' = e
    case pos => exact he ▸ hs d hz (he ▸ hd)
    case neg => exact .inl (h.frame (recordKey e'.bytes) (by simp [Owned, he]) ▸ hd)

end Extends

-- The rows that nobody can have written without writing one of `W`.
def Guarded (W : List Bytes) : Set Bytes :=
  {k | ∃ e : EncKey, recordKey e.bytes ∈ W ∧ k ∈ rowsOf e}

theorem Guarded.mono (h : W ⊆ W') : Guarded W ⊆ Guarded W' :=
  fun _ ⟨e, he, hk⟩ => ⟨e, h he, hk⟩

-- A program that guards all of its reads when its result is in `Q`.
def Covered (Q : α → Prop) (p : Txn α) : Prop :=
  ∀ tx a tx', p.run tx = .ok (a, tx') → Q a → Extends tx tx' ∧ p.ReadsIn (Guarded tx'.written) tx

namespace Covered

theorem pure (Q : α → Prop) (a : α) : Covered Q (pure a : Txn α) := by
  intro tx b tx' h _
  cases h
  exact ⟨.refl, trivial⟩

theorem bind (hp : Covered Q p) (hf : ∀ a, Q a → Covered Q' (f a))
    (hq : ∀ a tx b tx', (f a).run tx = .ok (b, tx') → Q' b → Q a) : Covered Q' (p >>= f) := by
  intro tx b tx' h hb
  rw [run_bind] at h
  have ⟨⟨a, tx₁⟩, h₁, h₂⟩ := Except.bind_eq_ok.mp h
  have ha := hq a _ _ _ h₂ hb
  have ⟨he₁, hr₁⟩ := hp _ _ _ h₁ ha
  have ⟨he₂, hr₂⟩ := hf a ha _ _ _ h₂ hb
  refine ⟨he₁.trans he₂, (hr₁.mono (Guarded.mono he₂.grows)).bind fun a' tx₁' h₁' => ?_⟩
  cases h₁.symm.trans h₁'
  exact hr₂

theorem seq {Q : β → Prop} (hp : Covered (fun _ => True) p) (hf : ∀ a, Covered Q (f a)) :
    Covered Q (p >>= f) :=
  hp.bind (fun a _ => hf a) fun _ _ _ _ _ _ => trivial

theorem forM {ι : Type} {f : ι → Txn Unit} (is : List ι)
    (hf : ∀ i ∈ is, Covered (fun _ => True) (f i)) : Covered (fun _ => True) (is.forM f) := by
  induction is
  case nil => exact pure _ ()
  case cons hi =>
    have ⟨h, hs⟩ := List.forall_mem_cons.mp hf
    exact h.seq fun _ => hi hs

theorem of_local (hl : Local e p)
    (h : ∀ tx a tx', p.run tx = .ok (a, tx') → Q a → recordKey e.bytes ∈ tx'.written ∧
      ∀ d, d ≠ 0 → rowDeadline (tx'.view.lookup (recordKey e.bytes)) = d →
        rowDeadline (tx.view.lookup (recordKey e.bytes)) = d ∨ expiryKey e.bytes d ∈ tx'.written) :
    Covered Q p := by
  intro tx a tx' hr ha
  have ⟨hw, hs⟩ := h tx a tx' hr ha
  exact ⟨.of_within (hl.writes _ _ _ hr) hw hs, (hl.reads tx).mono fun k hk => ⟨e, hw, hk⟩⟩

end Covered

-- A key is deleted in the end, whatever was found before.
theorem run_deleteTxn_eq (h : (deleteTxn now e.bytes).run tx = .ok (a, tx')) :
    ∃ tx₁ : Tx Bytes Cell, tx' = tx₁.delete (recordKey e.bytes) := by
  simp only [deleteTxn, run_bind] at h
  obtain ⟨⟨found, tx₁⟩, _, h⟩ := Except.bind_eq_ok.mp h
  obtain ⟨⟨_, tx₂⟩, _, h⟩ := Except.bind_eq_ok.mp h
  obtain ⟨⟨_, tx₃⟩, _, h⟩ := Except.bind_eq_ok.mp h
  cases h
  exact ⟨tx₃, rfl⟩

theorem covered_deleteTxn (now : Time) (e : EncKey) :
    Covered (fun _ => True) (deleteTxn now e.bytes) := by
  refine .of_local (.deleteTxn now e) fun tx a tx' h _ => ?_
  obtain ⟨tx₁, rfl⟩ := run_deleteTxn_eq h
  refine ⟨List.mem_cons_self, fun d hz hd => absurd hd.symm ?_⟩
  simpa using hz

theorem local_putEntry (now : Time) (entry : Entry o) :
    Local entry.key.encode (putEntry now entry) := by
  refine (Local.ofExcept _).bind fun deadline => (Local.deleteTxn ..).bind fun _ =>
    (Local.write owned_recordKey _).bind fun _ => ?_
  split
  case isTrue => exact .write owned_expiryKey _
  case isFalse => exact .pure ()

theorem run_putEntry_eq (h : (putEntry now entry).run tx = .ok (a, tx')) :
    ∃ (tx₁ : Tx Bytes Cell) (deadline : Int),
      let tx₂ :=
        tx₁.set (recordKey entry.key.encode.bytes) (.value ⟨0, deadline, .bytes entry.value⟩)
      tx' = if deadline ≠ 0 then tx₂.set (expiryKey entry.key.encode.bytes deadline) .mark
        else tx₂ := by
  simp only [putEntry, run_bind] at h
  obtain ⟨⟨deadline, tx₁⟩, _, h⟩ := Except.bind_eq_ok.mp h
  obtain ⟨⟨_, tx₂⟩, _, h⟩ := Except.bind_eq_ok.mp h
  refine ⟨tx₂, deadline, ?_⟩
  by_cases hz : deadline ≠ 0
  case pos =>
    rw [if_pos hz, Prog.run_write] at h
    cases h
    exact (if_pos hz).symm
  case neg =>
    rw [if_neg hz] at h
    cases h
    exact (if_neg hz).symm

theorem covered_putEntry (now : Time) (entry : Entry o) :
    Covered (fun _ => True) (putEntry now entry) := by
  refine .of_local (local_putEntry now entry) fun tx a tx' h _ => ?_
  obtain ⟨tx₁, deadline, rfl⟩ := run_putEntry_eq h
  split
  case isTrue =>
    refine ⟨by simp, fun d _ hd => .inr ?_⟩
    have hd : deadline = d := by simpa using hd
    simp [hd]
  case isFalse hz =>
    refine ⟨by simp, fun d hz' hd => absurd ?_ hz'⟩
    have hd : deadline = d := by simpa using hd
    exact hd ▸ not_not.mp hz

theorem covered_entriesTxn (now : Time) (entries : List (Entry o)) (keys : List (Key o)) :
    Covered (fun _ => True) (entriesTxn now entries keys) :=
  (Covered.forM entries fun entry _ => covered_putEntry now entry).seq fun _ =>
    .forM keys fun key _ => covered_deleteTxn now key.encode

-- A group leaves a count in the record row, or removes it.
theorem run_storeCount_eq (h : (storeCount g previous count).run tx = .ok (a, tx')) :
    recordKey g.key.encode.bytes ∈ tx'.written ∧
    rowDeadline (tx'.view.lookup (recordKey g.key.encode.bytes)) = 0 := by
  unfold storeCount at h
  split_ifs at h
  · exact nomatch h
  · cases h
    simp
  · cases h
    simp

theorem covered_membersTxn (now : Time) (g : Group o) :
    Covered (fun _ => True) (membersTxn now g) := by
  unfold membersTxn
  split
  case isTrue => exact .pure _ ()
  case isFalse =>
    have hl : Local g.key.encode _ := (Local.getTxn now g.key.encode).bind fun found =>
      (Local.ofExcept (readCount g.phase found)).bind fun previous =>
        (Local.updateMembers _ g.phase.adds g.members previous).bind fun count =>
          Local.storeCount g previous count
    refine .of_local hl fun tx a tx' h _ => ?_
    simp only [run_bind] at h
    have ⟨_, _, h⟩ := Except.bind_eq_ok.mp h
    have ⟨_, _, h⟩ := Except.bind_eq_ok.mp h
    have ⟨_, _, h⟩ := Except.bind_eq_ok.mp h
    have ⟨hw, hd⟩ := run_storeCount_eq h
    exact ⟨hw, fun d hz hd' => absurd (hd'.symm.trans hd) hz⟩

theorem local_touchGuard (now : Time) (c : Condition o) (found : Found) :
    Local c.key.encode (touchGuard now c found) := by
  unfold touchGuard
  split
  case h_1 =>
    split
    case h_1 => exact .pure false
    case h_2 =>
      split_ifs
      · exact .fail _
      · exact .pure false
      · exact (Local.write owned_recordKey _).bind fun _ => .pure true
  case h_2 =>
    split
    case h_1 => exact .pure false
    case h_2 => exact (Local.deleteTxn now c.key.encode).bind fun _ => .pure true

theorem found_live (h : found nano row = .ok (.live v)) : row = some (.value v) := by
  rcases row with _ | (v' | _)
  case none | some.mark => exact nomatch h
  case some.value =>
    simp only [found, decodeTiKVValue] at h
    split_ifs at h <;> cases h
    rfl

-- A guard that holds is written again with the value that it has.
theorem run_guard_eq
    (h : (getTxn now c.key.encode.bytes >>= touchGuard now c).run tx = .ok (true, tx')) :
    recordKey c.key.encode.bytes ∈ tx'.written ∧
    ∀ d, d ≠ 0 → rowDeadline (tx'.view.lookup (recordKey c.key.encode.bytes)) = d →
      rowDeadline (tx.view.lookup (recordKey c.key.encode.bytes)) = d := by
  rw [run_bind, getTxn, run, run_ofExcept] at h
  cases hf : found (unixNano now) (tx.view.lookup (recordKey c.key.encode.bytes))
  case error => rw [hf] at h; cases h
  case ok x =>
    rw [hf] at h
    change (touchGuard now c x).run tx = _ at h
    cases x
    case live =>
      have hrow := found_live hf
      cases hx : c.expected <;> simp only [touchGuard, hx] at h
      case none => cases h
      case some =>
        split_ifs at h
        · cases h
        · cases h
        · cases h
          refine ⟨by simp, fun d _ hd => ?_⟩
          rw [hrow]
          simpa using hd
    all_goals
      cases hx : c.expected <;> simp only [touchGuard, hx] at h
      case some => cases h
      case none =>
        rw [run_bind] at h
        obtain ⟨⟨_, tx₁⟩, h₁, h₂⟩ := Except.bind_eq_ok.mp h
        cases h₂
        obtain ⟨tx₂, rfl⟩ := run_deleteTxn_eq h₁
        refine ⟨List.mem_cons_self, fun d hz hd => absurd hd.symm ?_⟩
        simpa using hz

theorem covered_guard (now : Time) (c : Condition o) :
    Covered (· = true) (getTxn now c.key.encode.bytes >>= touchGuard now c) := by
  refine .of_local ((Local.getTxn now _).bind (local_touchGuard now c)) fun tx a tx' h ha => ?_
  have ⟨hw, hs⟩ := run_guard_eq (ha ▸ h)
  exact ⟨hw, fun d hz hd => .inl (hs d hz hd)⟩

theorem covered_conditionsTxn (now : Time) (cs : List (Condition o)) :
    Covered (· = true) (conditionsTxn now cs) := by
  induction cs
  case nil => exact .pure _ true
  case cons c cs hi =>
    unfold conditionsTxn
    rw [← bind_assoc]
    refine (covered_guard now c).bind ?next ?only
    case next => rintro _ rfl; exact hi
    case only =>
      rintro (_ | _) tx b tx' h hb
      · cases h; exact hb
      · rfl

theorem covered_mutationTxn (now : Time) (m : Mutation o) :
    Covered (· = true) (mutationTxn now m) := by
  refine (covered_conditionsTxn now m.conditions).bind ?next ?only
  case next =>
    rintro _ rfl
    exact (covered_entriesTxn now m.entries m.deleteKeys).seq fun _ =>
      (Covered.forM m.groups fun g _ => covered_membersTxn now g).seq fun _ => .pure _ true
  case only =>
    rintro (_ | _) tx b tx' h hb
    · cases h; exact hb
    · rfl

theorem written_conditionsTxn (h : (conditionsTxn now cs).run tx = .ok (true, tx')) :
    ∀ c ∈ cs, recordKey c.key.encode.bytes ∈ tx'.written := by
  induction cs generalizing tx
  case nil => simp
  case cons cs hi =>
    unfold conditionsTxn at h
    rw [← bind_assoc, run_bind] at h
    obtain ⟨⟨b, tx₁⟩, h₁, h₂⟩ := Except.bind_eq_ok.mp h
    cases b
    case false => cases h₂
    case true =>
      have hg := (covered_conditionsTxn now cs _ _ _ h₂ rfl).left.grows
      exact List.forall_mem_cons.mpr ⟨hg (run_guard_eq h₁).left, hi h₂⟩

theorem written_mutationTxn (h : (mutationTxn now m).run tx = .ok (true, tx')) :
    ∀ c ∈ m.conditions, recordKey c.key.encode.bytes ∈ tx'.written := by
  unfold mutationTxn at h
  rw [run_bind] at h
  have ⟨⟨b, tx₁⟩, h₁, h₂⟩ := Except.bind_eq_ok.mp h
  cases b
  case false => exact nomatch h₂
  case true =>
    exact fun c hc => Prog.written_subset h₂ (written_conditionsTxn h₁ c hc)

theorem written_entriesTxn (h : (entriesTxn now entries keys).run tx = .ok (a, tx')) :
    ∀ entry ∈ entries, recordKey entry.key.encode.bytes ∈ tx'.written := by
  unfold entriesTxn at h
  rw [run_bind] at h
  have ⟨⟨_, tx₁⟩, h₁, h₂⟩ := Except.bind_eq_ok.mp h
  refine fun entry he => Prog.written_subset h₂ ?_
  clear h₂ h
  induction entries generalizing tx
  case nil => exact absurd he List.not_mem_nil
  case cons x xs hi =>
    change (putEntry now x >>= fun _ => xs.forM (putEntry now)).run tx = _ at h₁
    rw [run_bind] at h₁
    have ⟨⟨_, tx₂⟩, hx, hxs⟩ := Except.bind_eq_ok.mp h₁
    rcases List.mem_cons.mp he with rfl | he
    case inr => exact hi hxs he
    case inl =>
      refine Prog.written_subset hxs ?_
      obtain ⟨tx₁, deadline, rfl⟩ := run_putEntry_eq hx
      split <;> simp

theorem run_getTxn_unchanged {found : Found}
    (h : (getTxn now b).run tx = .ok (found, tx')) : tx' = tx := by
  rw [getTxn, run, run_ofExcept] at h
  cases hf : TiKV.found (unixNano now) (tx.view.lookup (recordKey b)) <;> rw [hf] at h <;> cases h
  rfl

theorem findGuard_reads (now : Time) (guards : List (Entry o)) (tx : Tx Bytes Cell) {S : Set Bytes}
    (hs : ∀ g ∈ guards, recordKey g.key.encode.bytes ∈ S) :
    (findGuard now guards).ReadsIn S tx := by
  induction guards
  case nil => trivial
  case cons hi =>
    have ⟨hg, hgs⟩ := List.forall_mem_cons.mp hs
    refine Prog.ReadsIn.bind ⟨hg, Prog.readsIn_ofExcept ..⟩ fun found tx₁ h => ?_
    rw [run_getTxn_unchanged h]
    cases found
    case live =>
      dsimp only
      split <;> trivial
    all_goals exact hi hgs

theorem findGuard_unchanged {r : Option (Key o × Bytes)}
    (h : (findGuard now guards).run tx = .ok (r, tx')) : tx' = tx := by
  induction guards
  case nil => cases h; rfl
  case cons hi =>
    unfold findGuard at h
    rw [run_bind] at h
    obtain ⟨⟨found, tx₁⟩, h₁, h₂⟩ := Except.bind_eq_ok.mp h
    obtain rfl := run_getTxn_unchanged h₁
    cases found
    case live =>
      dsimp only at h₂
      split_ifs at h₂
      · cases h₂
      · cases h₂; rfl
    all_goals exact hi h₂

-- The guards are read first, and written as entries in the end.
theorem run_createTxn_eq (h : (createTxn now guards entries).run tx = .ok (none, tx')) :
    (entriesTxn now (entries ++ guards) []).run tx = .ok ((), tx') := by
  unfold createTxn at h
  rw [run_bind] at h
  have ⟨⟨conflict, tx₁⟩, h₁, h₂⟩ := Except.bind_eq_ok.mp h
  obtain rfl := findGuard_unchanged h₁
  cases conflict
  case some => exact nomatch h₂
  case none =>
    rw [run_bind] at h₂
    have ⟨⟨_, tx₂⟩, h₃, h₄⟩ := Except.bind_eq_ok.mp h₂
    cases h₄
    exact h₃

theorem written_createTxn (h : (createTxn now guards entries).run tx = .ok (none, tx')) :
    ∀ g ∈ guards, recordKey g.key.encode.bytes ∈ tx'.written :=
  fun g hg => written_entriesTxn (run_createTxn_eq h) g (List.mem_append_right _ hg)

theorem covered_createTxn (now : Time) (guards entries : List (Entry o)) :
    Covered (· = none) (createTxn now guards entries) := by
  rintro tx _ tx' h rfl
  have hr := run_createTxn_eq h
  have ⟨he, hreads⟩ := covered_entriesTxn now _ _ _ _ _ hr trivial
  refine ⟨he, Prog.ReadsIn.bind (findGuard_reads now guards tx fun g hg => ?_) fun r tx₁ h₁ => ?_⟩
  · exact ⟨g.key.encode, written_createTxn h g hg, .inl rfl⟩
  · obtain rfl := findGuard_unchanged h₁
    cases r
    case some => trivial
    case none => exact hreads.bind fun _ _ _ => trivial

theorem Covered.map (hp : Covered Q p) (f : α → β) (hq : ∀ a, Q' (f a) → Q a) :
    Covered Q' (f <$> p) := by
  refine hp.bind (fun a _ => .pure Q' (f a)) fun a tx b tx' h hb => hq a ?_
  cases h
  exact hb

theorem covered_writeTxn (now : Time) (w : Write o) : Covered (· = true) (writeTxn now w) := by
  have batch (entries : List (Entry o)) (keys : List (Key o)) :
      Covered (· = true) (batchTxn now entries keys) :=
    (covered_entriesTxn now entries keys).seq fun _ => .pure _ true
  cases w
  case set key value | delete key => exact batch _ _
  case batchMutate entries keys => exact batch entries keys
  case applyMutation m =>
    intro tx b tx' h hb
    rw [writeTxn, run_bind, run_ofExcept] at h
    cases hv : m.validate now <;> rw [hv] at h
    case error => exact nomatch h
    case ok =>
      have ⟨he, hr⟩ := covered_mutationTxn now m _ _ _ h hb
      refine ⟨he, (Prog.readsIn_ofExcept _ tx).bind fun _ tx₁ h₁ => ?_⟩
      rw [run_ofExcept, hv] at h₁
      cases h₁
      exact hr

theorem covered_requestTxn (now : Time) (r : Request o) :
    Covered (fun a => Answer.matched (.reply a)) (requestTxn now r) := by
  cases r
  case write w => exact (covered_writeTxn now w).map _ fun _ h => h
  case createIfAllAbsent guards entries =>
    rw [requestTxn]
    split
    case isTrue => exact fun _ _ _ h => nomatch h
    case isFalse =>
      refine (covered_createTxn now guards entries).map _ fun a h => ?_
      cases a
      case none => rfl
      case some => exact nomatch h

theorem covered_compareTxn (now : Time) (guard : Key o) (expected : Bytes)
    (entries : List (Entry o)) (keys : List (Key o)) :
    Covered (· = true) (compareTxn now guard expected entries keys) := by
  rw [compareTxn_eq]
  exact covered_mutationTxn now _

end Coverage

end GizClaw.KV.TiKV

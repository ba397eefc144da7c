import GizClaw.KV.TiKV
import GizClaw.KV.Theorems.Basic
import GizClaw.KV.Theorems.Logical

-- The TiKV store refines the logical one, up to expired records. As with Badger the rows of a key
-- lie under its own record key, member keys and index keys. Index rows never decide what a key
-- holds, so they may be left behind, but a record with a deadline must not be without one.

namespace GizClaw.KV.TiKV

open Prog (run_bind run run_ofExcept)
open Except (bind_ok map)

variable {o : Option Options} {now : Time} {db db' : DB} {tx : Tx Bytes Cell}
variable {e e' : EncKey} {m m' : Bytes} {d d' : Int}
variable {v : Value} {k : Bytes}

attribute [local simp] Tx.delete readCount Val.expired decodeTiKVValue Representable Logical.put
  touchGuard

section Layout

@[local simp]
def memberKey (e : EncKey) (m : Bytes) : Bytes :=
  memberPrefix e.bytes ++ m

@[simp]
theorem recordKey_inj : recordKey e.bytes = recordKey e'.bytes ↔ e = e' := by
  simp only [recordKey, List.append_cancel_left_eq, List.cons.injEq, true_and]
  exact ⟨EncKey.ext, congrArg _⟩

@[simp]
theorem memberKey_inj : memberKey e m = memberKey e' m' ↔ e = e' ∧ m = m' := by
  constructor
  case mp =>
    intro h
    simp only [memberKey, memberPrefix, List.append_assoc, List.append_cancel_left_eq,
      List.cons_append, List.cons.injEq, true_and] at h
    exact (Bytes.frame_append_injective e.lt_two_pow_64 e'.lt_two_pow_64 h).imp_left EncKey.ext
  case mpr => rintro ⟨rfl, rfl⟩; rfl

theorem uint64_lt (i : Int) : uint64 i < 256 ^ 8 := by
  unfold uint64
  omega

@[simp]
theorem expiryKey_inj :
    expiryKey e.bytes d = expiryKey e'.bytes d' ↔ e = e' ∧ uint64 d = uint64 d' := by
  constructor
  case mp =>
    intro h
    simp only [expiryKey, List.append_assoc, List.append_cancel_left_eq] at h
    have ⟨hd, he⟩ := List.append_inj h (by simp)
    exact ⟨EncKey.ext he, Bytes.bigEndian_injective (uint64_lt d) (uint64_lt d') hd⟩
  case mpr =>
    rintro ⟨rfl, hd⟩
    simp [expiryKey, hd]

@[simp]
theorem recordKey_ne_memberKey : recordKey e.bytes ≠ memberKey e' m := by
  simp [recordKey, memberPrefix]

@[simp]
theorem memberKey_ne_recordKey : memberKey e m ≠ recordKey e'.bytes :=
  recordKey_ne_memberKey.symm

@[simp]
theorem recordKey_ne_expiryKey : recordKey e.bytes ≠ expiryKey e'.bytes d := by
  simp [recordKey, expiryKey, expiryPrefix]

@[simp]
theorem expiryKey_ne_recordKey : expiryKey e.bytes d ≠ recordKey e'.bytes :=
  recordKey_ne_expiryKey.symm

@[simp]
theorem memberKey_ne_expiryKey : memberKey e m ≠ expiryKey e'.bytes d := by
  simp [memberPrefix, expiryKey, expiryPrefix]

@[simp]
theorem expiryKey_ne_memberKey : expiryKey e.bytes d ≠ memberKey e' m :=
  memberKey_ne_expiryKey.symm

@[simp]
theorem not_isPrefix_recordKey : ¬expiryPrefix <+: recordKey e.bytes := by
  simp [recordKey, expiryPrefix]

@[simp]
theorem not_isPrefix_memberKey : ¬expiryPrefix <+: memberKey e m := by
  simp [memberPrefix, expiryPrefix]

-- The rows that belong to a key.
def Owned (e : EncKey) (k : Bytes) : Prop :=
  k = recordKey e.bytes ∨ (∃ m, k = memberKey e m) ∨ ∃ d, k = expiryKey e.bytes d

end Layout

-- The members that have a row under the member prefix of a key.
def memberSet (db : DB) (e : EncKey) : Finset Bytes :=
  db.under (memberPrefix e.bytes)

@[simp]
theorem mem_memberSet : m ∈ memberSet db e ↔ memberKey e m ∈ db :=
  Rows.mem_under

-- The deadlines that `entriesTxn` lets through.
def Admitted (d : Int) : Prop :=
  0 < d ∧ d < 2 ^ 63

-- The rows of one key fit together: only a collection has members, and its counter counts them. A
-- record with a deadline is in the index.
inductive Fits : Option Cell → Finset Bytes → (Int → Prop) → Prop
  | free {ix : Int → Prop} : Fits none ∅ ix
  | record {ix : Int → Prop} (b : Bytes) (d : Int) (h : d ≠ 0 → Admitted d ∧ ix d) :
    Fits (some (.value ⟨0, d, .bytes b⟩)) ∅ ix
  | members {ix : Int → Prop} {s : Finset Bytes} (phase : Phase) (h : s ≠ ∅) :
    Fits (some (.value ⟨expectedKind phase, 0, .counter s.card⟩)) s ix

def Indexed (db : DB) (e : EncKey) (d : Int) : Prop :=
  expiryKey e.bytes d ∈ db

abbrev FitsAt (db : DB) (e : EncKey) : Prop :=
  Fits (db.lookup (recordKey e.bytes)) (memberSet db e) (Indexed db e)

structure Inv (db : DB) : Prop where
  index : ∀ k ∈ db, expiryPrefix <+: k → ∃ (e : EncKey) (d : Int), Admitted d ∧ k =
    expiryKey e.bytes d
  fits : ∀ e : EncKey, Fits (db.lookup (recordKey e.bytes)) (memberSet db e) (Indexed db e)

theorem empty_inv : Inv ∅ where
  index _ h := absurd h Finmap.notMem_empty
  fits e := by simpa [memberSet] using .free

section

variable (h : Inv db) (hv : db.lookup (recordKey e.bytes) = some (.value v))
include h hv

theorem Inv.indexed (hz : v.deadline ≠ 0) : expiryKey e.bytes v.deadline ∈ db := by
  have hf := h.fits e
  rw [hv] at hf
  generalize memberSet db e = s at hf
  cases hf
  case record hd => exact (hd hz).right
  case members => contradiction

theorem Inv.counter (hk : v.kind ≠ 0) :
    v.payload = .counter (db.keys.filter (memberPrefix e.bytes <+: ·)).card := by
  have hf := h.fits e
  have hc : (memberSet db e).card = _ := Rows.card_under
  rw [hv] at hf
  rw [← hc]
  generalize memberSet db e = s at hf
  cases hf
  case record => exact absurd rfl hk
  case members => rfl

end

theorem Inv.owner (h : Inv db) (hk : k ∈ db) (hp : memberPrefix e.bytes <+: k) :
    ∃ v, db.lookup (recordKey e.bytes) = some (.value v) ∧ v.kind ≠ 0 := by
  obtain ⟨m, rfl⟩ := hp
  have hf := h.fits e
  have hm : m ∈ memberSet db e := mem_memberSet.mpr hk
  generalize memberSet db e = s at hf hm
  generalize db.lookup (recordKey e.bytes) = row at hf
  cases hf
  case free | record => simp at hm
  case members phase hs => exact ⟨_, rfl, by cases phase <;> simp [expectedKind, Phase.ordered]⟩

@[local simp]
def Value.toVal (s : Finset Bytes) (v : Value) : Val :=
  if v.kind = 0 then
    .record v.payload.toBytes (if v.deadline = 0 then none else some v.deadline)
  else
    .members (v.kind = 2) s

@[local simp]
def Cell.toVal (s : Finset Bytes) : Cell → Option Val
  | .value v => some (v.toVal s)
  | .mark => none

def logical (db : DB) : Logical :=
  fun e => (db.lookup (recordKey e.bytes)).bind (Cell.toVal (memberSet db e))

@[local simp]
def Found.toVal (s : Finset Bytes) : Found → Option Val
  | .live v => some (v.toVal s)
  | _ => none

theorem expectedKind_eq (phase : Phase) :
    expectedKind phase ≠ 0 ∧ expectedKind phase ≤ 2 ∧
    decide (expectedKind phase = 2) = phase.ordered := by
  cases phase <;> decide

-- What is found in a row that can be decoded.
def classify (nano : Int) : Option Cell → Found
  | some (.value v) => if v.deadline ≠ 0 ∧ v.deadline ≤ nano then .expired v else .live v
  | _ => .absent

section Fits

variable {row : Option Cell} {s : Finset Bytes} {ix : Int → Prop}

theorem Fits.found_eq (h : Fits row s ix) (nano : Int) :
    found nano row = .ok (classify nano row) := by
  cases h
  case free => rfl
  case record d _ =>
    by_cases hd : d ≠ 0 ∧ d ≤ nano <;> simp [found, classify, hd]
  case members phase hs =>
    have ⟨hk, hk', _⟩ := expectedKind_eq phase
    have hk₃ : expectedKind phase ≠ 3 := by omega
    simp [found, classify, hk₃, hk', Payload.toBytes]

-- What is live is what the logical store shows.
theorem Fits.toVal_classify (h : Fits row s ix) (now : Time) :
    (classify now row).toVal s = (row.bind (Cell.toVal s)).filter (!·.expired now) := by
  cases h
  case free => rfl
  case record d _ =>
    rw [Option.bind_some, Cell.toVal, Option.filter_some]
    by_cases hz : d = 0
    case pos => simp [classify, hz]
    case neg =>
      by_cases hd : d ≤ now <;> simp [classify, hz, hd]
  case members phase hs =>
    have hk := (expectedKind_eq phase).left
    rw [Option.bind_some, Cell.toVal, Option.filter_some]
    simp [classify, hk]

-- A group meets members of its own kind, something else, or a free key.
theorem Fits.readCount_cases (h : Fits row s ix) (nano : Int) (phase : Phase) :
    (readCount phase (classify nano row) = .ok s.card ∧
      ((classify nano row).toVal s = none ∧ s = ∅ ∨
        (classify nano row).toVal s = some (.members phase.ordered s))) ∨
    (readCount phase (classify nano row) = .error .wrongType ∧
      ∃ v, (classify nano row).toVal s = some v ∧ v.kind ≠ some phase.ordered) := by
  have ⟨hk, _, ho⟩ := expectedKind_eq phase
  cases h
  case free => exact .inl ⟨rfl, .inl ⟨rfl, rfl⟩⟩
  case record b d _ =>
    by_cases hd : d ≠ 0 ∧ d ≤ nano
    case pos =>
      refine .inl ⟨?_, .inl ⟨?_, rfl⟩⟩ <;> simp [classify, hd]
    case neg =>
      refine .inr ⟨?_, .record b (if d = 0 then none else some d), ?_, by simp [Val.kind]⟩
      · simp [classify, hd, hk.symm]
      · simp [classify, hd, Payload.toBytes]
  case members phase' _ =>
    have ⟨hk', _, ho'⟩ := expectedKind_eq phase'
    by_cases hp : expectedKind phase' = expectedKind phase
    case pos =>
      refine .inl ⟨?_, .inr ?_⟩
      · simp [classify, hp, Payload.uint64]
      · simp [classify, hp, hk, ho]
    case neg =>
      refine .inr ⟨?_, .members phase'.ordered s, ?_, ?_⟩
      · simp [classify, hp]
      · simp [classify, hk', ho']
      · intro hv
        refine hp ?_
        simp only [Val.kind, Option.some.injEq] at hv
        simp [expectedKind, hv]

-- The index matters only at the deadline of the record.
theorem Fits.reindex (h : Fits row s ix)
    (hx : ∀ v, row = some (.value v) → v.deadline ≠ 0 → Admitted v.deadline → ix v.deadline →
      ix' v.deadline) : Fits row s ix' := by
  cases h
  case free => exact .free
  case record b d hd =>
    exact .record b d fun hz => ⟨(hd hz).left, hx _ rfl hz (hd hz).left (hd hz).right⟩
  case members phase hs => exact .members phase hs

theorem Fits.members_of_deadline (h : Fits (some (.value v)) s ix) (hd : v.deadline ≠ 0) :
    s = ∅ := by
  cases h
  case record => rfl
  case members => contradiction

theorem Fits.live_of_members (h : Fits row s ix) (hs : s ≠ ∅) (nano : Int) :
    ∃ v, classify nano row = .live v ∧ v.kind ≠ 0 := by
  cases h
  case free | record => contradiction
  case members phase _ => exact ⟨_, rfl, (expectedKind_eq phase).left⟩

end Fits

theorem live_eq (h : Inv db) (now : Time) (e : EncKey) : (logical db).live now e =
    (classify now (db.lookup (recordKey e.bytes))).toVal (memberSet db e) :=
  ((h.fits e).toVal_classify now).symm

-- `db'` differs from `db` at most in the rows of `e`.
structure Changes (e : EncKey) (db db' : DB) : Prop where
  frame : ∀ k, ¬Owned e k → db'.lookup k = db.lookup k
  index : ∀ k ∈ db', expiryPrefix <+: k → k ∈ db ∨ ∃ d, Admitted d ∧ k = expiryKey e.bytes d

namespace Changes

theorem refl : Changes e db db where
  frame _ _ := rfl
  index _ h _ := .inl h

theorem trans (c₁ : Changes e db₁ db₂) (c₂ : Changes e db₂ db₃) : Changes e db₁ db₃ where
  frame k h := (c₂.frame k h).trans (c₁.frame k h)
  index k h hp := (c₂.index k h hp).elim (c₁.index k · hp) .inr

section

variable (c : Changes e db db')
include c

theorem lookup_recordKey (h : e' ≠ e) :
    db'.lookup (recordKey e'.bytes) = db.lookup (recordKey e'.bytes) :=
  c.frame _ (by simp [Owned, h])

theorem memberSet_eq (h : e' ≠ e) : memberSet db' e' = memberSet db e' := by
  ext x
  simp only [mem_memberSet, Finmap.mem_iff]
  rw [c.frame _ (by simp [Owned, h])]

theorem indexed_eq (h : e' ≠ e) : Indexed db' e' = Indexed db e' := by
  ext d
  simp only [Indexed, Finmap.mem_iff]
  rw [c.frame _ (by simp [Owned, h])]

theorem insert (ho : Owned e k)
    (hi : expiryPrefix <+: k → ∃ d, Admitted d ∧ k = expiryKey e.bytes d) (cell : Cell) :
    Changes e db (db'.insert k cell) where
  frame i h := by
    have hk : i ≠ k := fun hk => h (hk ▸ ho)
    rw [Rows.lookup_insert, if_neg hk, c.frame i h]
  index i h hp := by
    rcases Finmap.mem_insert.mp h with hk | hk
    case inl => exact .inr (hk ▸ hi (hk ▸ hp))
    case inr => exact c.index i hk hp

theorem erase (ho : Owned e k) : Changes e db (db'.erase k) where
  frame i h := by
    have hk : i ≠ k := fun hk => h (hk ▸ ho)
    rw [Rows.lookup_erase, if_neg hk, c.frame i h]
  index i h hp := c.index i (Finmap.mem_erase.mp h).right hp

end

theorem inv (h : Inv db) (c : Changes e db db')
    (hf : Fits (db'.lookup (recordKey e.bytes)) (memberSet db' e) (Indexed db' e)) : Inv db' where
  index k hk hp := by
    rcases c.index k hk hp with hk | ⟨d, hd, rfl⟩
    case inl => exact h.index k hk hp
    case inr => exact ⟨e, d, hd, rfl⟩
  fits e' := by
    by_cases he : e' = e
    case pos => exact he ▸ hf
    case neg => rw [c.lookup_recordKey he, c.memberSet_eq he, c.indexed_eq he]; exact h.fits e'

theorem logical_eq (c : Changes e db db') :
    logical db' = Function.update (logical db) e
      ((db'.lookup (recordKey e.bytes)).bind (Cell.toVal (memberSet db' e))) := by
  ext1 e'
  by_cases he : e' = e
  case pos => subst he; simp [logical]
  case neg => simp [logical, he, c.lookup_recordKey he, c.memberSet_eq he]

end Changes

section Primitives

theorem owned_recordKey : Owned e (recordKey e.bytes) :=
  .inl rfl

theorem owned_memberKey : Owned e (memberKey e m) :=
  .inr (.inl ⟨m, rfl⟩)

theorem owned_expiryKey : Owned e (expiryKey e.bytes d) :=
  .inr (.inr ⟨d, rfl⟩)

theorem Changes.setRecord (c : Changes e db tx.view) (cell : Cell) :
    Changes e db (tx.set (recordKey e.bytes) cell).view :=
  c.insert owned_recordKey (by simp) cell

theorem Changes.deleteRecord (c : Changes e db tx.view) :
    Changes e db (tx.delete (recordKey e.bytes)).view :=
  c.erase owned_recordKey

@[simp]
theorem memberSet_insert_recordKey (cell : Cell) :
    memberSet (db.insert (recordKey e'.bytes) cell) e = memberSet db e := by
  ext x
  simp

@[simp]
theorem memberSet_erase_recordKey :
    memberSet (db.erase (recordKey e'.bytes)) e = memberSet db e := by
  ext x
  simp

@[simp]
theorem memberSet_insert_expiryKey (cell : Cell) :
    memberSet (db.insert (expiryKey e'.bytes d) cell) e = memberSet db e := by
  ext x
  simp

@[simp]
theorem memberSet_erase_expiryKey :
    memberSet (db.erase (expiryKey e'.bytes d)) e = memberSet db e := by
  ext x
  simp

@[simp]
theorem memberSet_insert_memberKey (cell : Cell) :
    memberSet (db.insert (memberKey e m) cell) e = insert m (memberSet db e) := by
  ext x
  simp

@[simp]
theorem memberSet_erase_memberKey :
    memberSet (db.erase (memberKey e m)) e = (memberSet db e).erase m := by
  ext x
  simp

theorem inRange_prefixEnd : Tx.InRange p (Bytes.prefixEnd p) k ↔ p <+: k := by
  unfold Tx.InRange
  constructor
  case mp =>
    rintro ⟨hl, hr⟩
    cases hp : Bytes.prefixEnd p
    case none => exact (Bytes.lt_or_isPrefix_of_prefixEnd hp k).resolve_left hl
    case some s => exact ((Bytes.lt_prefixEnd_iff hp).mp (hr s hp)).resolve_left hl
  case mpr =>
    rintro ⟨x, rfl⟩
    exact ⟨Bytes.not_append_lt p x, fun s hs => (Bytes.lt_prefixEnd_iff hs).mpr (.inr ⟨x, rfl⟩)⟩

end Primitives

section Records

theorem FitsAt.run_getTxn (h : FitsAt tx.view e) (now : Time) : (getTxn now e.bytes).run tx =
    .ok (classify (unixNano now) (tx.view.lookup (recordKey e.bytes)), tx) := by
  simp only [getTxn, run, h.found_eq, run_ofExcept]
  rfl

theorem run_getTxn (h : Inv tx.view) (now : Time) (e : EncKey) : (getTxn now e.bytes).run tx =
    .ok (classify (unixNano now) (tx.view.lookup (recordKey e.bytes)), tx) :=
  FitsAt.run_getTxn (h.fits e) now

theorem removeIndex_spec (tx : Tx Bytes Cell) (e : EncKey) (d : Int) :
    ∃ tx', (removeIndex e.bytes d).run tx = .ok ((), tx') ∧ Changes e tx.view tx'.view ∧
      tx'.view.lookup (recordKey e.bytes) = tx.view.lookup (recordKey e.bytes) ∧
      memberSet tx'.view e = memberSet tx.view e := by
  unfold removeIndex
  split
  case isTrue =>
    refine ⟨_, Prog.run_remove .., Changes.refl.erase owned_expiryKey, ?_, ?_⟩
    · simp
    · simp
  case isFalse => exact ⟨tx, rfl, .refl, rfl, rfl⟩

theorem mem_scan_memberPrefix :
    k ∈ tx.scan (memberPrefix e.bytes) (Bytes.prefixEnd (memberPrefix e.bytes)) ↔
    ∃ m ∈ memberSet tx.view e, k = memberKey e m := by
  simp only [Tx.scan, Rows.mem_scan, inRange_prefixEnd, mem_memberSet]
  constructor
  case mp =>
    rintro ⟨hk, m, rfl⟩
    exact ⟨m, hk, rfl⟩
  case mpr =>
    rintro ⟨m, hm, rfl⟩
    exact ⟨hm, m, rfl⟩

theorem removeMembers_spec (tx : Tx Bytes Cell) (e : EncKey) (found : Found)
    (hf : memberSet tx.view e ≠ ∅ → ∃ v, found = .live v ∧ v.kind ≠ 0) :
    ∃ tx', (removeMembers e.bytes found).run tx = .ok ((), tx') ∧ Changes e tx.view tx'.view ∧
      tx'.view.lookup (recordKey e.bytes) = tx.view.lookup (recordKey e.bytes) ∧
      memberSet tx'.view e = ∅ := by
  by_cases hl : ∃ v, found = .live v ∧ v.kind ≠ 0
  case neg =>
    have hs : memberSet tx.view e = ∅ := by
      by_contra hs
      exact hl (hf hs)
    refine ⟨tx, ?_, .refl, rfl, hs⟩
    unfold removeMembers
    split
    case h_2 => rfl
    case h_1 v =>
      rw [if_neg fun hk => hl ⟨v, rfl, hk⟩]
      rfl
  case pos =>
    obtain ⟨v, rfl, hk⟩ := hl
    have hr : (removeMembers e.bytes (.live v)).run tx = .ok ((), tx.deleteAll
        (tx.scan (memberPrefix e.bytes) (Bytes.prefixEnd (memberPrefix e.bytes)))) := by
      simp only [removeMembers, hk, ne_eq, not_false_eq_true, ↓reduceIte, run]
      exact Prog.run_forM_remove ..
    refine ⟨_, hr, ⟨fun k ho => ?frame, fun k hd _ => ?index⟩, ?record, ?members⟩
    case frame =>
      rw [Tx.lookup_deleteAll, if_neg]
      rw [mem_scan_memberPrefix]
      rintro ⟨m, -, rfl⟩
      exact ho owned_memberKey
    case index =>
      obtain ⟨cell, hd⟩ := Finmap.mem_iff.mp hd
      rw [Tx.lookup_deleteAll] at hd
      obtain ⟨_, hd⟩ := Option.ite_none_left_eq_some.mp hd
      exact .inl (Finmap.mem_of_lookup_eq_some hd)
    case record =>
      rw [Tx.lookup_deleteAll, if_neg]
      simp [mem_scan_memberPrefix]
    case members =>
      ext m
      simp [Finmap.mem_iff, Tx.lookup_deleteAll, mem_scan_memberPrefix]

-- Deleting a key never fails, and leaves neither a record nor members.
theorem deleteTxn_spec (h : FitsAt tx.view e) (now : Time) :
    ∃ tx', (deleteTxn now e.bytes).run tx = .ok ((), tx') ∧ Changes e tx.view tx'.view ∧
      tx'.view.lookup (recordKey e.bytes) = none ∧ memberSet tx'.view e = ∅ := by
  have ⟨tx₁, h₁, c₁, hr₁, hs₁⟩ := removeIndex_spec tx e
    (classify (unixNano now) (tx.view.lookup (recordKey e.bytes))).deadline
  have ⟨tx₂, h₂, c₂, hr₂, hs₂⟩ := removeMembers_spec tx₁ e
    (classify (unixNano now) (tx.view.lookup (recordKey e.bytes)))
    fun hs => h.live_of_members (hs₁ ▸ hs) _
  refine ⟨tx₂.delete (recordKey e.bytes), ?run, (c₁.trans c₂).deleteRecord, ?record, ?members⟩
  case run => simp [deleteTxn, h.run_getTxn, h₁, h₂]
  case record => simp
  case members => simp [hs₂]

-- What a running transaction sees, as a logical store.
def Shows (tx : Tx Bytes Cell) (σ : Logical) : Prop :=
  Inv tx.view ∧ logical tx.view = σ

theorem deleteTxn_shows (h : Inv tx.view) (now : Time) (e : EncKey) :
    ∃ tx', (deleteTxn now e.bytes).run tx = .ok ((), tx') ∧
      Shows tx' (Function.update (logical tx.view) e none) := by
  have ⟨tx', hr, c, hn, hs⟩ := deleteTxn_spec (h.fits e) now
  refine ⟨tx', hr, c.inv h ?_, c.logical_eq.trans ?_⟩
  · rw [hn, hs]
    exact .free
  · rw [hn, Option.bind_none]

theorem entryDeadline_cases (h : entryDeadline now entry = .ok d) :
    (d = 0 ∧ entry.deadline = none) ∨ (Admitted d ∧ entry.deadline = some d) := by
  unfold entryDeadline at h
  split at h
  case h_1 hd =>
    cases h
    exact .inl ⟨rfl, hd⟩
  case h_2 x hd =>
    split_ifs at h with hle hx
    cases h
    push Not at hx
    refine .inr ⟨⟨hx.left, ?_⟩, by rw [hd, hx.right]⟩
    unfold unixNano int64
    have := Int.bmod_lt (x := x) (m := 2 ^ 64) (by decide)
    omega

theorem putEntry_spec {entry : Entry o} (h : FitsAt tx.view entry.key.encode) (now : Time) :
    Except.Rel (fun r d => Changes entry.key.encode tx.view r.snd.view ∧
        r.snd.view.lookup (recordKey entry.key.encode.bytes) =
          some (.value ⟨0, d, .bytes entry.value⟩) ∧
        memberSet r.snd.view entry.key.encode = ∅ ∧
        (d ≠ 0 → Indexed r.snd.view entry.key.encode d))
      ((putEntry now entry).run tx) (entryDeadline now entry) := by
  have ⟨tx₁, h₁, c, _, hs⟩ := deleteTxn_spec h now
  cases hd : entryDeadline now entry
  case error err =>
    simp only [putEntry, hd, run_bind, run_ofExcept]
    exact .error err
  case ok d =>
    have c := c.setRecord (.value ⟨0, d, .bytes entry.value⟩)
    simp only [putEntry, hd, run_bind, run_ofExcept, h₁, map, bind_ok,
      Prog.run_write]
    split
    case isFalse hz => exact .ok ⟨c, by simp [Tx.set], by simp [Tx.set, hs], fun h => absurd h hz⟩
    case isTrue =>
      rcases entryDeadline_cases hd with ⟨rfl, _⟩ | ⟨ha, _⟩
      case inl => contradiction
      case inr =>
        have c := c.insert (owned_expiryKey (d := d)) (fun _ => ⟨d, ha, rfl⟩) .mark
        exact .ok ⟨c, by simp [Tx.set], by simp [Tx.set, hs],
          fun _ => by simp [Tx.set, Indexed]⟩

theorem putEntry_shows (h : Inv tx.view) (now : Time) (entry : Entry o) :
    Except.Rel (fun r _ => Shows r.snd ((logical tx.view).put entry)) ((putEntry now entry).run tx)
      (entryDeadline now entry) := by
  refine (putEntry_spec (h.fits entry.key.encode) now).mono_ok fun r d hd ⟨c, hrow, hs, hix⟩ => ?_
  have hc := entryDeadline_cases hd
  refine ⟨c.inv h ?_, c.logical_eq.trans ?_⟩
  · rw [hrow, hs]
    refine .record entry.value d fun hz => ⟨?_, hix hz⟩
    exact (hc.resolve_left fun h => hz h.left).left
  · rw [hrow]
    rcases hc with ⟨rfl, hn⟩ | ⟨ha, hn⟩
    · simp [Payload.toBytes, hn]
    · simp [Payload.toBytes, hn, ha.left.ne']

-- The deadlines of all entries, which are checked while the entries are written.
def checkEntries (now : Time) : List (Entry o) → Except Err Unit
  | [] => .ok ()
  | entry :: entries => do
    let _ ← entryDeadline now entry
    checkEntries now entries

theorem putEntries_shows (h : Inv tx.view) (now : Time) (entries : List (Entry o)) :
    Except.Rel (fun r σ => Shows r.snd σ) ((entries.forM (putEntry now)).run tx) (do
      checkEntries now entries
      return (logical tx.view).putAll entries) := by
  induction entries generalizing tx
  case nil => exact .ok ⟨h, rfl⟩
  case cons entry entries hi =>
    change Except.Rel _ ((putEntry now entry >>= fun _ => entries.forM (putEntry now)).run tx) _
    rw [run_bind, checkEntries, bind_assoc]
    refine (putEntry_shows h now entry).bind fun r d hs => ?_
    have hi := hi hs.left
    rw [hs.right] at hi
    exact hi

theorem deletes_shows (h : Inv tx.view) (now : Time) (keys : List (Key o)) :
    ∃ tx', (keys.forM fun key => deleteTxn now key.encode.bytes).run tx = .ok ((), tx') ∧
      Shows tx' ((logical tx.view).deleteAll keys) := by
  induction keys generalizing tx
  case nil => exact ⟨tx, rfl, h, rfl⟩
  case cons key keys hi =>
    have ⟨tx₁, h₁, hs⟩ := deleteTxn_shows h now key.encode
    have ⟨tx₂, h₂, hs₂⟩ := hi hs.left
    rw [hs.right] at hs₂
    refine ⟨tx₂, ?_, hs₂⟩
    change (deleteTxn now key.encode.bytes >>= fun _ =>
      keys.forM fun key => deleteTxn now key.encode.bytes).run tx = _
    rw [run_bind, h₁, bind_ok, h₂]

theorem entriesTxn_shows (h : Inv tx.view) (now : Time) (entries : List (Entry o))
    (keys : List (Key o)) :
    Except.Rel (fun r σ => Shows r.snd σ) ((entriesTxn now entries keys).run tx) (do
      checkEntries now entries
      return ((logical tx.view).putAll entries).deleteAll keys) := by
  rw [entriesTxn, run_bind]
  refine (putEntries_shows h now entries).bind_check fun r hs => ?_
  have ⟨tx', hr, hs'⟩ := deletes_shows hs.left now keys
  rw [hs.right] at hs'
  rw [hr]
  exact .ok hs'

end Records

section Groups

variable {g : Group o}

-- A loop over members that turns them into `s`, with their count as its result.
def Updates (e : EncKey) (s : Finset Bytes) (tx : Tx Bytes Cell)
    (result : Except Err (Nat × Tx Bytes Cell)) : Prop :=
  ∃ tx', result = .ok (s.card, tx') ∧ Changes e tx.view tx'.view ∧ memberSet tx'.view e = s

theorem Updates.after (h : Updates e s tx₁ result)
    (c : Changes e tx.view tx₁.view) : Updates e s tx result := by
  obtain ⟨tx', hr, c', hs⟩ := h
  exact ⟨tx', hr, c.trans c', hs⟩

-- The loop keeps the count in step with the member rows.
theorem updateMembers_updates (adds : Bool) (ms : List Bytes) (tx : Tx Bytes Cell) (e : EncKey) :
    Updates e (ms.foldl (fun s m => if adds then insert m s else s.erase m)
      (memberSet tx.view e)) tx
      ((updateMembers (memberPrefix e.bytes) adds ms (memberSet tx.view e).card).run tx) := by
  induction ms generalizing tx
  case nil => exact ⟨tx, rfl, .refl, rfl⟩
  case cons m ms hi =>
    have hm : (tx.view.lookup (memberKey e m)).isSome ↔ m ∈ memberSet tx.view e := by
      rw [mem_memberSet, Finmap.mem_iff, Option.isSome_iff_exists]
    have hn : (tx.view.lookup (memberKey e m)).isNone ↔ m ∉ memberSet tx.view e := by
      simp [← hm]
    have hk : memberPrefix e.bytes ++ m = memberKey e m := rfl
    simp only [updateMembers, run, hk, Bool.and_eq_true, Bool.not_eq_true', hm, hn,
      List.foldl_cons]
    by_cases hx : m ∈ memberSet tx.view e <;> cases adds
    case pos.true | neg.false => simpa [hx] using hi tx
    case neg.true =>
      have c : Changes e tx.view (tx.set (memberKey e m) .mark).view :=
        Changes.refl.insert owned_memberKey (by simp) .mark
      have hi := (hi (tx.set (memberKey e m) .mark)).after c
      simpa [hx, Tx.set, run] using hi
    case pos.false =>
      have c : Changes e tx.view (tx.delete (memberKey e m)).view :=
        Changes.refl.erase owned_memberKey
      have hi := (hi (tx.delete (memberKey e m))).after c
      have hz : memberSet tx.view e ≠ ∅ := Finset.ne_empty_of_mem hx
      simpa [hx, hz, Finset.card_erase_of_mem, run] using hi

theorem storeCount_shows (h : Inv db) (c : Changes g.key.encode db tx.view)
    (hs : memberSet tx.view g.key.encode = s) (previous : Nat) :
    Except.Rel (fun r σ => Shows r.snd σ) ((storeCount g previous s.card).run tx)
      (if g.Exceeds previous s.card then .error .memberLimit else
        .ok ((logical db).store g.key.encode g.phase.ordered s)) := by
  have hi : (0 < g.maxMembers ∧ g.maxMembers < s.card ∧ previous < s.card) ↔
      g.Exceeds previous s.card := .rfl
  unfold storeCount Logical.store
  simp only [hi]
  by_cases hx : g.Exceeds previous s.card
  case pos =>
    rw [if_pos hx, if_pos hx]
    exact .error _
  case neg =>
    rw [if_neg hx, if_neg hx]
    by_cases he : s = ∅
    case pos =>
      subst he
      have c := c.deleteRecord
      rw [if_pos Finset.card_empty, if_pos rfl]
      refine .ok ⟨c.inv h ?_, c.logical_eq.trans ?_⟩
      · simpa [hs] using .free
      · simp
    case neg =>
      obtain ⟨hk, _, ho⟩ := expectedKind_eq g.phase
      have c := c.setRecord (.value ⟨expectedKind g.phase, 0, .counter s.card⟩)
      rw [if_neg (by simpa using he), if_neg he]
      refine .ok ⟨c.inv h ?_, c.logical_eq.trans ?_⟩
      · simpa [Tx.set, hs] using .members g.phase he
      · simp [Tx.set, hs, hk, ho]

theorem membersTxn_shows (h : Inv tx.view) (now : Time) (g : Group o) :
    Except.Rel (fun r σ => Shows r.snd σ) ((membersTxn now g).run tx)
      ((logical tx.view).applyGroup (unixNano now) g) := by
  unfold membersTxn Logical.applyGroup Logical.base
  by_cases hn : g.members = []
  case pos =>
    rw [if_pos hn, if_pos hn]
    exact .ok ⟨h, rfl⟩
  case neg =>
    rw [if_neg hn, if_neg hn, live_eq h]
    simp only [run_bind, run_getTxn h, bind_ok, run_ofExcept]
    rcases (h.fits g.key.encode).readCount_cases (unixNano now) g.phase with
      ⟨hr, hv⟩ | ⟨hr, v, hv, hk⟩
    case inr =>
      rw [hr, hv]
      cases v
      case record => exact .error _
      case members ordered s =>
        have ho : ordered ≠ g.phase.ordered := fun ho => hk (by rw [Val.kind, ho])
        simp only [ho, ↓reduceIte]
        exact .error _
    case inl =>
      obtain ⟨tx', hu, c, hs⟩ := updateMembers_updates g.phase.adds g.members tx g.key.encode
      have hst := storeCount_shows h c hs (memberSet tx.view g.key.encode).card
      simp only [hr, map, bind_ok, hu]
      rcases hv with ⟨hv, he⟩ | hv
      case inl =>
        rw [he] at hst
        rw [hv, he]
        exact hst
      case inr =>
        rw [hv]
        simp only [↓reduceIte]
        exact hst

theorem groups_shows (h : Inv tx.view) (now : Time) (gs : List (Group o)) :
    Except.Rel (fun r σ => Shows r.snd σ) ((gs.forM (membersTxn now)).run tx)
      ((logical tx.view).applyGroups (unixNano now) gs) := by
  induction gs generalizing tx
  case nil => exact .ok ⟨h, rfl⟩
  case cons g gs hi =>
    change Except.Rel _ ((membersTxn now g >>= fun _ => gs.forM (membersTxn now)).run tx) _
    rw [run_bind]
    refine (membersTxn_shows h now g).bind fun r σ hs => ?_
    rw [← hs.right]
    exact hi hs.left

end Groups

section Conditions

theorem classify_live (h : classify nano row = .live v) : row = some (.value v) := by
  unfold classify at h
  split at h
  case h_1 =>
    split at h
    · contradiction
    · cases h; rfl
  case h_2 => contradiction

-- What the transaction shows now is what it showed before, up to expired records.
def Keeps (now : Time) (tx tx' : Tx Bytes Cell) : Prop :=
  Inv tx'.view ∧ Logical.Alike (unixNano now) (logical tx'.view) (logical tx.view)

-- Deleting a key under which nothing is live.
theorem deleteTxn_keeps (h : Inv tx.view) (hl : (logical tx.view).live (unixNano now) e = none) :
    ∃ tx', (deleteTxn now e.bytes).run tx = .ok ((), tx') ∧ Keeps now tx tx' := by
  have ⟨tx', hr, hi, hs⟩ := deleteTxn_shows h now e
  refine ⟨tx', hr, hi, funext fun e' => ?_⟩
  rw [hs, Logical.live_update]
  split
  case isTrue he => rw [he, hl, Option.filter_none]
  case isFalse => rfl

-- Writing a guard again changes nothing, and an expired record was not visible anyway.
theorem touchGuard_spec (h : Inv tx.view) (now : Time) (c : Condition o) :
    Except.Rel (fun r b => r.fst = b ∧ Keeps now tx r.snd)
      ((touchGuard now c
        (classify (unixNano now) (tx.view.lookup (recordKey c.key.encode.bytes)))).run tx)
      ((logical tx.view).checkConditions (unixNano now) [c]) := by
  have hl := live_eq h (unixNano now) c.key.encode
  have same : Keeps now tx tx := ⟨h, rfl⟩
  simp only [Logical.checkConditions, hl]
  cases hf : classify (unixNano now) (tx.view.lookup (recordKey c.key.encode.bytes))
  case live v =>
    have hrow := classify_live hf
    cases hx : c.expected
    case none =>
      simp only [touchGuard, hx]
      exact .ok ⟨rfl, same⟩
    case some x =>
      simp only [touchGuard, hx, Found.toVal, Value.toVal]
      by_cases hk : v.kind = 0
      case neg =>
        simp only [hk, ne_eq, not_false_eq_true, ↓reduceIte]
        exact .error _
      case pos =>
        by_cases hv : v.payload.toBytes = x <;> simp only [hk, hv, ne_eq, not_true_eq_false,
          not_false_eq_true, ↓reduceIte]
        case neg => exact .ok ⟨rfl, same⟩
        case pos =>
          refine .ok ⟨rfl, ?_⟩
          have hw : (tx.set (recordKey c.key.encode.bytes) (.value v)).view = tx.view :=
            Rows.insert_lookup hrow
          exact ⟨by simpa [hw] using h, congrArg (fun db => (logical db).live (unixNano now)) hw⟩
  all_goals
    cases hx : c.expected
    case some =>
      simp only [touchGuard, hx]
      exact .ok ⟨rfl, same⟩
    case none =>
      rw [hf] at hl
      obtain ⟨tx', hr, hk⟩ := deleteTxn_keeps h hl
      simp only [touchGuard, hx, run_bind, hr, bind_ok, Prog.run_pure, Found.toVal]
      exact .ok ⟨rfl, hk⟩

theorem conditionsTxn_spec (h : Inv tx.view) (now : Time) (cs : List (Condition o)) :
    Except.Rel (fun r b => r.fst = b ∧ Keeps now tx r.snd) ((conditionsTxn now cs).run tx)
      ((logical tx.view).checkConditions (unixNano now) cs) := by
  induction cs generalizing tx
  case nil => exact .ok ⟨rfl, h, rfl⟩
  case cons c cs hi =>
    rw [Logical.checkConditions_cons]
    simp only [conditionsTxn, run_bind, run_getTxn h, bind_ok]
    refine (touchGuard_spec h now c).bind fun r b ⟨hb, hk⟩ => ?_
    subst hb
    cases r.fst
    case false => exact .ok ⟨rfl, hk⟩
    case true =>
      have hi := hi hk.left
      rw [hk.right.checkConditions] at hi
      exact hi.mono fun r b ⟨hb, hk'⟩ => ⟨hb, hk'.left, hk'.right.trans hk.right⟩

end Conditions

section Calls

variable {σ : Logical} {entries : List (Entry o)}

-- How a callback of `update` ends: it asks for a rollback, or for a commit of what it shows.
def Ends (nano : Int) (r : Bool × Tx Bytes Cell) : Option Logical → Prop
  | none => r.fst = false
  | some σ => r.fst = true ∧ Inv r.snd.view ∧ Logical.Alike nano (logical r.snd.view) σ

-- The effects of a mutation on a store that checks deadlines entry by entry.
def mutate (now : Time) (σ : Logical) (entries : List (Entry o)) (keys : List (Key o))
    (gs : List (Group o)) : Except Err (Option Logical) := do
  checkEntries now entries
  some <$> ((σ.putAll entries).deleteAll keys).applyGroups (unixNano now) gs

section

variable (h : Inv tx.view) (ha : Logical.Alike (unixNano now) (logical tx.view) σ)
include h ha

theorem mutate_ends (entries : List (Entry o)) (keys : List (Key o)) (gs : List (Group o)) :
    Except.Rel (Ends (unixNano now))
      ((do entriesTxn now entries keys; gs.forM (membersTxn now); return true : Txn Bool).run tx)
      (mutate now σ entries keys gs) := by
  rw [mutate, run_bind]
  refine (entriesTxn_shows h now entries keys).bind_check fun r hs => ?_
  have hg := (groups_shows hs.left now gs).trans
    (hs.right ▸ ((ha.putAll entries).deleteAll keys).applyGroups gs) (T := fun r σ =>
      Inv r.snd.view ∧ Logical.Alike (unixNano now) (logical r.snd.view) σ)
    fun r σ τ hr hσ => ⟨hr.left, hr.right ▸ hσ⟩
  rw [run_bind, map_eq_pure_bind]
  exact hg.bind fun r σ hr => .ok ⟨rfl, hr⟩

theorem mutationTxn_ends (m : Mutation o) :
    Except.Rel (Ends (unixNano now)) ((mutationTxn now m).run tx) (do
      if ← σ.checkConditions (unixNano now) m.conditions then
        mutate now σ m.entries m.deleteKeys m.groups
      else
        return none) := by
  have hc := conditionsTxn_spec h now m.conditions
  rw [ha.checkConditions] at hc
  simp only [mutationTxn, run_bind]
  refine hc.bind fun r b ⟨hb, hk⟩ => ?_
  subst hb
  cases r.fst
  case false => exact .ok rfl
  case true => exact mutate_ends hk.left (hk.right.trans ha) m.entries m.deleteKeys m.groups

theorem batchTxn_ends (entries : List (Entry o)) (keys : List (Key o)) :
    Except.Rel (Ends (unixNano now)) ((batchTxn now entries keys).run tx)
      (mutate now σ entries keys ([] : List (Group o))) :=
  mutate_ends h ha entries keys ([] : List (Group o))

end

-- A guard on a collection is an error here, while the other stores report it as a conflict.
theorem run_findGuard (h : Inv tx.view) (now : Time) (guards : List (Entry o)) :
    (findGuard now guards).run tx =
    if (logical tx.view).collectionGuard (unixNano now) guards then .error .wrongType
    else .ok ((logical tx.view).findGuard (unixNano now) guards, tx) := by
  induction guards
  case nil => rfl
  case cons g gs hi =>
    simp only [findGuard, Logical.findGuard, Logical.collectionGuard, run_bind, run_getTxn h,
      bind_ok, live_eq h]
    cases classify (unixNano now) (tx.view.lookup (recordKey g.key.encode.bytes))
    case live v =>
      by_cases hk : v.kind = 0
      case pos => simp [hk, Val.kind]
      case neg =>
        simp only [ne_eq, hk, not_false_eq_true, ↓reduceIte, Found.toVal, Value.toVal, Val.kind,
          Option.isSome_some]
        rfl
    all_goals exact hi

-- How a conditional create ends: with a conflict, or with a commit of what it shows.
def CreateEnds (nano : Int) (r : Option (Key o × Bytes) × Tx Bytes Cell) :
    (Key o × Bytes) ⊕ Logical → Prop
  | .inl conflict => r.fst = some conflict
  | .inr σ =>
    r.fst = none ∧ Inv r.snd.view ∧ Logical.Alike nano (logical r.snd.view) σ

theorem createTxn_ends (h : Inv tx.view) (ha : Logical.Alike (unixNano now) (logical tx.view) σ)
    (guards entries : List (Entry o)) :
    Except.Rel (CreateEnds (unixNano now)) ((createTxn now guards entries).run tx)
      (if σ.collectionGuard (unixNano now) guards then .error .wrongType else
        match σ.findGuard (unixNano now) guards with
        | some conflict => .ok (.inl conflict)
        | none => do
          checkEntries now (entries ++ guards)
          return .inr (σ.putAll (entries ++ guards))) := by
  simp only [createTxn, run_bind, run_findGuard h, ha.collectionGuard, ha.findGuard]
  split
  case isTrue => exact .error _
  case isFalse =>
    rw [bind_ok]
    cases σ.findGuard (unixNano now) guards
    case some => exact .ok rfl
    case none =>
      rw [run_bind]
      refine (entriesTxn_shows h now (entries ++ guards) []).bind_check fun r hs => ?_
      exact .ok ⟨rfl, hs.left, hs.right ▸ ha.putAll (entries ++ guards)⟩

-- Comparing and mutating is a mutation with a single condition.
theorem compareTxn_eq (now : Time) (guard : Key o) (expected : Bytes) (entries : List (Entry o))
    (keys : List (Key o)) :
    compareTxn now guard expected entries keys =
    mutationTxn now ⟨[⟨guard, some expected⟩], entries, keys, [], [], [], []⟩ := by
  simp only [compareTxn, mutationTxn, conditionsTxn, bind_assoc]
  congr 1
  funext found
  cases found
  case live v =>
    by_cases hk : v.kind = 0 <;> by_cases hv : v.payload.toBytes = expected <;>
      simp [hk, hv, Mutation.groups]
  all_goals simp

theorem update_ok {α : Type} {matched : α → Bool} {fn : Txn α} {a : α}
    (h : fn.run (.start db) = .ok (a, tx)) :
    update matched fn db = (.ok a, if matched a then tx.view else db) := by
  have ho := (Prog.run_over (Tx.over_start db) h).commit_eq
  simp only [update, h, ho]

theorem update_error {α : Type} {matched : α → Bool} {fn : Txn α}
    (h : fn.run (.start db) = .error err) :
    update matched fn db = (.error (tiKVError "mutate" err), db) := by
  simp only [update, h]

theorem update_inv {α : Type} {matched : α → Bool} {fn : Txn α} (h : Inv db)
    (hf : ∀ a tx, fn.run (.start db) = .ok (a, tx) → matched a → Inv tx.view) :
    Inv (update matched fn db).snd := by
  cases hr : fn.run (.start db)
  case error => rwa [update_error hr]
  case ok r =>
    rw [update_ok hr]
    dsimp only
    split
    case isTrue hm => exact hf r.fst r.snd hr hm
    case isFalse => exact h

theorem inv_of_ends (h : Except.Rel (Ends nano) x y) (hx : x = .ok r)
    (hr : r.fst) : Inv r.snd.view := by
  cases h
  case error => contradiction
  case ok b he =>
    cases hx
    cases b
    case none => exact absurd hr (by simp [show r.fst = false from he])
    case some => exact he.right.left

theorem inv_of_createEnds (h : Except.Rel (CreateEnds nano) x y) (hx : x = .ok r)
    (hr : r.fst.isNone) : Inv r.snd.view := by
  cases h
  case error => contradiction
  case ok b he =>
    cases hx
    cases b
    case inl conflict => exact absurd hr (by simp [show r.fst = some conflict from he])
    case inr => exact he.right.left

theorem checkEntries_eq (hn : 0 ≤ now) (h : Representable entries) :
    checkEntries now entries = checkDeadlines now entries := by
  induction entries
  case nil => rfl
  case cons entry entries hi =>
    simp only [Representable, List.mem_cons, forall_eq_or_imp] at h
    unfold checkEntries checkDeadlines entryDeadline
    rw [hi h.right]
    cases hd : entry.deadline
    case none => rfl
    case some d =>
      have hd' := h.left d hd
      by_cases hle : d ≤ now
      case pos =>
        simp only [hle, ↓reduceIte]
        rfl
      case neg =>
        have hp : ¬(d ≤ 0 ∨ d ≠ d) := by
          have hlt := lt_of_not_ge hle
          rintro (hz | hz)
          · exact absurd (hn.trans_lt hlt) (not_lt_of_ge hz)
          · exact hz rfl
        simp only [hd', hle, hp, ↓reduceIte]
        rfl

theorem checkEntries_error (h : checkEntries now entries = .error err) :
    err = .invalidDeadline := by
  induction entries
  case nil => contradiction
  case cons hi =>
    unfold checkEntries entryDeadline at h
    split at h
    case h_1 => exact hi h
    case h_2 =>
      split_ifs at h
      · exact (Except.error.inj h).symm
      · exact (Except.error.inj h).symm
      · exact hi h

-- Errors that `update` hands to its caller as they are.
def Contract (err : Err) : Prop :=
  tiKVError "mutate" err = err

theorem mutate_contract (h : mutate now σ entries keys gs = .error err) : Contract err := by
  unfold mutate at h
  cases hc : checkEntries now entries <;> rw [hc] at h
  case error =>
    cases h
    rw [checkEntries_error hc]
    rfl
  case ok =>
    cases hg : ((σ.putAll entries).deleteAll keys).applyGroups (unixNano now) gs
    case ok => rw [hg] at h; contradiction
    case error =>
      rw [hg] at h
      cases h
      rcases Logical.applyGroups_error hg with h | h <;> rw [h] <;> rfl

-- The contents of a TiKV store show what the logical store shows.
structure Refines (now : Time) (db : DB) (σ : Logical) : Prop where
  inv : Inv db
  alike : Logical.Alike now (logical db) σ

variable (h : Refines now db σ)
include h

theorem update_refines {fn : Txn Bool} {y : Except Err (Option Logical)}
    (hf : Except.Rel (Ends now) (fn.run (.start db)) y)
    (hc : ∀ err, y = .error err → Contract err) : (update id fn db).fst = (settle σ y).fst ∧
    Refines now (update id fn db).snd (settle σ y).snd := by
  cases hr : fn.run (.start db)
  case error err =>
    rw [hr] at hf
    cases hf
    rw [update_error hr, hc err rfl]
    exact ⟨rfl, h⟩
  case ok r =>
    rw [hr] at hf
    rw [update_ok hr]
    cases hf
    case ok x he =>
      cases x
      case none =>
        have hb : r.fst = false := he
        simp only [hb, id_eq, Bool.false_eq_true, ↓reduceIte, settle, true_and]
        exact h
      case some =>
        have ⟨hb, hi, ha⟩ := he
        simp only [hb, id_eq, ↓reduceIte, settle, true_and]
        exact ⟨hi, ha⟩

theorem batchMutate_refines (hn : unixNano now = now) (hz : 0 ≤ now) (entries : List (Entry o))
    (keys : List (Key o)) (hd : Representable entries) :
    (batchMutate now entries keys db).fst = (settle σ (σ.batchMutate now entries keys)).fst ∧
    Refines now (batchMutate now entries keys db).snd
      (settle σ (σ.batchMutate now entries keys)).snd := by
  have hi : Inv (Tx.start db).view := h.inv
  have hb := batchTxn_ends hi (hn.symm ▸ h.alike) entries keys
  have hm : mutate now σ entries keys ([] : List (Group o)) = σ.batchMutate now entries keys := by
    rw [mutate, checkEntries_eq hz hd]
    rfl
  rw [hn] at hb
  rw [← hm]
  exact update_refines h hb fun err he => mutate_contract he

theorem applyMutation_refines (hn : unixNano now = now) (hz : 0 ≤ now) (m : Mutation o)
    (hd : Representable m.entries) :
    (applyMutation now m db).fst = (settle σ (σ.applyMutation now m)).fst ∧
    Refines now (applyMutation now m db).snd (settle σ (σ.applyMutation now m)).snd := by
  unfold applyMutation Logical.applyMutation
  cases hv : m.validate now
  case error => exact ⟨rfl, h⟩
  case ok =>
    have v := Mutation.validate_valid hv
    have hi : Inv (Tx.start db).view := h.inv
    have hb := mutationTxn_ends hi (hn.symm ▸ h.alike) m
    have hm : mutate now σ m.entries m.deleteKeys m.groups =
        some <$> ((σ.putAll m.entries).deleteAll m.deleteKeys).applyGroups now m.groups := by
      rw [mutate, checkEntries_eq hz hd, checkDeadlines_ok_iff.mpr v.deadlines, hn]
      rfl
    rw [hn] at hb
    rw [bind_ok, ← hm]
    refine update_refines h hb fun err he => ?_
    cases hc : σ.checkConditions now m.conditions <;> rw [hc] at he
    case error =>
      cases he
      rw [Logical.checkConditions_error hc]
      rfl
    case ok b =>
      cases b
      case false => contradiction
      case true => exact mutate_contract he

theorem call_refines (hn : unixNano now = now) (hz : 0 ≤ now) (w : Write o)
    (hd : Representable w.entries) : (call now w db).fst = (σ.call ⟨now, w⟩).fst ∧
    Refines now (call now w db).snd (σ.call ⟨now, w⟩).snd := by
  cases w
  case set key value =>
    exact batchMutate_refines h hn hz [⟨key, value, none⟩] [] (by simp)
  case delete key =>
    exact batchMutate_refines h hn hz ([] : List (Entry o)) [key] (by simp)
  case batchMutate entries keys => exact batchMutate_refines h hn hz entries keys hd
  case applyMutation m => exact applyMutation_refines h hn hz m hd

-- A guard on a collection is answered with an error. Nothing changes then, as with a conflict.
theorem createIfAllAbsent_refines (hn : unixNano now = now) (hz : 0 ≤ now)
    {guards entries : List (Entry o)} (hd : Representable (guards ++ entries)) :
    createReply <$> (createIfAllAbsent now guards entries db).fst =
      (if σ.collectionGuard now guards then .error .wrongType else
        (settleCreate σ (σ.createIfAllAbsent now guards entries)).fst) ∧
    Refines now (createIfAllAbsent now guards entries db).snd
      (settleCreate σ (σ.createIfAllAbsent now guards entries)).snd := by
  have hi : Inv (Tx.start db).view := h.inv
  have hb := createTxn_ends hi (hn.symm ▸ h.alike) guards entries
  have hr : Representable (entries ++ guards) := by
    simp only [Representable, List.mem_append, or_comm] at hd ⊢
    exact hd
  rw [hn, checkEntries_eq hz hr] at hb
  unfold createIfAllAbsent Logical.createIfAllAbsent
  by_cases hg : guards = []
  case pos =>
    subst hg
    exact ⟨rfl, h⟩
  case neg =>
    simp only [hg, ↓reduceIte]
    by_cases hcg : σ.collectionGuard now guards
    case pos =>
      have ⟨conflict, hf⟩ := Logical.findGuard_of_collectionGuard hcg
      rw [if_pos hcg] at hb ⊢
      rw [update_error hb.eq_error, hf]
      exact ⟨rfl, h⟩
    case neg =>
      rw [if_neg hcg] at hb ⊢
      cases hf : σ.findGuard now guards <;> simp only [hf] at hb ⊢
      case some conflict =>
        have ⟨⟨x, tx'⟩, hrun, hx⟩ := hb.exists_of_ok
        cases (show x = some conflict from hx)
        rw [update_ok hrun]
        exact ⟨rfl, h⟩
      case none =>
        cases hc : checkDeadlines now (entries ++ guards) <;> rw [hc] at hb
        case error =>
          rw [update_error hb.eq_error, checkDeadlines_error hc]
          exact ⟨rfl, h⟩
        case ok =>
          have ⟨⟨x, tx'⟩, hrun, hx, hi, hl⟩ := hb.exists_of_ok
          cases (show x = none from hx)
          rw [update_ok hrun]
          exact ⟨rfl, hi, hl⟩

theorem request_refines (hn : unixNano now = now) (hz : 0 ≤ now) (r : Request o)
    (hd : Representable r.entries) :
    (request now r db).fst =
      (if σ.collectionGuard now r.guards then .error .wrongType else (σ.request now r).fst) ∧
    Refines now (request now r db).snd (σ.request now r).snd := by
  cases r
  case write w =>
    have ⟨hr, hs⟩ := call_refines h hn hz w hd
    exact ⟨congrArg (Reply.applied <$> ·) hr, hs⟩
  case createIfAllAbsent => exact createIfAllAbsent_refines h hn hz hd

end Calls

section Reads

variable {σ : Logical} (key : Key o)

theorem Refines.live_eq (h : Refines now db σ) (e : EncKey) :
    σ.live now e = (classify now (db.lookup (recordKey e.bytes))).toVal (memberSet db e) := by
  rw [← h.alike.live, TiKV.live_eq h.inv]

theorem lookup_eq (h : Inv db) (hn : unixNano now = now) :
    lookup now db key = .ok (classify now (db.lookup (recordKey key.encode.bytes))) := by
  rw [lookup, hn, (h.fits key.encode).found_eq]

theorem get_eq (h : Refines now db σ) (hn : unixNano now = now) :
    get now db key = σ.get now key.encode := by
  simp only [get, Logical.get, lookup_eq key h.inv hn, h.live_eq, bind_ok]
  cases classify now (db.lookup (recordKey key.encode.bytes))
  case live v => by_cases hk : v.kind = 0 <;> simp [hk]
  all_goals rfl

theorem live_cases (h : Inv db) (hv : classify now (db.lookup (recordKey e.bytes)) = .live v) :
    v.kind = 0 ∨ v.kind = 1 ∨ v.kind = 2 := by
  have hf := h.fits e
  rw [classify_live hv] at hf
  generalize memberSet db e = s at hf
  cases hf
  case record => exact .inl rfl
  case members => unfold expectedKind; split <;> simp

theorem hasMember_eq (h : Refines now db σ) (hn : unixNano now = now) (m : Bytes) :
    hasMember now db key m = σ.hasMember now key.encode m := by
  have hm : (db.lookup (memberPrefix key.encode.bytes ++ m)).isSome =
      decide (m ∈ memberSet db key.encode) := by
    rw [Bool.eq_iff_iff, decide_eq_true_eq, mem_memberSet, Finmap.mem_iff,
      Option.isSome_iff_exists]
    rfl
  simp only [hasMember, Logical.hasMember, lookup_eq key h.inv hn, h.live_eq, bind_ok, hm]
  cases hv : classify now (db.lookup (recordKey key.encode.bytes))
  case live =>
    rcases live_cases h.inv hv with hk | hk | hk <;> simp [hk]
  all_goals rfl

-- The range of the scan is the part of the member rows that the query contains.
theorem mem_range {q : OrderedRange} :
    k ∈ db ∧ Tx.InRange
      (q.after.elim (memberPrefix e.bytes) fun a => memberPrefix e.bytes ++ a ++ [0])
      (q.before.elim (Bytes.prefixEnd (memberPrefix e.bytes)) fun b =>
        some (memberPrefix e.bytes ++ b)) k ↔
    ∃ m ∈ memberSet db e, q.Contains m ∧ k = memberKey e m := by
  have hstart (m : Bytes) : ¬memberKey e m <
      q.after.elim (memberPrefix e.bytes) (fun a => memberPrefix e.bytes ++ a ++ [0]) ↔
      ∀ a ∈ q.after, a < m := by
    cases q.after
    case none => simpa [memberKey] using Bytes.not_append_lt _ m
    case some =>
      simp only [Option.elim_some, memberKey, List.append_assoc, Bytes.append_lt_append_iff,
        Bytes.not_lt_append_zero, Option.mem_some_iff, forall_eq']
  have hstop (m : Bytes) : (∀ s ∈ q.before.elim (Bytes.prefixEnd (memberPrefix e.bytes))
      (fun b => some (memberPrefix e.bytes ++ b)), memberKey e m < s) ↔
      ∀ b ∈ q.before, m < b := by
    cases q.before
    case none =>
      refine iff_of_true (fun s hs => ?_) (by simp)
      exact (Bytes.lt_prefixEnd_iff hs).mpr (.inr ⟨m, rfl⟩)
    case some => simp [memberKey, Bytes.append_lt_append_iff]
  constructor
  case mp =>
    rintro ⟨hk, hge, hlt⟩
    have hp : ¬k < memberPrefix e.bytes := by
      intro hl
      refine hge ?_
      cases q.after
      case none => exact hl
      case some =>
        rw [Option.elim_some, List.append_assoc]
        exact Bytes.lt_append_of_lt hl _
    have hp : memberPrefix e.bytes <+: k := by
      cases hb : q.before <;> rw [hb] at hlt
      case none => exact inRange_prefixEnd.mp ⟨hp, hlt⟩
      case some => exact Bytes.isPrefix_of_lt_append hp (hlt _ rfl)
    obtain ⟨m, rfl⟩ := hp
    exact ⟨m, mem_memberSet.mpr hk, ⟨(hstart m).mp hge, (hstop m).mp hlt⟩, rfl⟩
  case mpr =>
    rintro ⟨m, hm, ⟨ha, hb⟩, rfl⟩
    exact ⟨mem_memberSet.mp hm, (hstart m).mpr ha, (hstop m).mpr hb⟩

theorem scan_range (db : DB) (e : EncKey) (q : OrderedRange) :
    ((Tx.start db).scan
      (q.after.elim (memberPrefix e.bytes) fun a => memberPrefix e.bytes ++ a ++ [0])
      (q.before.elim (Bytes.prefixEnd (memberPrefix e.bytes)) fun b =>
        some (memberPrefix e.bytes ++ b))).map (·.drop (memberPrefix e.bytes).length) =
    ((memberSet db e).filter q.Contains).sort (· ≤ ·) := by
  refine List.Pairwise.eq_of_mem_iff ?_ (Finset.sortedLT_sort _).pairwise fun m => ?_
  · rw [List.pairwise_map]
    refine (Rows.scan_pairwise ..).imp_of_mem fun {k₁ k₂} h₁ h₂ hlt => ?_
    obtain ⟨m₁, -, -, rfl⟩ := mem_range.mp ((Rows.mem_scan ..).mp h₁)
    obtain ⟨m₂, -, -, rfl⟩ := mem_range.mp ((Rows.mem_scan ..).mp h₂)
    simpa [memberKey, Bytes.append_lt_append_iff] using hlt
  · simp only [List.mem_map, Tx.scan, Rows.mem_scan, Tx.start, mem_range, Finset.mem_sort,
      Finset.mem_filter]
    constructor
    case mp =>
      rintro ⟨_, ⟨x, hx, hc, rfl⟩, rfl⟩
      rw [memberKey, List.drop_left]
      exact ⟨hx, hc⟩
    case mpr =>
      rintro ⟨hm, hc⟩
      exact ⟨_, ⟨m, hm, hc, rfl⟩, by rw [memberKey, List.drop_left]⟩

-- An empty range is not scanned.
theorem filter_of_empty_range {q : OrderedRange}
    (h : ¬q.after.elim (memberPrefix e.bytes) (fun a => memberPrefix e.bytes ++ a ++ [0]) <
      (q.before.elim (Bytes.prefixEnd (memberPrefix e.bytes)) fun b =>
        some (memberPrefix e.bytes ++ b)).getD []) : (memberSet db e).filter q.Contains = ∅ := by
  refine Finset.eq_empty_of_forall_notMem fun m hm => h ?_
  have ⟨hm, hc⟩ := Finset.mem_filter.mp hm
  have ⟨_, hge, hlt⟩ := mem_range.mpr ⟨m, hm, hc, rfl⟩
  have ⟨s, hs⟩ : ∃ s, q.before.elim (Bytes.prefixEnd (memberPrefix e.bytes))
      (fun b => some (memberPrefix e.bytes ++ b)) = some s := by
    cases q.before
    case none => exact Bytes.prefixEnd_cons (by decide) _
    case some => exact ⟨_, rfl⟩
  rw [hs, Option.getD_some]
  exact lt_of_le_of_lt (not_lt.mp hge) (hlt s hs)

variable (h : Refines now db σ) (hn : unixNano now = now)
include h hn

theorem members_eq (ordered : Bool) (q : OrderedRange) :
    members now db key (if ordered then 2 else 1) q =
    match σ.live now key.encode with
    | none => .ok []
    | some (.record ..) => .error .wrongType
    | some (.members b s) =>
      if b ≠ ordered then .error .wrongType else
        let ms := (s.filter q.Contains).sort (· ≤ ·)
        .ok (if 0 < q.limit then ms.take q.limit.toNat else ms) := by
  simp only [members, lookup_eq key h.inv hn, h.live_eq, bind_ok]
  cases hv : classify now (db.lookup (recordKey key.encode.bytes))
  case live v =>
    have hc : (v.kind = 0 ∧ v.kind ≠ (if ordered then 2 else 1)) ∨
        v.kind ≠ 0 ∧ (v.kind = (if ordered then 2 else 1) ↔ decide (v.kind = 2) = ordered) := by
      rcases live_cases h.inv hv with hk | hk | hk <;> cases ordered <;> simp [hk]
    rcases hc with ⟨hk, hk'⟩ | ⟨hk, hk'⟩
    case inl =>
      dsimp only
      rw [if_pos hk']
      simp [hk]
    case inr =>
      simp only [Found.toVal, Value.toVal, hk, hk', ne_eq, ↓reduceIte]
      split
      case isTrue => rfl
      case isFalse =>
        split
        case isTrue hr => simp [filter_of_empty_range hr]
        case isFalse =>
          rw [← scan_range db key.encode q]
          split
          case isTrue => rw [List.map_take]
          case isFalse => rfl
  all_goals rfl

theorem listMembers_eq :
    List.toFinset <$> listMembers now db key = σ.listMembers now key.encode := by
  have hm := members_eq key h hn false ⟨none, none, 0⟩
  simp only [Bool.false_eq_true, ↓reduceIte] at hm
  rw [listMembers, hm, Logical.listMembers]
  rcases σ.live now key.encode with _ | (_ | ⟨_ | _, s⟩)
  case some.members.false => simp [OrderedRange.Contains]
  all_goals rfl

theorem rangeOrderedMembers_eq (q : OrderedRange) :
    rangeOrderedMembers now db key q = σ.rangeOrderedMembers now key.encode q := by
  have hm := members_eq key h hn true q
  simp only [↓reduceIte] at hm
  rw [rangeOrderedMembers, hm, Logical.rangeOrderedMembers, OrderedRange.validate]
  split
  case isTrue => rfl
  case isFalse hq =>
    rcases σ.live now key.encode with _ | (_ | ⟨_ | _, s⟩)
    case some.members.true => simp [lt_of_not_ge hq]
    all_goals rfl

end Reads

end GizClaw.KV.TiKV

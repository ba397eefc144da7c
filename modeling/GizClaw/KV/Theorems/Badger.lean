import GizClaw.Lib.Machine
import GizClaw.KV.Badger
import GizClaw.KV.Theorems.Memory

-- The Badger store refines the logical one. All rows that belong to one logical key lie under its
-- record key and its member keys, and no operation on that key touches any other row. So what is
-- there to maintain is one relation per key between the key's own row and its set of member rows.

namespace GizClaw.KV.Badger

open Machine (run run_simulates)

variable {o : Option Options} {u : Ttl} {now : Time} {db db' : DB} {e e' : EncKey} {m m' : Bytes}

attribute [local simp] orderedCollectionMeta collectionMeta Logical.putAll Val.expired Logical.put

section Layout

def memberKey (e : EncKey) (m : Bytes) : Bytes :=
  memberPrefix e.bytes ++ m

@[simp]
theorem recordKey_inj : recordKey e = recordKey e' ↔ e = e' := by
  simp only [recordKey, List.cons.injEq, true_and]
  exact ⟨EncKey.ext, congrArg _⟩

@[simp]
theorem memberKey_inj : memberKey e m = memberKey e' m' ↔ e = e' ∧ m = m' := by
  constructor
  case mp =>
    intro h
    simp only [memberKey, memberPrefix, List.cons_append, List.cons.injEq, true_and] at h
    exact (Bytes.frame_append_injective e.lt_two_pow_64 e'.lt_two_pow_64 h).imp_left EncKey.ext
  case mpr => rintro ⟨rfl, rfl⟩; rfl

@[simp]
theorem recordKey_ne_memberKey : recordKey e ≠ memberKey e' m := by
  simp [recordKey, memberKey, memberPrefix]

@[simp]
theorem memberKey_ne_recordKey : memberKey e m ≠ recordKey e' :=
  recordKey_ne_memberKey.symm

theorem memberPrefix_isPrefix_iff : memberPrefix e.bytes <+: k ↔ ∃ m, memberKey e m = k :=
  Iff.rfl

end Layout

-- The members that have a row under the member prefix of a key.
def memberSet (db : DB) (e : EncKey) : Finset Bytes :=
  db.under (memberPrefix e.bytes)

@[simp]
theorem mem_memberSet : m ∈ memberSet db e ↔ memberKey e m ∈ db :=
  Rows.mem_under

-- The rows of one key fit together: only a collection has members, and its counter counts them.
@[local simp]
def Fits : Option Row → Finset Bytes → Prop
  | none, s => s = ∅
  | some row, s =>
    (row.userMeta = 0 ∧ (∃ b, row.value = .bytes b) ∧ s = ∅) ∨
    ((row.userMeta = collectionMeta ∨ row.userMeta = orderedCollectionMeta) ∧
      row.expiresAt = none ∧ row.value = .counter s.card ∧ s ≠ ∅)

structure Inv (db : DB) : Prop where
  shape : ∀ k ∈ db, (∃ e, k = recordKey e) ∨ (∃ e m, k = memberKey e m)
  plain : ∀ e m, ∀ row ∈ db.lookup (memberKey e m), row = memberRow
  fits : ∀ e, Fits (db.lookup (recordKey e)) (memberSet db e)

theorem empty_inv : Inv ∅ where
  shape _ h := absurd h Finmap.notMem_empty
  plain _ _ _ h := by simp at h
  fits _ := by simp [memberSet]

def Row.toVal (u : Ttl) (s : Finset Bytes) (row : Row) : Val :=
  if row.userMeta = 0 then
    .record row.value.toBytes (row.expiresAt.map (· * u.unit))
  else
    .members (row.userMeta = orderedCollectionMeta) s

def logical (u : Ttl) (db : DB) : Logical :=
  fun e => (db.lookup (recordKey e)).map (Row.toVal u (memberSet db e))

-- `db'` differs from `db` at most in the rows of `e`.
structure Changes (e : EncKey) (db db' : DB) : Prop where
  frame : ∀ k, k ≠ recordKey e → (∀ m, k ≠ memberKey e m) → db'.lookup k = db.lookup k
  plain : ∀ m, ∀ row ∈ db'.lookup (memberKey e m), row = memberRow

namespace Changes

theorem refl (h : Inv db) : Changes e db db where
  frame _ _ _ := rfl
  plain := h.plain e

section

variable (c : Changes e db db')
include c

theorem lookup_recordKey (h : e' ≠ e) : db'.lookup (recordKey e') = db.lookup (recordKey e') :=
  c.frame _ (by simpa using h) (by simp)

theorem memberSet_eq (h : e' ≠ e) : memberSet db' e' = memberSet db e' := by
  ext x
  simp only [mem_memberSet, Finmap.mem_iff]
  rw [c.frame _ (by simp) (by simp [h])]

theorem insert_recordKey (row : Row) : Changes e db (db'.insert (recordKey e) row) where
  frame k hr hm := by simp [hr, c.frame k hr hm]
  plain m row h := c.plain m row (by simpa [Rows.lookup_insert] using h)

theorem erase_recordKey : Changes e db (db'.erase (recordKey e)) where
  frame k hr hm := by simp [hr, c.frame k hr hm]
  plain m row h := c.plain m row (by simpa [Rows.lookup_erase] using h)

theorem insert_memberKey (m : Bytes) : Changes e db (db'.insert (memberKey e m) memberRow) where
  frame k hr hm := by simp [hm m, c.frame k hr hm]
  plain x row h := by
    rw [Rows.lookup_insert] at h
    split at h
    case isTrue => exact (Option.some.inj h).symm
    case isFalse => exact c.plain x row h

theorem erase_memberKey (m : Bytes) : Changes e db (db'.erase (memberKey e m)) where
  frame k hr hm := by simp [hm m, c.frame k hr hm]
  plain x row h := by
    rw [Rows.lookup_erase] at h
    have ⟨_, h⟩ := Option.ite_none_left_eq_some.mp h
    exact c.plain x row h

end

theorem inv (h : Inv db) (c : Changes e db db')
    (hf : Fits (db'.lookup (recordKey e)) (memberSet db' e)) : Inv db' where
  shape k hk := by
    by_cases hr : k = recordKey e
    case pos => exact .inl ⟨e, hr⟩
    by_cases hm : ∃ m, k = memberKey e m
    case pos => exact .inr ⟨e, hm⟩
    refine h.shape k ?_
    rw [Finmap.mem_iff] at hk ⊢
    rwa [← c.frame k hr (by simpa using hm)]
  plain e' m row hrow := by
    by_cases he : e' = e
    case pos => exact c.plain m row (he ▸ hrow)
    case neg =>
      rw [c.frame _ (by simp) (by simp [he])] at hrow
      exact h.plain e' m row hrow
  fits e' := by
    by_cases he : e' = e
    case pos => exact he ▸ hf
    case neg => rw [c.lookup_recordKey he, c.memberSet_eq he]; exact h.fits e'

theorem logical_eq (c : Changes e db db') :
    logical u db' = Function.update (logical u db) e
      ((db'.lookup (recordKey e)).map (Row.toVal u (memberSet db' e))) := by
  ext1 e'
  by_cases he : e' = e
  case pos => subst he; simp [logical]
  case neg => simp [logical, he, c.lookup_recordKey he, c.memberSet_eq he]

end Changes

@[simp]
theorem memberSet_insert_recordKey (row : Row) :
    memberSet (db.insert (recordKey e') row) e = memberSet db e := by
  ext x
  simp

@[simp]
theorem memberSet_erase_recordKey : memberSet (db.erase (recordKey e')) e = memberSet db e := by
  ext x
  simp

@[simp]
theorem memberSet_insert_memberKey (row : Row) :
    memberSet (db.insert (memberKey e m) row) e = insert m (memberSet db e) := by
  ext x
  simp

@[simp]
theorem memberSet_erase_memberKey :
    memberSet (db.erase (memberKey e m)) e = (memberSet db e).erase m := by
  ext x
  simp

theorem item_memberKey (u : Ttl) (now : Time)
    (h : ∀ row ∈ db.lookup (memberKey e m), row = memberRow) :
    (item u now db (memberKey e m)).isSome ↔ m ∈ memberSet db e := by
  rw [mem_memberSet, Finmap.mem_iff, item]
  cases hl : db.lookup (memberKey e m)
  case none => simp
  case some row => simp [h row hl, memberRow, Option.filter_some]

-- Only records expire, so what a transaction sees of a key is what is logically live.
theorem live_eq (h : Inv db) : (logical u db).live now e =
    (item u now db (recordKey e)).map (Row.toVal u (memberSet db e)) := by
  simp only [Logical.live, logical, item]
  have hf := h.fits e
  cases hl : db.lookup (recordKey e) <;> simp only [hl, Fits] at hf ⊢
  case none => rfl
  case some row =>
    have hx : (row.toVal u (memberSet db e)).expired now = row.expiresAt.any (u.passed · now) := by
      rcases hf with ⟨hm, -, -⟩ | ⟨hm | hm, hx, -, -⟩
      case inl =>
        cases hd : row.expiresAt <;> simp [Row.toVal, hm, hd, Ttl.passed]
        rw [Int.le_ediv_iff_mul_le u.pos]
      all_goals simp [Row.toVal, hm, hx]
    rw [Option.map_some, Option.filter_some, Option.filter_some, hx]
    split <;> rfl

section Records

-- Every write of a record first removes the members of the collection that it replaces.
theorem deleteCollection_spec (u : Ttl) (now : Time) (o : Option Options) (h : Inv db)
    (e : EncKey) :
    Changes e db (deleteCollection u now db o (recordKey e)) ∧
    (deleteCollection u now db o (recordKey e)).lookup (recordKey e) = db.lookup (recordKey e) ∧
    memberSet (deleteCollection u now db o (recordKey e)) e = ∅ := by
  have hf := h.fits e
  have unchanged (hs : memberSet db e = ∅) :
      Changes e db db ∧ db.lookup (recordKey e) = db.lookup (recordKey e) ∧ memberSet db e = ∅ :=
    ⟨.refl h, rfl, hs⟩
  unfold deleteCollection
  cases hi : item u now db (recordKey e)
  case none =>
    refine unchanged ?_
    -- A row that is there but not visible has expired, hence is no collection.
    cases hl : db.lookup (recordKey e) <;> simp only [hl, Fits] at hf
    case none => exact hf
    case some =>
      rcases hf with ⟨-, -, hs⟩ | ⟨-, hx, -, -⟩
      case inl => exact hs
      case inr => simp [item, hl, hx, Option.filter_some] at hi
  case some row =>
    have hl := (Option.filter_eq_some_iff.mp hi).left
    simp only [hl, Fits] at hf
    dsimp only
    split
    case isTrue =>
      refine unchanged ?_
      rcases hf with ⟨-, -, hs⟩ | ⟨hm', -, -, -⟩
      case inl => exact hs
      case inr => cases hm' <;> simp_all
    case isFalse =>
      have hk : memberPrefix (Options.encode o (Options.decode o (recordKey e).tail)) =
          memberPrefix e.bytes := by
        rw [Options.encode_decode]
        rfl
      rw [hk]
      have hmem (k : Bytes) : k ∈ iterate u now db (memberPrefix e.bytes) (memberPrefix e.bytes) →
          ∃ m, memberKey e m = k := by
        intro hk
        exact memberPrefix_isPrefix_iff.mp (by simpa [iterate] using hk : _ ∧ _ ∧ _).right.left
      refine ⟨⟨?frame, ?plain⟩, ?record, ?members⟩
      case frame =>
        intro k _ hm
        rw [Rows.lookup_eraseAll, if_neg]
        exact fun hk => (hmem k hk).elim fun m hm' => hm m hm'.symm
      case plain =>
        intro m row hrow
        rw [Rows.lookup_eraseAll] at hrow
        split at hrow
        · simp at hrow
        · exact h.plain e m row hrow
      case record =>
        rw [Rows.lookup_eraseAll, if_neg]
        exact fun hk => (hmem _ hk).elim fun m hm' => memberKey_ne_recordKey hm'
      case members =>
        ext x
        simp only [mem_memberSet, Finset.notMem_empty, iff_false, Finmap.mem_iff, not_exists]
        intro row hrow
        rw [Rows.lookup_eraseAll] at hrow
        split at hrow
        case isTrue => simp at hrow
        case isFalse hn =>
          refine hn ?_
          have hd := Finmap.mem_of_lookup_eq_some hrow
          simp only [iterate, Rows.mem_scan]
          refine ⟨hd, memberPrefix_isPrefix_iff.mpr ⟨x, rfl⟩, ?_, ?_⟩
          · exact Bytes.not_append_lt _ _
          · exact (item_memberKey u now (h.plain e x)).mpr (mem_memberSet.mpr hd)

theorem putRecord_spec (u : Ttl) (now : Time) (o : Option Options) (h : Inv db) (e : EncKey)
    (value : Bytes) (x : Option Int) :
    Inv (putRecord u now db o (recordKey e) ⟨0, .bytes value, x⟩) ∧
    logical u (putRecord u now db o (recordKey e) ⟨0, .bytes value, x⟩) =
      Function.update (logical u db) e (some (.record value (x.map (· * u.unit)))) := by
  have ⟨c, _, hs⟩ := deleteCollection_spec u now o h e
  have c := c.insert_recordKey ⟨0, .bytes value, x⟩
  refine ⟨c.inv h ?_, c.logical_eq.trans ?_⟩
  all_goals simp [putRecord, hs, Row.toVal, Payload.toBytes]

theorem deleteRecord_spec (u : Ttl) (now : Time) (o : Option Options) (h : Inv db) (e : EncKey) :
    Inv (deleteRecord u now db o (recordKey e)) ∧
    logical u (deleteRecord u now db o (recordKey e)) = Function.update (logical u db) e none := by
  have ⟨c, _, hs⟩ := deleteCollection_spec u now o h e
  have c := c.erase_recordKey
  refine ⟨c.inv h ?_, c.logical_eq.trans ?_⟩
  all_goals simp [deleteRecord, hs]

end Records

-- The contents of a Badger store as the logical store sees them.
def Refines (u : Ttl) (db : DB) (σ : Logical) : Prop :=
  Inv db ∧ logical u db = σ

-- The deadline that Badger stores in place of `d`.
def Ttl.round (u : Ttl) (now d : Time) : Time :=
  u.expiresAt now (timeUntil now d) * u.unit

@[local simp]
def Ttl.roundEntry (u : Ttl) (now : Time) (entry : Entry o) : Entry o :=
  { entry with deadline := entry.deadline.map (u.round now) }

theorem timeUntil_nonpos_iff {now d : Int} : timeUntil now d ≤ 0 ↔ d ≤ now := by
  simp only [timeUntil]
  omega

theorem putEntries_refines (u : Ttl) (now : Time) (h : Inv db) (entries : List (Entry o)) :
    Except.Rel (Refines u) (putEntries u now db entries) (do
      checkDeadlines now entries
      return (logical u db).putAll (entries.map (u.roundEntry now))) := by
  induction entries generalizing db
  case nil => exact .ok ⟨h, rfl⟩
  case cons entry entries hi =>
    unfold putEntries checkDeadlines entryRow
    cases hd : entry.deadline
    case none =>
      obtain ⟨hp, hl⟩ := putRecord_spec u now o h entry.key.encode entry.value none
      have hi := hi hp
      rw [hl] at hi
      simpa [hd] using hi
    case some d =>
      by_cases hle : d ≤ now
      case pos =>
        simp only [timeUntil_nonpos_iff, hle, ↓reduceIte]
        exact .error _
      case neg =>
        obtain ⟨hp, hl⟩ := putRecord_spec u now o h entry.key.encode entry.value
          (some (u.expiresAt now (timeUntil now d)))
        have hi := hi hp
        rw [hl] at hi
        simpa [Ttl.round, hd, timeUntil_nonpos_iff, hle] using hi

theorem deleteKeys_refines (u : Ttl) (now : Time) (h : Inv db) (keys : List (Key o)) :
    Refines u (deleteKeys u now db keys) ((logical u db).deleteAll keys) := by
  induction keys generalizing db
  case nil => exact ⟨h, rfl⟩
  case cons key keys hi =>
    have ⟨hd, hl⟩ := deleteRecord_spec u now o h key.encode
    have hi := hi hd
    rw [hl] at hi
    exact hi

theorem checkConditions_eq (h : Inv db) (cs : List (Condition o)) :
    checkConditions u now db cs = (logical u db).checkConditions now cs := by
  induction cs
  case nil => rfl
  case cons c cs hi =>
    simp only [checkConditions, Logical.checkConditions, live_eq h, hi]
    cases item u now db (recordKey c.key.encode) <;> cases c.expected <;> try rfl
    case some.some row x =>
      by_cases hm : row.userMeta = 0 <;> by_cases hv : row.value.toBytes = x <;>
        simp [Row.toVal, hm, hv]

section Groups

-- The loop keeps the counter in step with the member rows and leaves the key's own row alone.
theorem updateMembers_spec (u : Ttl) (now : Time) (adds : Bool) (ms : List Bytes)
    (c : Changes e db db') (hc : count = (memberSet db' e).card) :
    let result := updateMembers u now (memberPrefix e.bytes) adds ms db' count
    Changes e db result.fst ∧
    result.fst.lookup (recordKey e) = db'.lookup (recordKey e) ∧
    memberSet result.fst e =
      ms.foldl (fun s m => if adds then insert m s else s.erase m) (memberSet db' e) ∧
    result.snd = (memberSet result.fst e).card := by
  induction ms generalizing db' count
  case nil => exact ⟨c, rfl, rfl, hc⟩
  case cons m ms hi =>
    have hk : memberPrefix e.bytes ++ m = memberKey e m := rfl
    have hm := item_memberKey u now (c.plain m)
    have hn : (item u now db' (memberKey e m)).isNone ↔ m ∉ memberSet db' e := by simp [← hm]
    simp only [updateMembers, Bool.and_eq_true, Bool.not_eq_true', List.foldl_cons, hk, hm, hn]
    by_cases hx : m ∈ memberSet db' e <;> cases adds
    case pos.true => simpa [hx, Finset.insert_eq_of_mem] using hi c hc
    case pos.false => simpa [hx] using hi (c.erase_memberKey m) (by simp [hc, hx])
    case neg.true => simpa [hx] using hi (c.insert_memberKey m) (by simp [hc, hx])
    case neg.false => simpa [hx, Finset.erase_eq_of_notMem] using hi c hc

theorem readCounter_refines (h : Inv db) (g : Group o) :
    Except.Rel (fun n s => s = memberSet db g.key.encode ∧ n = s.card)
      (readCounter u now db g) ((logical u db).base now g) := by
  unfold readCounter Logical.base
  rw [live_eq h]
  have hf := h.fits g.key.encode
  cases hi : item u now db (recordKey g.key.encode)
  case none =>
    have hs := (deleteCollection_spec u now o h g.key.encode).right.right
    simp only [deleteCollection, hi] at hs
    exact .ok (by simp [hs])
  case some row =>
    simp only [(Option.filter_eq_some_iff.mp hi).left, Fits] at hf
    rcases hf with ⟨hm, -, -⟩ | ⟨hm, -, hv, -⟩
    case inl =>
      have hne : (0 : Byte) ≠ expectedMeta g.phase := by
        unfold expectedMeta
        split <;> decide
      simpa [Row.toVal, hm, hne] using .error _
    case inr =>
      have hz : row.userMeta ≠ 0 := by rcases hm with hm | hm <;> rw [hm] <;> decide
      have hk : row.userMeta = expectedMeta g.phase ↔
          decide (row.userMeta = orderedCollectionMeta) = g.phase.ordered := by
        unfold expectedMeta
        rcases hm with hm | hm <;> cases g.phase.ordered <;>
          simp [hm]
      simp only [Option.map_some, Row.toVal, hz, ↓reduceIte, ne_eq, ite_not]
      split_ifs with h₁ h₂ h₂
      case pos => rw [hv]; exact .ok ⟨rfl, rfl⟩
      case neg => exact absurd (hk.mp h₁) h₂
      case pos => exact absurd (hk.mpr h₂) h₁
      case neg => exact .error _

theorem applyGroup_refines (h : Inv db) (g : Group o) :
    Except.Rel (Refines u) (applyGroup u now db g) ((logical u db).applyGroup now g) := by
  refine .ite (fun _ => .ok ⟨h, rfl⟩) fun _ => ?_
  refine (readCounter_refines h g).bind fun previous s ⟨hs, hp⟩ => ?_
  have ⟨c, _, hf, hc⟩ := updateMembers_spec u now g.phase.adds g.members
    (.refl (e := g.key.encode) h) (hs ▸ hp)
  rw [← hs] at hf
  change memberSet _ _ = g.update s at hf
  dsimp only
  generalize updateMembers u now (memberPrefix g.key.encode.bytes) g.phase.adds g.members db
    previous = result at c hf hc ⊢
  rw [hf] at hc
  rw [hp, hc]
  refine .ite (fun _ => .error _) fun _ => ?_
  unfold Logical.store
  by_cases he : g.update s = ∅
  case pos =>
    simp only [he, Finset.card_empty, ↓reduceIte]
    have c := c.erase_recordKey
    refine .ok ⟨c.inv h ?_, c.logical_eq.trans ?_⟩
    all_goals simp [hf, he]
  case neg =>
    simp only [Finset.card_eq_zero, he, ↓reduceIte]
    have c := c.insert_recordKey ⟨expectedMeta g.phase, .counter (g.update s).card, none⟩
    refine .ok ⟨c.inv h ?_, c.logical_eq.trans ?_⟩
    all_goals
      unfold expectedMeta
      cases g.phase.ordered <;>
        simp [hf, he, Row.toVal]

theorem applyGroups_refines (h : Inv db) (gs : List (Group o)) :
    Except.Rel (Refines u) (applyGroups u now db gs) ((logical u db).applyGroups now gs) := by
  induction gs generalizing db
  case nil => exact .ok ⟨h, rfl⟩
  case cons g gs hi =>
    refine (applyGroup_refines h g).bind fun db' σ ⟨h', hσ⟩ => ?_
    exact hσ ▸ hi h'

end Groups

section Reads

-- The iterator yields the members of a key in ascending order.
theorem iterate_eq (h : Inv db) (u : Ttl) (now : Time) (e : EncKey) (a : Bytes) :
    (iterate u now db (memberPrefix e.bytes) (memberPrefix e.bytes ++ a)).map
      (·.drop (memberPrefix e.bytes).length) =
    ((memberSet db e).filter fun m => ¬m < a).sort (· ≤ ·) := by
  have hp : ((iterate u now db (memberPrefix e.bytes) (memberPrefix e.bytes ++ a)).map
      (·.drop (memberPrefix e.bytes).length)).Pairwise (· < ·) := by
    rw [List.pairwise_map]
    refine (Rows.scan_pairwise ..).imp_of_mem fun {k₁ k₂} h₁ h₂ hlt => ?_
    obtain ⟨-, ⟨x, rfl⟩, -⟩ := (Rows.mem_scan ..).mp h₁
    obtain ⟨-, ⟨y, rfl⟩, -⟩ := (Rows.mem_scan ..).mp h₂
    simpa [Bytes.append_lt_append_iff] using hlt
  refine hp.eq_of_mem_iff (Finset.sortedLT_sort _).pairwise fun x => ?_
  have hx := item_memberKey u now (h.plain e x)
  simp only [List.mem_map, iterate, Rows.mem_scan, Finset.mem_sort, Finset.mem_filter]
  constructor
  case mp =>
    rintro ⟨_, ⟨hd, ⟨y, rfl⟩, hlt, _⟩, rfl⟩
    rw [Bytes.append_lt_append_iff] at hlt
    rw [List.drop_left]
    exact ⟨mem_memberSet.mpr hd, hlt⟩
  case mpr =>
    rintro ⟨hm, hlt⟩
    refine ⟨memberKey e x, ⟨mem_memberSet.mp hm, ⟨x, rfl⟩, ?_, hx.mpr hm⟩, by simp [memberKey]⟩
    rwa [memberKey, Bytes.append_lt_append_iff]

theorem get_eq (h : Inv db) (key : Key o) :
    get u now db key = (logical u db).get now key.encode := by
  simp only [get, Logical.get, live_eq h]
  cases item u now db (recordKey key.encode)
  case none => rfl
  case some row => by_cases hm : row.userMeta = 0 <;> simp [Row.toVal, hm]

-- What the meta byte of a visible row says about its kind.
theorem item_cases (h : Inv db) (hi : item u now db (recordKey e) = some row) :
    (row.userMeta = 0 ∧ row.toVal u (memberSet db e) =
      .record row.value.toBytes (row.expiresAt.map (· * u.unit))) ∨
    (row.userMeta = collectionMeta ∧
      row.toVal u (memberSet db e) = .members false (memberSet db e)) ∨
    (row.userMeta = orderedCollectionMeta ∧
      row.toVal u (memberSet db e) = .members true (memberSet db e)) := by
  have hf := h.fits e
  simp only [(Option.filter_eq_some_iff.mp hi).left, Fits] at hf
  rcases hf with ⟨hm, -⟩ | ⟨hm | hm, -⟩
  all_goals simp [Row.toVal, hm]

theorem hasMember_eq (h : Inv db) (key : Key o) (m : Bytes) :
    hasMember u now db key m = (logical u db).hasMember now key.encode m := by
  simp only [hasMember, Logical.hasMember, live_eq h]
  cases hi : item u now db (recordKey key.encode)
  case none => rfl
  case some =>
    have hk : memberPrefix key.encode.bytes ++ m = memberKey key.encode m := rfl
    have hm := item_memberKey u now (h.plain key.encode m)
    rcases item_cases h hi with ⟨hu, hv⟩ | ⟨hu, hv⟩ | ⟨hu, hv⟩
    all_goals simp [hu, hv, hk]
    exact Bool.eq_iff_iff.mpr (by simpa using hm)

theorem listMembers_eq (h : Inv db) (key : Key o) :
    List.toFinset <$> listMembers u now db key = (logical u db).listMembers now key.encode := by
  simp only [listMembers, Logical.listMembers, live_eq h]
  cases hi : item u now db (recordKey key.encode)
  case none => rfl
  case some =>
    have hl := iterate_eq h u now key.encode []
    rw [List.append_nil] at hl
    rcases item_cases h hi with ⟨hu, hv⟩ | ⟨hu, hv⟩ | ⟨hu, hv⟩
    all_goals simp [hu, hv, hl]

-- Over ascending members, stopping at the first one beyond the range is filtering.
theorem collectRange_eq {q : OrderedRange} {n : Nat} (hn : n < q.limit) (hs : ms.Pairwise (· < ·)) :
    collectRange q ms n = (ms.filter q.Contains).take (q.limit.toNat - n) := by
  induction ms generalizing n
  case nil => simp [collectRange]
  case cons m ms hi =>
    have ⟨hm, hs⟩ := List.pairwise_cons.mp hs
    unfold collectRange
    by_cases ha : ∀ a ∈ q.after, a < m
    case neg =>
      have hc : ¬q.Contains m := fun h => ha h.left
      have ha : q.after.any (m ≤ ·) := by
        cases hq : q.after <;> simp_all
      rw [if_pos ha, List.filter_cons_of_neg (by simpa using hc), hi hn hs]
    case pos =>
      have ha' : q.after.any (m ≤ ·) = false := by
        cases hq : q.after <;> simp_all
      by_cases hb : ∀ b ∈ q.before, m < b
      case neg =>
        have hb' : q.before.any (· ≤ m) := by
          cases hq : q.before <;> simp_all
        have hc : (m :: ms).filter q.Contains = [] := by
          rw [List.filter_eq_nil_iff]
          simp only [List.mem_cons, forall_eq_or_imp, decide_eq_true_eq]
          refine ⟨fun h => hb h.right, fun x hx h => hb fun b hq => ?_⟩
          exact (hm x hx).trans (h.right b hq)
        simp [ha', hb', hc]
      case pos =>
        have hb' : q.before.any (· ≤ m) = false := by
          cases hq : q.before <;> simp_all
        have hc : q.Contains m := ⟨ha, hb⟩
        have hl : q.limit.toNat - n = q.limit.toNat - (n + 1) + 1 := by omega
        rw [List.filter_cons_of_pos (by simpa using hc), hl, List.take_succ_cons]
        simp only [ha', hb', Bool.false_eq_true, ↓reduceIte, List.cons.injEq, true_and]
        split
        case isTrue => simp [show q.limit.toNat - (n + 1) = 0 by omega]
        case isFalse => exact hi (by omega) hs

theorem rangeOrderedMembers_eq (h : Inv db) (key : Key o) (q : OrderedRange) :
    rangeOrderedMembers u now db key q = (logical u db).rangeOrderedMembers now key.encode q := by
  simp only [rangeOrderedMembers, Logical.rangeOrderedMembers, OrderedRange.validate, live_eq h]
  by_cases hq : q.limit ≤ 0 <;> simp only [hq, ↓reduceIte]
  case pos => rfl
  case neg =>
    cases hi : item u now db (recordKey key.encode)
    case none => rfl
    case some =>
      rcases item_cases h hi with ⟨hu, hv⟩ | ⟨hu, hv⟩ | ⟨hu, hv⟩
      all_goals simp [hu, hv]
      rw [iterate_eq h, collectRange_eq (by omega) (Finset.sortedLT_sort _).pairwise]
      congr 1
      refine ((Finset.sortedLT_sort _).pairwise.filter _).eq_of_mem_iff
        (Finset.sortedLT_sort _).pairwise fun m => ?_
      simp only [List.mem_filter, Finset.mem_sort, Finset.mem_filter, decide_eq_true_eq,
        and_assoc, and_congr_right_iff, and_iff_right_iff_imp]
      -- Seeking to `After` skips nothing that the range contains.
      intro _ hc
      cases ha : q.after
      case none => simp
      case some a => exact not_lt_of_gt (hc.left a ha)

end Reads

theorem batchMutate_refines (u : Ttl) (now : Time) (h : Inv db) (entries : List (Entry o))
    (keys : List (Key o)) :
    Except.Rel (Option.Rel (Refines u)) (batchMutate u now db entries keys) (do
      checkDeadlines now entries
      return some (((logical u db).putAll (entries.map (u.roundEntry now))).deleteAll keys)) := by
  have hp := putEntries_refines u now h entries
  unfold batchMutate
  cases hc : checkDeadlines now entries <;> rw [hc] at hp
  case error e => rw [hp.eq_error]; exact .error e
  case ok =>
    have ⟨db', he, h', hσ⟩ := hp.exists_of_ok
    rw [he, ← hσ]
    exact .ok (.some (deleteKeys_refines u now h' keys))

theorem applyMutation_refines (u : Ttl) (now : Time) (h : Inv db) (m : Mutation o) :
    Except.Rel (Option.Rel (Refines u)) (applyMutation u now db m) (do
      m.validate now
      if ← (logical u db).checkConditions now m.conditions then
        some <$> (((logical u db).putAll (m.entries.map (u.roundEntry now))).deleteAll
          m.deleteKeys).applyGroups now m.groups
      else
        return none) := by
  unfold applyMutation
  cases hv : m.validate now
  case error e => exact .error e
  case ok =>
    rw [checkConditions_eq h]
    refine .bind (.of_eq rfl) fun _ _ _ => ?_
    refine .bind (.of_eq rfl) fun b _ hb => ?_
    subst hb
    cases b
    case false => exact .ok .none
    case true =>
      have hp := putEntries_refines u now h m.entries
      rw [checkDeadlines_ok_iff.mpr (Mutation.validate_valid hv).deadlines] at hp
      have ⟨db', he, h', hσ⟩ := hp.exists_of_ok
      have ⟨hd, hl⟩ := deleteKeys_refines u now h' m.deleteKeys
      simp only [he, ↓reduceIte]
      rw [← hσ, ← hl]
      exact (applyGroups_refines hd m.groups).map fun _ _ h => .some h

theorem call_inv (h : Inv db) (c : Call o) : Inv (call u c db).snd := by
  have keep {x : Except Err (Option DB)} {y : Except Err (Option Logical)}
      (hx : Except.Rel (Option.Rel (Refines u)) x y) : Inv (settle db x).snd :=
    (settle_rel (R := Refines u) ⟨h, rfl⟩ hx).right.left
  unfold call
  cases c.write
  case set key value => exact (putRecord_spec u c.now o h key.encode value none).left
  case delete key => exact (deleteRecord_spec u c.now o h key.encode).left
  case batchMutate entries keys => exact keep (batchMutate_refines u c.now h entries keys)
  case applyMutation m => exact keep (applyMutation_refines u c.now h m)

section Exact

-- The deadlines that survive the way through a `time.Duration` and Badger's unit of time.
def ExactEntries (u : Ttl) (now : Time) (entries : List (Entry o)) : Prop :=
  ∀ entry ∈ entries, ∀ d ∈ entry.deadline, u.unit ∣ d ∧ d - now < 2 ^ 63

def Exact (u : Ttl) (c : Call o) : Prop :=
  ExactEntries u c.now c.write.entries

theorem round_eq {now d : Int} (hu : u.unit ∣ d) (hn : now < d) (hb : d - now < 2 ^ 63) :
    u.round now d = d := by
  have h : now + timeUntil now d = d := by
    simp only [timeUntil]
    omega
  rw [Ttl.round, Ttl.expiresAt, h, Int.ediv_mul_cancel hu]

theorem map_roundEntry_eq (hx : ExactEntries u now entries)
    (hd : checkDeadlines now entries = .ok ()) : entries.map (u.roundEntry now) = entries := by
  refine (List.map_congr_left fun entry he => ?_).trans (List.map_id _)
  have hd := checkDeadlines_ok_iff.mp hd entry he
  have hx := hx entry he
  obtain ⟨key, value, d⟩ := entry
  cases d
  case none => rfl
  case some d =>
    have ⟨hu, hb⟩ := hx d rfl
    simp [round_eq hu (hd d rfl) hb]

theorem call_refines (h : Inv db) {c : Call o} (hx : Exact u c) :
    (call u c db).fst = ((logical u db).call c).fst ∧
    Refines u (call u c db).snd ((logical u db).call c).snd := by
  refine settle_rel (R := Refines u) ⟨h, rfl⟩ ?_
  obtain ⟨now, _ | _ | ⟨entries, keys⟩ | m⟩ := c
  case set key value => exact .ok (.some (putRecord_spec u now o h key.encode value none))
  case delete key => exact .ok (.some (deleteRecord_spec u now o h key.encode))
  case batchMutate =>
    have hx : ExactEntries u now entries := hx
    have hr := batchMutate_refines u now h entries keys
    simp only [Logical.batchMutate]
    cases hd : checkDeadlines now entries <;> rw [hd] at hr
    case error => exact hr
    case ok => rwa [map_roundEntry_eq hx hd] at hr
  case applyMutation =>
    have hx : ExactEntries u now m.entries := hx
    have hr := applyMutation_refines u now h m
    simp only [Logical.applyMutation]
    cases hv : m.validate now <;> rw [hv] at hr
    case error => exact hr
    case ok =>
      have hd := checkDeadlines_ok_iff.mpr (Mutation.validate_valid hv).deadlines
      rwa [map_roundEntry_eq hx hd] at hr

end Exact

section Runs

-- The physical invariant in the terms of the layout: the counter of a collection row is the number
-- of rows under its member prefix, and no member row is without a collection row.
theorem Inv.counter (h : Inv db) (hr : row ∈ db.lookup (recordKey e)) (hm : row.userMeta ≠ 0) :
    row.value = .counter (db.keys.filter (memberPrefix e.bytes <+: ·)).card ∧
    (db.keys.filter (memberPrefix e.bytes <+: ·)).card ≠ 0 := by
  have hf := h.fits e
  rw [Option.mem_def.mp hr] at hf
  rcases hf with ⟨h₀, -⟩ | ⟨-, -, hv, hs⟩
  case inl => exact absurd h₀ hm
  case inr =>
    rw [← Rows.card_under]
    exact ⟨hv, Finset.card_ne_zero.mpr (Finset.nonempty_iff_ne_empty.mpr hs)⟩

theorem Inv.owner (h : Inv db) (hm : memberPrefix e.bytes ++ m ∈ db) :
    ∃ row ∈ db.lookup (recordKey e),
      row.userMeta = collectionMeta ∨ row.userMeta = orderedCollectionMeta := by
  have hm : m ∈ memberSet db e := mem_memberSet.mpr hm
  have hf := h.fits e
  cases hl : db.lookup (recordKey e) <;> simp only [hl, Fits] at hf
  case none => simp [hf] at hm
  case some row =>
    rcases hf with ⟨-, -, hs⟩ | ⟨hu, -⟩
    case inl => simp [hs] at hm
    case inr => exact ⟨row, rfl, hu⟩

theorem run_inv (u : Ttl) (calls : List (Call o)) : Inv (run (call u) calls ∅).snd :=
  Machine.run_invariant calls empty_inv fun c _ h => call_inv h c

-- Both stores follow the logical one, hence each other.
theorem run_agrees (hx : ∀ c ∈ calls, Exact u c) :
    (run (call u) calls ∅).fst = (run Memory.call calls Memory.empty).fst ∧
    (run Memory.call calls Memory.empty).snd.WF ∧
    logical u (run (call u) calls ∅).snd =
      (run Memory.call calls Memory.empty).snd.logical := by
  have ⟨hb, hr⟩ := run_simulates (call u) Logical.call (R := Refines u) (t := .empty)
    ⟨empty_inv, rfl⟩ hx fun c db σ hx ⟨h, hσ⟩ => hσ ▸ call_refines h hx
  have ⟨hm, hw, hl⟩ := run_simulates Memory.call Logical.call (R := Memory.Refines)
    (t := .empty) ⟨Memory.empty_wf, rfl⟩ (fun c (_ : c ∈ calls) => trivial)
    fun c data σ _ ⟨h, hσ⟩ => hσ ▸ Memory.call_refines h c
  exact ⟨hb.trans hm.symm, hw, hr.right.trans hl.symm⟩

theorem badger_simulates_memory (u : Ttl) (calls : List (Call o)) :
    let badger := run (call u) calls ∅
    let memory := run Memory.call calls Memory.empty
    ((∀ c ∈ calls, Exact u c) →
      badger.fst = memory.fst ∧
      ∀ (now : Time) (key : Key o),
        get u now badger.snd key = (memory.snd.get now key).fst ∧
        (∀ m, hasMember u now badger.snd key m = memory.snd.hasMember now key m) ∧
        List.toFinset <$> listMembers u now badger.snd key = memory.snd.listMembers now key ∧
        (∀ q, rangeOrderedMembers u now badger.snd key q =
          memory.snd.rangeOrderedMembers now key q)) ∧
    (∀ e, ∀ row ∈ badger.snd.lookup (recordKey e), row.userMeta ≠ 0 →
      row.value = .counter (badger.snd.keys.filter (memberPrefix e.bytes <+: ·)).card ∧
      (badger.snd.keys.filter (memberPrefix e.bytes <+: ·)).card ≠ 0) ∧
    (∀ k ∈ badger.snd, (∃ e, k = recordKey e) ∨
      ∃ e m, k = memberPrefix e.bytes ++ m ∧ ∃ row ∈ badger.snd.lookup (recordKey e),
        row.userMeta = collectionMeta ∨ row.userMeta = orderedCollectionMeta) := by
  intro badger memory
  have h : Inv badger.snd := run_inv u calls
  refine ⟨fun hx => ?agree, fun e row hr hm => h.counter hr hm, fun k hk => ?rows⟩
  case agree =>
    have ⟨hr, hw, hl⟩ := run_agrees hx
    refine ⟨hr, fun now key => ⟨?_, fun m => ?_, ?_, fun q => ?_⟩⟩
    · rw [get_eq h, Memory.get_eq hw, hl]
    · rw [hasMember_eq h, Memory.hasMember_eq hw, hl]
    · rw [listMembers_eq h, Memory.listMembers_eq hw, hl]
    · rw [rangeOrderedMembers_eq h, Memory.rangeOrderedMembers_eq hw, hl]
  case rows =>
    rcases h.shape k hk with hr | ⟨e, m, rfl⟩
    case inl => exact .inl hr
    case inr => exact .inr ⟨e, m, rfl, h.owner hk⟩

-- One record with a deadline, written 1.2 seconds after the epoch.
def putUntil (deadline : Time) : Call none where
  now := 1200000000
  write := .applyMutation ⟨[], [⟨sampleKey, [7], some deadline⟩], [], [], [], [], []⟩

theorem badger_simulates_memory_until_two_seconds :
    get .seconds 1999999999 (run (call .seconds) [putUntil 2000000000] ∅).snd sampleKey =
    ((run Memory.call [putUntil 2000000000] .empty).snd.get 1999999999 sampleKey).fst := by
  refine (((badger_simulates_memory .seconds [putUntil 2000000000]).left ?_).right _ _).left
  simp [Exact, ExactEntries, Write.entries, putUntil, Ttl.seconds]

-- A deadline within the current second has passed for Badger before it is stored.
theorem badger_loses_half_second :
    (run (call .seconds) [putUntil 1700000000] ∅).fst =
      (run Memory.call [putUntil 1700000000] .empty).fst ∧
    get .seconds 1200000000 (run (call .seconds) [putUntil 1700000000] ∅).snd sampleKey =
      .error .notFound ∧
    ((run Memory.call [putUntil 1700000000] .empty).snd.get 1200000000 sampleKey).fst =
      .ok [7] := by
  decide

end Runs

end GizClaw.KV.Badger

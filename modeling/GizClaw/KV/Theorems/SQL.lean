import GizClaw.KV.SQL
import GizClaw.KV.Theorems.Basic
import GizClaw.KV.Theorems.Logical

-- The SQL store refines the logical one, up to expired records. What has to be maintained is that
-- member rows only exist below a collection row, as nothing else hides the members of an earlier
-- collection under the same key.

namespace GizClaw.KV.SQL

variable {o : Option Options} {now : Time} {db : DB} {σ : Logical} {e : EncKey}

attribute [local simp] deleteExpiredRow insertCollection upsert deleteRow Group.mem_update
  deleteMembersOf changeMembers Representable insertMember Logical.put

def Fits : Option Row → Finset Bytes → Prop
  | none, s => s = ∅
  | some row, s =>
    (row.kind = 0 ∧ s = ∅) ∨
    ((row.kind = 1 ∨ row.kind = 2) ∧ row.expires = none ∧ row.value = [] ∧ s ≠ ∅)

def Inv (db : DB) : Prop :=
  ∀ e, Fits (db.rows e) (db.members e)

theorem empty_inv : Inv .empty :=
  fun _ => rfl

-- Member rows stand below a collection row.
theorem Inv.owner (h : Inv db) (he : db.members e ≠ ∅) :
    ∃ row ∈ db.rows e, row.kind = 1 ∨ row.kind = 2 := by
  have hf := h e
  cases hr : db.rows e
  case none => rw [hr] at hf; exact absurd hf he
  case some row =>
    rw [hr] at hf
    rcases hf with ⟨-, hs⟩ | ⟨hk, -⟩
    case inl => exact absurd hs he
    case inr => exact ⟨row, rfl, hk⟩

def Row.toVal (s : Finset Bytes) (row : Row) : Val :=
  if row.kind = 0 then .record row.value row.expires else .members (row.kind = 2) s

@[local simp]
def logical (db : DB) : Logical :=
  fun e => (db.rows e).map (Row.toVal (db.members e))

-- Only records expire.
theorem Fits.not_expired (h : Fits (some row) s)
    (hx : row.expired nano) : row.kind = 0 ∧ s = ∅ := by
  rcases h with h | ⟨-, he, -⟩
  case inl => exact h
  case inr => simp [Row.expired, he] at hx

theorem Fits.expired_toVal (h : Fits (some row) s) (now : Time) :
    (row.toVal s).expired now = row.expired now := by
  rcases h with ⟨hk, -⟩ | ⟨hk, he, -⟩
  case inl => cases hx : row.expires <;> simp [Row.toVal, hk, hx, Val.expired, Row.expired]
  case inr =>
    have hz : row.kind ≠ 0 := by omega
    simp [Row.toVal, hz, he, Val.expired, Row.expired]

theorem Row.expires_all (row : Row) : row.expires.all (now < ·) = !row.expired now := by
  unfold Row.expired
  cases row.expires
  case none => rfl
  case some => simp [← decide_not]

theorem live_eq (h : Inv db) (e : EncKey) :
    (logical db).live now e = (selectLive now db e).map (Row.toVal (db.members e)) := by
  have hf := h e
  unfold Logical.live logical selectLive
  cases hr : db.rows e
  case none => rfl
  case some =>
    rw [hr] at hf
    simp only [Option.map_some, Option.filter_some, hf.expired_toVal, Row.expires_all]
    split <;> rfl

-- The contents of a SQL store show what the logical store shows.
structure Refines (now : Time) (db : DB) (σ : Logical) : Prop where
  inv : Inv db
  alike : Logical.Alike now (logical db) σ

theorem Refines.live_eq (h : Refines now db σ) (e : EncKey) :
    σ.live now e = (selectLive now db e).map (Row.toVal (db.members e)) := by
  rw [← h.alike.live, SQL.live_eq h.inv]

section Cleanup

theorem fits_filter (h : Fits row s) (nano : Int) : Fits (row.filter (!·.expired nano)) s := by
  cases row
  case none => exact h
  case some row =>
    by_cases hx : row.expired nano
    case pos => simpa [Option.filter_some, hx, Fits] using (h.not_expired hx).right
    case neg => simpa [Option.filter_some, hx] using h

theorem live_filter_expired (h : Fits row s) :
    ((row.filter (!·.expired now)).map (Row.toVal s)).filter (!·.expired now) =
    (row.map (Row.toVal s)).filter (!·.expired now) := by
  cases row
  case none => rfl
  case some row =>
    have hx := h.expired_toVal now
    cases hr : row.expired now <;> simp [Option.filter_some, hr, hx]

theorem deleteExpiredRow_refines (h : Refines now db σ) (e : EncKey) :
    Refines now (deleteExpiredRow now db e) σ := by
  refine ⟨fun e' => ?inv, Logical.Alike.trans (funext fun e' => ?alike) h.alike⟩
  case inv =>
    by_cases he : e' = e
    case pos => simpa [he] using fits_filter (h.inv e) now
    case neg => simpa [he] using h.inv e'
  case alike =>
    by_cases he : e' = e
    case pos =>
      simpa [he, Logical.live] using live_filter_expired (h.inv e)
    case neg => simp [he, Logical.live]

theorem cleanupExpired_refines (h : Refines now db σ) (dialect : Dialect) (keys : List EncKey) :
    Refines now (cleanupExpired dialect now db keys) σ := by
  cases dialect
  case sqlite =>
    refine ⟨fun e => fits_filter (h.inv e) now, Logical.Alike.trans (funext fun e => ?_) h.alike⟩
    exact live_filter_expired (h.inv e)
  case postgreSQL =>
    induction keys generalizing db
    case nil => exact h
    case cons k ks hi => exact hi (deleteExpiredRow_refines h k)

end Cleanup

section Records

theorem clearMembersRounds_eq (hn : keys.length ≤ n) (db : DB) :
    clearMembersRounds n db keys = deleteMembersOf db keys := by
  induction n generalizing keys db
  case zero =>
    have hk : keys = [] := List.eq_nil_of_length_eq_zero (Nat.le_zero.mp hn)
    simp [clearMembersRounds, hk]
  case succ hi =>
    unfold clearMembersRounds
    split
    case isTrue hk => simp [hk]
    case isFalse =>
      rw [hi (by rw [List.length_drop]; omega)]
      have hm (e : EncKey) : e ∈ keys ↔ e ∈ keys.take 256 ∨ e ∈ keys.drop 256 := by
        rw [← List.mem_append, List.take_append_drop]
      simp only [deleteMembersOf, DB.mk.injEq, true_and]
      ext1 e
      by_cases h₁ : e ∈ keys.take 256 <;> by_cases h₂ : e ∈ keys.drop 256 <;> simp [hm, h₁, h₂]

theorem clearMembers_eq (db : DB) (keys : List EncKey) :
    clearMembers db keys = deleteMembersOf db keys :=
  clearMembersRounds_eq le_rfl db

@[local simp]
def sqlEntry (entry : Entry o) : SqlEntry :=
  ⟨entry.key.encode, entry.value, entry.deadline⟩

theorem prepare_eq (h : Representable entries) :
    prepare now entries = (fun _ => entries.map sqlEntry) <$> checkDeadlines now entries := by
  induction entries
  case nil => rfl
  case cons entry entries hi =>
    simp only [Representable, List.mem_cons, forall_eq_or_imp] at h
    unfold prepare prepareEntry checkDeadlines
    rw [hi h.right]
    cases hd : entry.deadline
    case none => cases checkDeadlines now entries <;> simp [hd]
    case some d =>
      have hd' := h.left d hd
      by_cases hle : d ≤ now <;> simp only [hle, hd', ↓reduceIte, ne_eq, not_true_eq_false]
      case pos => rfl
      case neg => cases checkDeadlines now entries <;> simp [hd]

theorem logical_upsert (db : DB) (entry : Entry o) :
    logical (upsert db (sqlEntry entry)) = (logical db).put entry := by
  ext1 e
  by_cases he : e = entry.key.encode
  case pos => simp [he, Row.toVal]
  case neg => simp [he]

theorem logical_upserts (db : DB) (entries : List (Entry o)) :
    logical ((entries.map sqlEntry).foldl upsert db) = (logical db).putAll entries := by
  induction entries generalizing db
  case nil => rfl
  case cons hi =>
    rw [List.map_cons, List.foldl_cons, hi, logical_upsert]
    rfl

theorem logical_deleteRow (db : DB) (e : EncKey) :
    logical (deleteRow db e) = Function.update (logical db) e none := by
  ext1 e'
  by_cases he : e' = e <;> simp [he]

theorem logical_deletes (db : DB) (keys : List (Key o)) :
    logical (keys.foldl (fun db key => deleteRow db key.encode) db) =
    (logical db).deleteAll keys := by
  induction keys generalizing db
  case nil => rfl
  case cons hi =>
    rw [List.foldl_cons, hi, logical_deleteRow]
    rfl

theorem upserts_members (db : DB) (prepared : List SqlEntry) :
    (prepared.foldl upsert db).members = db.members := by
  induction prepared generalizing db
  case nil => rfl
  case cons x xs hi => exact hi (upsert db x)

theorem upserts_rows (db : DB) (entries : List (Entry o)) (e : EncKey) :
    (e ∉ entries.map (·.key.encode) ∧
      ((entries.map sqlEntry).foldl upsert db).rows e = db.rows e) ∨
    (e ∈ entries.map (·.key.encode) ∧
      ∃ value expires,
        ((entries.map sqlEntry).foldl upsert db).rows e = some ⟨value, 0, expires⟩) := by
  induction entries generalizing db
  case nil => exact .inl ⟨by simp, rfl⟩
  case cons x xs hi =>
    rcases hi (upsert db (sqlEntry x)) with ⟨hn, hr⟩ | ⟨hm, hr⟩
    case inr => exact .inr ⟨List.mem_cons_of_mem _ hm, hr⟩
    case inl =>
      by_cases he : e = x.key.encode
      case neg => exact .inl ⟨by simp [he, hn], hr.trans (by simp [he])⟩
      case pos =>
        refine .inr ⟨by simp [he], x.value, x.deadline, hr.trans ?_⟩
        simp [he]

theorem deletes_members (db : DB) (keys : List (Key o)) :
    (keys.foldl (fun db key => deleteRow db key.encode) db).members = db.members := by
  induction keys generalizing db
  case nil => rfl
  case cons k ks hi => exact hi (deleteRow db k.encode)

theorem deletes_rows (db : DB) (keys : List (Key o)) (e : EncKey) :
    (keys.foldl (fun db key => deleteRow db key.encode) db).rows e =
    if e ∈ keys.map Key.encode then none else db.rows e := by
  induction keys generalizing db
  case nil => rfl
  case cons k ks hi =>
    rw [List.foldl_cons, hi]
    by_cases he : e = k.encode <;> simp [he]

-- Writing and deleting records, once the members under their keys are gone. What else is under
-- these keys does not matter.
theorem records_refines (h : Refines now db σ) (entries : List (Entry o)) (keys : List (Key o))
    (hf : ∀ e, e ∉ entries.map (·.key.encode) → e ∉ keys.map Key.encode →
      db'.rows e = db.rows e ∧ db'.members e = db.members e)
    (hm : ∀ e, e ∈ entries.map (·.key.encode) ∨ e ∈ keys.map Key.encode → db'.members e = ∅) :
    Refines now
      (keys.foldl (fun db key => deleteRow db key.encode) ((entries.map sqlEntry).foldl upsert db'))
      ((σ.putAll entries).deleteAll keys) := by
  refine ⟨fun e => ?inv, ?alike⟩
  case alike =>
    rw [logical_deletes, logical_upserts]
    have hl : ((logical db').putAll entries).deleteAll keys =
        ((logical db).putAll entries).deleteAll keys :=
      Logical.records_congr entries keys fun e h₁ h₂ => by
        simp only [logical, hf e h₁ h₂]
    rw [hl]
    exact (h.alike.putAll entries).deleteAll keys
  case inv =>
    rw [deletes_members, upserts_members, deletes_rows]
    by_cases hk : e ∈ keys.map Key.encode
    case pos => rw [if_pos hk]; exact hm e (.inr hk)
    case neg =>
      rw [if_neg hk]
      rcases upserts_rows db' entries e with ⟨he, hr⟩ | ⟨he, value, expires, hr⟩
      case inl =>
        rw [hr, (hf e he hk).left, (hf e he hk).right]
        exact h.inv e
      case inr =>
        rw [hr]
        exact .inl ⟨rfl, hm e (.inl he)⟩

theorem mem_mutationKeys {keys : List (Key o)} :
    e ∈ mutationKeys entries keys ↔
    e ∈ entries.map (·.key.encode) ∨ e ∈ keys.map Key.encode :=
  List.mem_append

theorem clearMembers_records (h : Refines now db σ) (entries : List (Entry o))
    (keys : List (Key o)) :
    Refines now
      (keys.foldl (fun db key => deleteRow db key.encode)
        ((entries.map sqlEntry).foldl upsert (clearMembers db (mutationKeys entries keys))))
      ((σ.putAll entries).deleteAll keys) := by
  refine records_refines h entries keys (fun e h₁ h₂ => ?_) fun e he => ?_
  all_goals rw [clearMembers_eq]
  · exact ⟨rfl, if_neg fun hm => (mem_mutationKeys.mp hm).elim h₁ h₂⟩
  · exact if_pos (mem_mutationKeys.mpr he)

theorem batchMutate_refines (h : Refines now db σ) (hn : unixNano now = now) (dialect : Dialect)
    (entries : List (Entry o)) (keys : List (Key o)) (hd : Representable entries) :
    Except.Rel (Option.Rel (Refines now)) (batchMutate dialect now db entries keys)
      (σ.batchMutate now entries keys) := by
  unfold batchMutate Logical.batchMutate
  rw [prepare_eq hd, hn]
  cases checkDeadlines now entries
  case error e => exact .error e
  case ok =>
    refine .ok (.some ?_)
    cases dialect
    case postgreSQL => exact clearMembers_records h entries keys
    case sqlite => exact clearMembers_records (cleanupExpired_refines h ..) entries keys

end Records

section Groups

theorem checkConditions_eq (h : Refines now db σ) (cs : List (Condition o)) :
    checkConditions now db cs = σ.checkConditions now cs := by
  induction cs
  case nil => rfl
  case cons c cs hi =>
    simp only [checkConditions, Logical.checkConditions, h.live_eq, hi]
    cases selectLive now db c.key.encode <;> cases c.expected <;> try rfl
    case some.some row x =>
      by_cases hk : row.kind = 0 <;> by_cases hv : row.value = x <;> simp [Row.toVal, hk, hv]

theorem expectedKind_eq (phase : Phase) :
    expectedKind phase ≠ 0 ∧ decide (expectedKind phase = 2) = phase.ordered := by
  cases phase <;> decide

theorem changeMembers_fst (adds : Bool) (e : EncKey) (ms : List Bytes) (db : DB) (n : Nat) :
    (changeMembers adds e ms db n).fst = { db with
      members := Function.update db.members e
        (ms.foldl (fun s m => if adds then insert m s else s.erase m) (db.members e)) } := by
  induction ms generalizing db n
  case nil => simp
  case cons hi =>
    unfold changeMembers
    rw [hi]
    cases adds <;> simp [deleteMember]

-- Additions affect as many rows as the collection grows by.
theorem changeMembers_snd (e : EncKey) (ms : List Bytes) (db : DB) (n : Nat) :
    (changeMembers true e ms db n).snd + (db.members e).card =
    ((changeMembers true e ms db n).fst.members e).card + n := by
  induction ms generalizing db n
  case nil => simp [Nat.add_comm]
  case cons m ms hi =>
    have hi := hi (insertMember db e m).fst (n + (insertMember db e m).snd)
    have hc : ((insertMember db e m).fst.members e).card =
        (db.members e).card + (insertMember db e m).snd := by
      by_cases hm : m ∈ db.members e <;> simp [hm]
    simp only [changeMembers, ↓reduceIte]
    omega

theorem update_nonempty {g : Group o} (hn : g.members ≠ []) (ha : g.phase.adds)
    (s : Finset Bytes) : g.update s ≠ ∅ := by
  have ⟨m, ms, hm⟩ := List.exists_cons_of_ne_nil hn
  refine Finset.ne_empty_of_mem (a := m) ?_
  simp [ha, hm]

theorem not_exceeds {g : Group o} (h : g.maxMembers = 0) (previous count : Nat) :
    ¬g.Exceeds previous count := by
  simp [Group.Exceeds, h]

-- The limit is checked on the number of affected rows, which for removals is not the growth of the
-- collection. Removals have no limit.
theorem changeGroup_eq {g : Group o} (hn : g.members ≠ [])
    (hl : g.phase.adds = false → g.maxMembers = 0) (db : DB) :
    changeGroup db g =
    let s := db.members g.key.encode
    if g.Exceeds s.card (g.update s).card then .error .memberLimit else
      .ok {
        rows := if g.update s = ∅ then Function.update db.rows g.key.encode none else db.rows
        members := Function.update db.members g.key.encode (g.update s) } := by
  have hf : (changeMembers g.phase.adds g.key.encode g.members db 0).fst = { db with
      members := Function.update db.members g.key.encode (g.update (db.members g.key.encode)) } :=
    changeMembers_fst ..
  have hs := changeMembers_snd g.key.encode g.members db 0
  simp only [changeGroup, hf, Function.update_self]
  cases ha : g.phase.adds
  case false =>
    by_cases hu : g.update (db.members g.key.encode) = ∅ <;>
      simp [hl ha, not_exceeds (hl ha), hu, deleteRowWithoutMembers]
  case true =>
    rw [ha] at hf
    simp only [hf, Function.update_self] at hs
    have hx : (0 < g.maxMembers ∧ 0 < (changeMembers true g.key.encode g.members db 0).snd ∧
        g.maxMembers < (g.update (db.members g.key.encode)).card) ↔
        g.Exceeds (db.members g.key.encode).card (g.update (db.members g.key.encode)).card := by
      unfold Group.Exceeds
      omega
    simp only [hx, update_nonempty hn ha, ↓reduceIte]

-- A group whose key has a collection row of its kind, over a state that may be wrong under this
-- key.
theorem changeGroup_refines (db : DB) {g : Group o} (hn : g.members ≠ [])
    (hl : g.phase.adds = false → g.maxMembers = 0)
    (hr : db.rows g.key.encode = some ⟨[], expectedKind g.phase, none⟩)
    (hi : ∀ e ≠ g.key.encode, Fits (db.rows e) (db.members e))
    (ha : ∀ e ≠ g.key.encode, (logical db).live now e = σ.live now e) :
    Except.Rel (Refines now) (changeGroup db g)
      (let s := db.members g.key.encode
       if g.Exceeds s.card (g.update s).card then .error .memberLimit else
        .ok (σ.store g.key.encode g.phase.ordered (g.update s))) := by
  have ⟨hk, hd⟩ := expectedKind_eq g.phase
  rw [changeGroup_eq hn hl]
  refine .ite (fun _ => .error _) fun _ => .ok ⟨fun e => ?inv, funext fun e => ?alike⟩
  case inv =>
    by_cases he : e = g.key.encode
    case neg =>
      have hf := hi e he
      by_cases hs : g.update (db.members g.key.encode) = ∅ <;> simpa [hs, he] using hf
    case pos =>
      by_cases hs : g.update (db.members g.key.encode) = ∅
      case pos => simp [he, hs, Fits]
      case neg =>
        have hk : expectedKind g.phase = 1 ∨ expectedKind g.phase = 2 := by
          cases g.phase <;> decide
        simp [he, hs, hr, Fits, hk]
  case alike =>
    rw [Logical.live_store]
    by_cases he : e = g.key.encode
    case neg =>
      rw [if_neg he, ← ha e he]
      by_cases hs : g.update (db.members g.key.encode) = ∅ <;> simp [Logical.live, hs, he]
    case pos =>
      by_cases hs : g.update (db.members g.key.encode) = ∅ <;>
        simp [Logical.live, hs, he, hr, Row.toVal, hk, hd, Val.expired]

-- A free key has no members, also when an expired record is still there.
theorem members_of_free (h : Inv db) (hs : selectLive now db e = none) : db.members e = ∅ := by
  have hf := h e
  unfold selectLive at hs
  cases hr : db.rows e
  case none => simpa [hr, Fits] using hf
  case some =>
    rw [hr] at hf hs
    rcases hf with ⟨-, hm⟩ | ⟨-, he, -⟩
    case inl => exact hm
    case inr => simp [he] at hs

theorem Refines.members_eq (h : Refines now db σ) (e : EncKey) :
    σ.members now e = db.members e := by
  have hfits := h.inv e
  unfold Logical.members
  rw [h.live_eq]
  cases hs : selectLive now db e
  case none => exact (members_of_free h.inv hs).symm
  case some =>
    have ⟨hrow, _⟩ := Option.filter_eq_some_iff.mp hs
    rw [hrow] at hfits
    rcases hfits with ⟨hk, hm⟩ | ⟨hk, -⟩
    case inl => simp [Row.toVal, hk, hm]
    case inr => rcases hk with hk | hk <;> simp [Row.toVal, hk]

theorem kind_toVal (h : Fits (some row) s) (phase : Phase) :
    (row.toVal s).kind = some phase.ordered ↔ row.kind = expectedKind phase := by
  rcases h with ⟨hk, -⟩ | ⟨hk, -⟩
  case inl => cases phase <;> simp [Row.toVal, Val.kind, hk, expectedKind, Phase.ordered]
  case inr =>
    rcases hk with hk | hk <;> cases phase <;>
      simp [Row.toVal, Val.kind, hk, expectedKind, Phase.ordered]

theorem applyGroup_refines (h : Refines now db σ) (g : Group o)
    (hl : g.phase.adds = false → g.maxMembers = 0) :
    Except.Rel (Refines now) (applyGroup now db g) (σ.applyGroup now g) := by
  by_cases hn : g.members = []
  case pos =>
    simp only [applyGroup, Logical.applyGroup, hn, ↓reduceIte]
    exact .ok h
  case neg =>
    have hfits := h.inv g.key.encode
    have hlive := h.live_eq g.key.encode
    have hmis : σ.Mismatch now g ↔
        (σ.live now g.key.encode).any (·.kind ≠ some g.phase.ordered) := .rfl
    rw [Logical.applyGroup_eq hn]
    simp only [applyGroup, hn, Logical.Over, Logical.force, h.members_eq, ↓reduceIte]
    cases hsel : selectLive now db g.key.encode
    case none =>
      rw [hsel] at hlive
      have hm := members_of_free h.inv hsel
      have hc : clearMembers db [g.key.encode] = db := by
        rw [clearMembers_eq, deleteMembersOf]
        congr 1
        ext1 e
        by_cases he : e = g.key.encode <;> simp [he, hm]
      have hok : ¬σ.Mismatch now g := by simp [hmis, hlive]
      simp only [hc, hok, ↓reduceIte]
      cases ha : g.phase.adds
      case false =>
        have hz : g.update ∅ = ∅ := by
          ext m
          simp [ha]
        simp only [hm, hz, not_exceeds (hl ha), Bool.not_false, ↓reduceIte]
        refine .ok ⟨h.inv, h.alike.trans (funext fun e => ?_)⟩
        rw [Logical.live_store]
        by_cases he : e = g.key.encode <;> simp [he, hlive]
      case true =>
        exact changeGroup_refines (insertCollection db g.key.encode (expectedKind g.phase)) hn hl
          (by simp)
          (fun e he => by simpa [he] using h.inv e)
          (fun e he => by simpa [he, Logical.live] using h.alike.live e)
    case some row =>
      obtain ⟨hrow, _⟩ := Option.filter_eq_some_iff.mp hsel
      rw [hrow] at hfits
      have hm : σ.Mismatch now g ↔ row.kind ≠ expectedKind g.phase := by
        simp [hmis, hlive, hsel, kind_toVal hfits]
      simp only [hm]
      refine .ite (fun _ => .error _) fun heq => ?_
      have hr : db.rows g.key.encode = some ⟨[], expectedKind g.phase, none⟩ := by
        have heq := not_ne_iff.mp heq
        rcases hfits with ⟨hz, -⟩ | ⟨-, hx, hv, -⟩
        case inl => exact absurd (heq ▸ hz) (expectedKind_eq g.phase).left
        case inr => rw [hrow, ← heq, ← hx, ← hv]
      exact changeGroup_refines db hn hl hr (fun e _ => h.inv e) (fun e _ => h.alike.live e)

theorem applyGroups_refines (h : Refines now db σ) (gs : List (Group o))
    (hl : ∀ g ∈ gs, g.phase.adds = false → g.maxMembers = 0) :
    Except.Rel (Refines now) (applyGroups now db gs) (σ.applyGroups now gs) := by
  induction gs generalizing db σ
  case nil => exact .ok h
  case cons g gs hi =>
    simp only [List.mem_cons, forall_eq_or_imp] at hl
    exact (applyGroup_refines h g hl.left).bind fun _ _ h => hi h hl.right

end Groups

theorem applyMutation_refines (h : Refines now db σ) (hn : unixNano now = now) (m : Mutation o)
    (hd : Representable m.entries) :
    Except.Rel (Option.Rel (Refines now)) (applyMutation now db m) (σ.applyMutation now m) := by
  unfold applyMutation Logical.applyMutation
  rw [hn, checkConditions_eq h, prepare_eq hd]
  cases hv : m.validate now
  case error e => exact .error e
  case ok =>
    have v := Mutation.validate_valid hv
    refine .bind (.of_eq rfl) fun _ _ _ => .bind (.of_eq rfl) fun b _ hb => ?_
    subst hb
    cases b
    case false => exact .ok .none
    case true =>
      rw [checkDeadlines_ok_iff.mpr v.deadlines]
      exact (applyGroups_refines (clearMembers_records h m.entries m.deleteKeys) m.groups
        fun g hg => (v.limits g hg).right).map fun _ _ h => .some h

section CreateIfAllAbsent

theorem deleteExpiredRow_rows (db : DB) (keys : List EncKey) (e : EncKey) :
    (keys.foldl (deleteExpiredRow now) db).rows e =
    if e ∈ keys then (db.rows e).filter (!·.expired now) else db.rows e := by
  induction keys generalizing db
  case nil => rfl
  case cons k ks hi =>
    by_cases he : e = k <;> by_cases hm : e ∈ ks <;> simp_all

theorem selectLive_cleanupExpired (he : e ∈ keys) (dialect : Dialect) (db : DB) :
    selectLive now (cleanupExpired dialect now db keys) e =
    (cleanupExpired dialect now db keys).rows e := by
  have hr : (cleanupExpired dialect now db keys).rows e =
      (db.rows e).filter (!·.expired now) := by
    cases dialect
    case sqlite => rfl
    case postgreSQL => exact (deleteExpiredRow_rows db keys e).trans (if_pos he)
  unfold selectLive
  rw [hr, Option.filter_filter]
  congr 1
  ext1 row
  rw [Row.expires_all, Bool.and_self]

theorem findGuard_eq (h : Refines now db σ) (guards : List (Entry o))
    (hx : ∀ g ∈ guards, selectLive now db g.key.encode = db.rows g.key.encode) :
    findGuard db guards = σ.findGuard now guards := by
  induction guards
  case nil => rfl
  case cons g gs hi =>
    simp only [List.mem_cons, forall_eq_or_imp] at hx
    have hfits := h.inv g.key.encode
    simp only [findGuard, Logical.findGuard, hi hx.right, h.live_eq, hx.left]
    cases hr : db.rows g.key.encode
    case none => rfl
    case some row =>
      rw [hr] at hfits
      rcases hfits with ⟨hk, -⟩ | ⟨hk, -, hv, -⟩
      case inl => simp [Row.toVal, hk]
      case inr =>
        have hz : row.kind ≠ 0 := by omega
        simp [Row.toVal, hz, hv]

theorem claimGuards_eq (claimed : List EncKey) (db : DB)
    (h : ∀ g ∈ guards, g.key ∉ claimed → db.rows g.key = none) :
    ∃ db', claimGuards claimed db guards = .inr db' ∧ db'.members = db.members ∧
      ∀ e, e ∉ guards.map (·.key) → db'.rows e = db.rows e := by
  induction guards generalizing claimed db
  case nil => exact ⟨db, rfl, rfl, fun _ _ => rfl⟩
  case cons g gs hi =>
    simp only [List.mem_cons, forall_eq_or_imp] at h
    unfold claimGuards
    by_cases hc : g.key ∈ claimed
    case pos =>
      have ⟨db', h₁, h₂, h₃⟩ := hi _ _ h.right
      refine ⟨db', by rw [if_pos hc, h₁], h₂, fun e he => h₃ e ?_⟩
      exact fun hm => he (List.mem_cons_of_mem _ hm)
    case neg =>
      have hclaim : claim db g = some (upsert db g) := by simp [claim, h.left hc]
      have hnext : ∀ x ∈ gs, x.key ∉ g.key :: claimed → (upsert db g).rows x.key = none := by
        intro x hx hn
        simp only [List.mem_cons, not_or] at hn
        exact (Function.update_of_ne hn.left ..).trans (h.right x hx hn.right)
      have ⟨db', h₁, h₂, h₃⟩ := hi _ _ hnext
      refine ⟨db', by simp only [hc, hclaim, ↓reduceIte, h₁], h₂, fun e he => ?_⟩
      simp only [List.map_cons, List.mem_cons, not_or] at he
      exact (h₃ e he.right).trans (Function.update_of_ne he.left ..)

theorem findGuard_none (h : findGuard db guards = none) :
    ∀ g ∈ guards, db.rows g.key.encode = none := by
  induction guards
  case nil => simp
  case cons hi =>
    unfold findGuard at h
    split at h
    case h_2 => simp at h
    case h_1 hr => exact List.forall_mem_cons.mpr ⟨hr, hi h⟩

-- Claiming leaves rows under the keys of the guards only, and these are written again.
theorem create_refines (h : Refines now db σ) {guards : List (Entry o)}
    (hf : findGuard db guards = none) (entries : List (Entry o)) :
    ∃ db', claimGuards [] db (guards.map sqlEntry) = .inr db' ∧
      Refines now
        ((guards.map sqlEntry).foldl upsert ((entries.map sqlEntry).foldl upsert
          (clearMembers db' (mutationKeys (guards ++ entries) []))))
        (σ.putAll (entries ++ guards)) := by
  have hg : ∀ g ∈ guards.map sqlEntry, g.key ∉ [] → db.rows g.key = none := by
    simpa [sqlEntry] using findGuard_none hf
  have ⟨db', hc, hm, hr⟩ := claimGuards_eq [] db hg
  have hk (e : EncKey) : e ∈ mutationKeys (guards ++ entries) [] ↔
      e ∈ (entries ++ guards).map (·.key.encode) := by
    simp [mem_mutationKeys, or_comm]
  refine ⟨db', hc, ?_⟩
  rw [← List.foldl_append, ← List.map_append, clearMembers_eq]
  refine records_refines h (entries ++ guards) [] (fun e he _ => ?frame) fun e he => ?members
  case frame =>
    refine ⟨hr e fun hg => he ?_, ?_⟩
    · simp only [List.map_map, List.map_append, List.mem_append] at hg ⊢
      exact .inr hg
    · exact (if_neg ((hk e).not.mpr he)).trans (congrFun hm e)
  case members => exact if_pos ((hk e).mpr (he.resolve_right (by simp)))

theorem createIfAllAbsent_refines (h : Refines now db σ) (hn : unixNano now = now)
    (dialect : Dialect) {guards entries : List (Entry o)} (hd : Representable (guards ++ entries)) :
    Except.Rel (Sum.LiftRel Eq (Refines now)) (createIfAllAbsent dialect now db guards entries)
      (σ.createIfAllAbsent now guards entries) := by
  have ⟨hg, he⟩ := List.forall_mem_append.mp hd
  have hc := cleanupExpired_refines h dialect (mutationKeys (guards ++ entries) [])
  have hf := findGuard_eq hc guards fun g hm => by
    refine selectLive_cleanupExpired (mem_mutationKeys.mpr (.inl ?_)) dialect db
    exact List.mem_map_of_mem (List.mem_append_left _ hm)
  unfold createIfAllAbsent Logical.createIfAllAbsent
  rw [← hf, hn, prepare_eq hg, prepare_eq he, checkDeadlines_append]
  refine .ite (fun _ => .error _) fun _ => ?_
  cases hfind :
    findGuard (cleanupExpired dialect now db (mutationKeys (guards ++ entries) [])) guards
  case some =>
    simp only [hfind]
    exact .ok (.inl rfl)
  case none =>
    have ⟨db', hclaim, hr⟩ := create_refines hc hfind entries
    simp only [hfind]
    cases checkDeadlines now entries
    case error e => exact .error e
    case ok =>
      cases checkDeadlines now guards
      case error e => exact .error e
      case ok =>
        simp only [Except.map_ok, Except.bind_ok, hclaim]
        exact .ok (.inr hr)

end CreateIfAllAbsent

theorem call_refines (h : Refines now db σ) (hn : unixNano now = now) (dialect : Dialect)
    (w : Write o) (hd : Representable w.entries) :
    (call dialect ⟨now, w⟩ db).fst = (σ.call ⟨now, w⟩).fst ∧
    Refines now (call dialect ⟨now, w⟩ db).snd (σ.call ⟨now, w⟩).snd := by
  refine settle_rel (R := Refines now) h ?_
  cases w
  case set key value =>
    exact batchMutate_refines h hn dialect [⟨key, value, none⟩] [] (by simp)
  case delete key =>
    exact batchMutate_refines h hn dialect ([] : List (Entry o)) [key] (by simp)
  case batchMutate entries keys => exact batchMutate_refines h hn dialect entries keys hd
  case applyMutation m => exact applyMutation_refines h hn m hd

theorem request_refines (h : Refines now db σ) (hn : unixNano now = now) (dialect : Dialect)
    (r : Request o) (hd : Representable r.entries) :
    (request dialect now r db).fst = (σ.request now r).fst ∧
    Refines now (request dialect now r db).snd (σ.request now r).snd := by
  cases r
  case write w =>
    have ⟨hr, hs⟩ := call_refines h hn dialect w hd
    exact ⟨congrArg (Reply.applied <$> ·) hr, hs⟩
  case createIfAllAbsent =>
    exact settleCreate_rel h (createIfAllAbsent_refines h hn dialect hd)

section Reads

variable (key : Key o)

theorem get_eq (h : Refines now db σ) (hn : unixNano now = now) :
    (get now db key).fst = σ.get now key.encode := by
  simp only [get, Logical.get, h.live_eq, hn, selectLive]
  cases db.rows key.encode
  case none => rfl
  case some row =>
    rw [Option.filter_some, Row.expires_all]
    cases hx : row.expired now <;> by_cases hk : row.kind = 0 <;> simp [Row.toVal, hk, hx]

theorem get_refines (h : Refines now db σ) (hn : unixNano now = now) :
    Refines now (get now db key).snd σ := by
  unfold get
  rw [hn]
  split
  case h_1 => exact h
  case h_2 =>
    split_ifs
    · exact deleteExpiredRow_refines h key.encode
    · exact h
    · exact h

theorem scanRows_same (kind : Nat) (rows : List (Option Bytes)) :
    scanRows kind kind rows = .ok (rows.flatMap Option.toList) := by
  induction rows
  case nil => rfl
  case cons hi =>
    simp only [scanRows, ne_eq, not_true_eq_false, ↓reduceIte, hi]
    rfl

theorem scanRows_ne (hk : kind ≠ expected)
    (hr : rows ≠ []) : scanRows kind expected rows = .error .wrongType := by
  cases rows
  case nil => contradiction
  case cons => exact if_pos hk

theorem leftJoin_ne_nil (members : List Bytes) : leftJoin members ≠ [] := by
  unfold leftJoin
  split
  case isTrue => exact List.cons_ne_nil _ _
  case isFalse h => simpa using h

-- The row without a member does not count.
theorem flatMap_leftJoin (members : List Bytes) :
    (leftJoin members).flatMap Option.toList = members := by
  unfold leftJoin
  split
  case isTrue h => simp [h]
  case isFalse => simp [List.flatMap_map]

theorem flatMap_take_leftJoin (members : List Bytes) (n : Nat) :
    ((leftJoin members).take n).flatMap Option.toList = members.take n := by
  unfold leftJoin
  split
  case isTrue h => cases n <;> simp [h]
  case isFalse => simp [← List.map_take, List.flatMap_map]

variable (h : Refines now db σ) (hn : unixNano now = now)
include h hn

theorem hasMember_eq (m : Bytes) : hasMember now db key m = σ.hasMember now key.encode m := by
  have hfits := h.inv key.encode
  simp only [hasMember, Logical.hasMember, h.live_eq, hn]
  cases hs : selectLive now db key.encode
  case none => rfl
  case some =>
    have ⟨hrow, _⟩ := Option.filter_eq_some_iff.mp hs
    rw [hrow] at hfits
    rcases hfits with ⟨hk, -⟩ | ⟨hk | hk, -⟩ <;> simp [Row.toVal, hk]

theorem listMembers_eq : listMembers now db key = σ.listMembers now key.encode := by
  have hfits := h.inv key.encode
  simp only [listMembers, Logical.listMembers, h.live_eq, hn]
  cases hs : selectLive now db key.encode
  case none => rfl
  case some row =>
    have ⟨hrow, _⟩ := Option.filter_eq_some_iff.mp hs
    rw [hrow] at hfits
    simp only [Option.map_some]
    by_cases hk : row.kind = 1
    case pos =>
      simp [Row.toVal, hk, scanRows_same, flatMap_leftJoin]
    case neg =>
      rw [scanRows_ne hk (leftJoin_ne_nil _)]
      rcases hfits with ⟨hk', -⟩ | ⟨hk', -⟩
      · simp [Row.toVal, hk']
      · simp [Row.toVal, hk'.resolve_left hk]

theorem rangeOrderedMembers_eq (q : OrderedRange) :
    rangeOrderedMembers now db key q = σ.rangeOrderedMembers now key.encode q := by
  have hfits := h.inv key.encode
  simp only [rangeOrderedMembers, Logical.rangeOrderedMembers, h.live_eq, hn]
  cases hq : q.validate
  case error => rfl
  case ok =>
    have hlimit : 0 < q.limit.toNat := by
      simp only [OrderedRange.validate] at hq
      split at hq
      · simp at hq
      · omega
    cases hs : selectLive now db key.encode
    case none => rfl
    case some row =>
      have ⟨hrow, _⟩ := Option.filter_eq_some_iff.mp hs
      rw [hrow] at hfits
      simp only [Except.bind_ok, Option.map_some]
      by_cases hk : row.kind = 2
      case pos => simp [Row.toVal, hk, scanRows_same, flatMap_take_leftJoin]
      case neg =>
        rw [scanRows_ne hk (by simpa [leftJoin_ne_nil] using hlimit.ne')]
        rcases hfits with ⟨hk', -⟩ | ⟨hk', -⟩
        · simp [Row.toVal, hk']
        · simp [Row.toVal, hk'.resolve_right hk]

end Reads

end GizClaw.KV.SQL

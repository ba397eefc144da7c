import GizClaw.Lib.Machine
import GizClaw.KV.Theorems.Memory
import GizClaw.KV.Theorems.SQL
import GizClaw.KV.Theorems.Expiry

-- The SQL and the TiKV store side by side with the in-memory store. All of them see the same calls
-- at the same times, and clean up expired records each in its own way.

namespace GizClaw.KV

open Machine (fold both fold_both)

variable {o : Option Options} {now : Time}

-- A call that changes a store, or one that may remove expired records on the way.
inductive Step (o : Option Options) where
  | request (r : Request o)
  | get (key : Key o)
  | purgeExpired (limit : Int)

structure Input (o : Option Options) where
  now : Time
  step : Step o

def Input.Admitted (i : Input o) : Prop :=
  Readable i.now ∧ ∀ r, i.step = .request r → Representable r.entries

-- Only TiKV has a purge.
def Memory.advance (i : Input o) (data : Memory) : Memory :=
  match i.step with
  | .request r => (data.request i.now r).snd
  | .get key => (data.get i.now key).snd
  | .purgeExpired _ => data

def SQL.advance (dialect : SQL.Dialect) (i : Input o) (db : SQL.DB) : SQL.DB :=
  match i.step with
  | .request r => (SQL.request dialect i.now r db).snd
  | .get key => SQL.cleanupExpiredRead i.now db key
  | .purgeExpired _ => db

def TiKV.advance (i : Input o) (db : TiKV.DB) : TiKV.DB :=
  match i.step with
  | .request r => (TiKV.request i.now r db).snd
  | .get _ => db
  | .purgeExpired limit => (TiKV.purgeExpired o i.now limit db).snd

theorem Memory.get_alike {data : Memory} (h : data.WF) (now : Time) (key : Key o) :
    (data.get now key).snd.WF ∧
    Logical.Alike now (data.get now key).snd.logical data.logical := by
  have same : data.WF ∧ Logical.Alike now data.logical data.logical := ⟨h, rfl⟩
  unfold get
  split
  case h_1 => exact same
  case h_2 he =>
    split_ifs with hx
    · refine ⟨h.update (by simp), funext fun e => ?_⟩
      rw [logical_update, Logical.live_update]
      split
      case isFalse => rfl
      case isTrue heq =>
        rw [heq, live_logical h, live, he, Option.filter_some, hx]
        rfl
    · exact same
    · exact same

theorem TiKV.purgeExpired_refines (h : TiKV.Refines now db σ) (hn : Readable now) (limit : Int) :
    TiKV.Refines now (TiKV.purgeExpired o now limit db).snd σ := by
  have heq := hn.unixNano_eq
  unfold purgeExpired
  cases checkLimit limit
  case error => exact h
  case ok =>
    have hdue : ∀ k ∈ candidates now limit.toNat db, Due (unixNano now) k := fun k hk =>
      candidates_due h.inv (heq.symm ▸ hn.left) hk
    have ⟨hi, ha, _⟩ := purgeCandidates_spec h.inv o hdue
    exact ⟨hi, (heq ▸ ha).trans h.alike⟩

-- The three stores show the same at the same time.
structure Agree (now : Time) (memory : Memory) (sql : SQL.DB) (tikv : TiKV.DB) : Prop where
  wf : memory.WF
  sql : SQL.Refines now sql memory.logical
  tikv : TiKV.Refines now tikv memory.logical

namespace Agree

variable {memory : Memory} {sql : SQL.DB} {tikv : TiKV.DB}

theorem empty (now : Time) : Agree now .empty .empty ∅ where
  wf := Memory.empty_wf
  sql := ⟨SQL.empty_inv, rfl⟩
  tikv := ⟨TiKV.empty_inv, rfl⟩

theorem mono (h : Agree t memory sql tikv) (ht : t ≤ t') : Agree t' memory sql tikv where
  wf := h.wf
  sql := ⟨h.sql.inv, h.sql.alike.mono ht⟩
  tikv := ⟨h.tikv.inv, h.tikv.alike.mono ht⟩

theorem request (h : Agree now memory sql tikv) (hn : Readable now) (dialect : SQL.Dialect)
    (r : Request o) (hd : Representable r.entries) :
    (SQL.request dialect now r sql).fst = (memory.request now r).fst ∧
    (TiKV.request now r tikv).fst =
      (if memory.logical.collectionGuard now r.guards then .error .wrongType
        else (memory.request now r).fst) ∧
    Agree now (memory.request now r).snd (SQL.request dialect now r sql).snd
      (TiKV.request now r tikv).snd := by
  have ⟨hm, hw, hl⟩ := Memory.request_refines h.wf now r
  have ⟨hs, hsql⟩ := SQL.request_refines h.sql hn.unixNano_eq dialect r hd
  have ⟨ht, htikv⟩ := TiKV.request_refines h.tikv hn.unixNano_eq hn.left r hd
  rw [hm]
  exact ⟨hs, ht, hw, hl ▸ hsql, hl ▸ htikv⟩

theorem advance (dialect : SQL.Dialect) {i : Input o} (h : Agree i.now memory sql tikv)
    (hi : i.Admitted) :
    Agree i.now (memory.advance i) (SQL.advance dialect i sql) (TiKV.advance i tikv) := by
  unfold Memory.advance SQL.advance TiKV.advance
  cases hs : i.step
  case request r => exact (h.request hi.left dialect r (hi.right r hs)).right.right
  case get key =>
    have ⟨hw, ha⟩ := Memory.get_alike h.wf i.now key
    have hsql := SQL.get_refines key h.sql hi.left.unixNano_eq
    exact ⟨hw, ⟨hsql.inv, hsql.alike.trans ha.symm⟩, h.tikv.inv, h.tikv.alike.trans ha.symm⟩
  case purgeExpired limit => exact ⟨h.wf, h.sql, TiKV.purgeExpired_refines h.tikv hi.left limit⟩

end Agree

section Runs

variable (dialect : SQL.Dialect) (inputs : List (Input o))

theorem agree_after (hc : Machine.Ordered Input.now inputs) (hi : ∀ i ∈ inputs, i.Admitted)
    (hl : ∀ i ∈ inputs, i.now ≤ now) :
    Agree now (fold Memory.advance inputs .empty)
      (fold (SQL.advance dialect) inputs .empty) (fold TiKV.advance inputs ∅) := by
  have h := Machine.fold_timed (p := Input.Admitted) (t := now) (s := (.empty, .empty, ∅))
    (both Memory.advance (both (SQL.advance dialect) TiKV.advance))
    (P := fun t s => Agree t s.fst s.snd.fst s.snd.snd)
    (fun i s hi h => h.advance dialect hi) (fun t t' s ht h => h.mono ht) Agree.empty hc hi hl
  rw [fold_both, fold_both] at h
  exact h

-- A record that expires at 5, written at 1.
def putUntilFive : Input none where
  now := 1
  step := .request (.write (.batchMutate [⟨sampleKey, [7], some 5⟩] []))

-- A deadline beyond what `int64` holds, and a guard that is a collection.
def farPut : Request none :=
  .write (.batchMutate [⟨sampleKey, [7], some (2 ^ 63)⟩] [])

def addMember : Input none where
  now := 1
  step := .request (.write (.applyMutation ⟨[], [], [], [⟨sampleKey, [[7]], 0⟩], [], [], []⟩))

def guarded : Request none :=
  .createIfAllAbsent [⟨sampleKey, [8], none⟩] []

end Runs

end GizClaw.KV

import GizClaw.Lib.Except
import GizClaw.Lib.Rows

-- Transactions on a table as programs. A transaction reads the snapshot that it started on, with
-- its own buffered writes on top. The buffer reaches the table when the transaction commits.

-- The state of a running transaction: what it sees, and the keys that it has written.
structure Tx (κ ν : Type) where
  view : Rows κ ν
  written : List κ

-- A transaction, operation by operation. `scan` yields the keys of a half-open range in order.
inductive Prog (κ ν ε α : Type) where
  | ret (a : α)
  | fail (e : ε)
  | get (k : κ) (next : Option ν → Prog κ ν ε α)
  | scan (start : κ) (stop : Option κ) (next : List κ → Prog κ ν ε α)
  | set (k : κ) (v : ν) (next : Prog κ ν ε α)
  | delete (k : κ) (next : Prog κ ν ε α)

namespace Tx

variable {κ ν : Type}

def start (db : Rows κ ν) : Tx κ ν where
  view := db
  written := []

section Scan

variable [LinearOrder κ]

def InRange (start : κ) (stop : Option κ) (k : κ) : Prop :=
  ¬k < start ∧ ∀ s ∈ stop, k < s

instance (start : κ) (stop : Option κ) : DecidablePred (InRange start stop) :=
  fun _ => inferInstanceAs (Decidable (_ ∧ ∀ s ∈ stop, _))

def scan (tx : Tx κ ν) (start : κ) (stop : Option κ) : List κ :=
  tx.view.scan (InRange start stop)

end Scan

variable [DecidableEq κ]

def set (tx : Tx κ ν) (k : κ) (v : ν) : Tx κ ν where
  view := tx.view.insert k v
  written := k :: tx.written

def delete (tx : Tx κ ν) (k : κ) : Tx κ ν where
  view := tx.view.erase k
  written := k :: tx.written

def deleteAll (tx : Tx κ ν) (ks : List κ) : Tx κ ν :=
  ks.foldl delete tx

theorem lookup_deleteAll (tx : Tx κ ν) (ks : List κ) (i : κ) :
    (tx.deleteAll ks).view.lookup i = if i ∈ ks then none else tx.view.lookup i := by
  induction ks generalizing tx
  case nil => rfl
  case cons k ks hi =>
    rw [deleteAll, List.foldl_cons, ← deleteAll, hi]
    by_cases h₁ : i ∈ ks <;> by_cases h₂ : i = k <;> simp [delete, Rows.lookup_erase, h₁, h₂]

-- Writes the buffer to a table, which need not be the snapshot anymore.
def commit (tx : Tx κ ν) (db : Rows κ ν) : Rows κ ν :=
  tx.written.foldl
    (fun db k => match tx.view.lookup k with
      | some v => db.insert k v
      | none => db.erase k) db

theorem lookup_commit (tx : Tx κ ν) (db : Rows κ ν) (k : κ) :
    (tx.commit db).lookup k = if k ∈ tx.written then tx.view.lookup k else db.lookup k := by
  unfold commit
  induction tx.written generalizing db
  case nil => rfl
  case cons k' ks hi =>
    rw [List.foldl_cons, hi]
    by_cases hk : k = k'
    case neg => cases tx.view.lookup k' <;> simp [hk]
    case pos =>
      subst hk
      cases hl : tx.view.lookup k <;> simp

-- Rows that were not written are those of the snapshot.
def Over (db : Rows κ ν) (tx : Tx κ ν) : Prop :=
  ∀ k, k ∉ tx.written → tx.view.lookup k = db.lookup k

theorem Over.commit_eq {tx : Tx κ ν} (h : Over db tx) : tx.commit db = tx.view := by
  refine Finmap.ext_lookup fun k => ?_
  rw [lookup_commit]
  split
  case isTrue => rfl
  case isFalse hk => exact (h k hk).symm

theorem over_start (db : Rows κ ν) : Over db (start db) :=
  fun _ _ => rfl

theorem Over.set (h : Over db tx) (k : κ) (v : ν) : Over db (tx.set k v) := by
  intro i hi
  simp only [Tx.set, List.mem_cons, not_or] at hi ⊢
  rw [Rows.lookup_insert, if_neg hi.left, h i hi.right]

theorem Over.delete (h : Over db tx) (k : κ) : Over db (tx.delete k) := by
  intro i hi
  simp only [Tx.delete, List.mem_cons, not_or] at hi ⊢
  rw [Rows.lookup_erase, if_neg hi.left, h i hi.right]

-- Two transactions that have written the same, on snapshots that agree on some rows.
structure Agree (S : Set κ) (tx₀ tx₁ : Tx κ ν) : Prop where
  written : tx₁.written = tx₀.written
  view : ∀ k, k ∈ S ∨ k ∈ tx₀.written → tx₁.view.lookup k = tx₀.view.lookup k

namespace Agree

variable {S : Set κ} {tx₀ tx₁ : Tx κ ν}

theorem set (h : Agree S tx₀ tx₁) (k : κ) (v : ν) : Agree S (tx₀.set k v) (tx₁.set k v) where
  written := congrArg (k :: ·) h.written
  view i hi := by
    simp only [Tx.set, Rows.lookup_insert, List.mem_cons] at hi ⊢
    split
    case isTrue => rfl
    case isFalse hk => exact h.view i (hi.imp_right (·.resolve_left hk))

theorem delete (h : Agree S tx₀ tx₁) (k : κ) : Agree S (tx₀.delete k) (tx₁.delete k) where
  written := congrArg (k :: ·) h.written
  view i hi := by
    simp only [Tx.delete, Rows.lookup_erase, List.mem_cons] at hi ⊢
    split
    case isTrue => rfl
    case isFalse hk => exact h.view i (hi.imp_right (·.resolve_left hk))

theorem commit_eq (h : Agree S tx₀ tx₁) (db : Rows κ ν) : tx₁.commit db = tx₀.commit db := by
  refine Finmap.ext_lookup fun k => ?_
  rw [lookup_commit, lookup_commit, h.written]
  split
  case isTrue hk => exact h.view k (.inr hk)
  case isFalse => rfl

end Agree

theorem Agree.scan_eq {κ ν : Type} [LinearOrder κ] [DecidableEq κ] {S : Set κ} {tx₀ tx₁ : Tx κ ν}
    (h : Agree S tx₀ tx₁) {start : κ} {stop : Option κ} (hr : ∀ k, InRange start stop k → k ∈ S) :
    tx₁.scan start stop = tx₀.scan start stop := by
  refine Rows.scan_congr fun k hk => ?_
  rw [Finmap.mem_iff, Finmap.mem_iff, h.view k (.inl (hr k hk))]

end Tx

namespace Prog

variable {κ ν ε α β : Type}
variable {p : Prog κ ν ε α} {tx : Tx κ ν} {db : Rows κ ν}

def bind : Prog κ ν ε α → (α → Prog κ ν ε β) → Prog κ ν ε β
  | ret a, f => f a
  | fail e, _ => fail e
  | get k next, f => get k fun v => (next v).bind f
  | scan start s next, f => scan start s fun ks => (next ks).bind f
  | set k v next, f => set k v (next.bind f)
  | delete k next, f => delete k (next.bind f)

instance : Monad (Prog κ ν ε) where
  pure := ret
  bind := bind

theorem bind_ret (p : Prog κ ν ε α) : p.bind ret = p := by
  induction p <;> simp_all [bind]

theorem bind_assoc {γ : Type} (p : Prog κ ν ε α) (f : α → Prog κ ν ε β) (g : β → Prog κ ν ε γ) :
    (p.bind f).bind g = p.bind fun a => (f a).bind g := by
  induction p <;> simp_all [bind]

instance : LawfulMonad (Prog κ ν ε) :=
  LawfulMonad.mk' _ bind_ret (fun _ _ => rfl) bind_assoc

@[simp]
theorem fail_bind (e : ε) (f : α → Prog κ ν ε β) : (fail e : Prog κ ν ε α) >>= f = fail e :=
  rfl

def ofExcept : Except ε α → Prog κ ν ε α
  | .ok a => ret a
  | .error e => fail e

def write (k : κ) (v : ν) : Prog κ ν ε Unit :=
  set k v (ret ())

def remove (k : κ) : Prog κ ν ε Unit :=
  delete k (ret ())

variable [LinearOrder κ] [DecidableEq κ]

def run : Prog κ ν ε α → Tx κ ν → Except ε (α × Tx κ ν)
  | ret a, tx => .ok (a, tx)
  | fail e, _ => .error e
  | get k next, tx => (next (tx.view.lookup k)).run tx
  | scan start s next, tx => (next (tx.scan start s)).run tx
  | set k v next, tx => next.run (tx.set k v)
  | delete k next, tx => next.run (tx.delete k)

@[simp]
theorem run_bind (p : Prog κ ν ε α) (f : α → Prog κ ν ε β) (tx : Tx κ ν) :
    (p >>= f).run tx = p.run tx >>= fun r => (f r.fst).run r.snd := by
  induction p generalizing tx
  case ret a | fail e => rfl
  case get k next hi => exact hi (tx.view.lookup k) tx
  case scan start s next hi => exact hi (tx.scan start s) tx
  case set k v next hi => exact hi (tx.set k v)
  case delete k next hi => exact hi (tx.delete k)

theorem exists_of_run_map
    (h : (f <$> p).run tx = .ok (b, tx')) : ∃ a, p.run tx = .ok (a, tx') ∧ f a = b := by
  rw [map_eq_pure_bind, run_bind] at h
  have ⟨⟨a, _⟩, ha, hb⟩ := Except.bind_eq_ok.mp h
  cases hb
  exact ⟨a, ha, rfl⟩

@[simp]
theorem run_pure (a : α) (tx : Tx κ ν) : (pure a : Prog κ ν ε α).run tx = .ok (a, tx) :=
  rfl

@[simp]
theorem run_ofExcept (x : Except ε α) (tx : Tx κ ν) :
    (ofExcept x : Prog κ ν ε α).run tx = x.map fun a => (a, tx) := by
  cases x <;> rfl

@[simp]
theorem run_write (k : κ) (v : ν) (tx : Tx κ ν) :
    (write k v : Prog κ ν ε Unit).run tx = .ok ((), tx.set k v) :=
  rfl

@[simp]
theorem run_remove (k : κ) (tx : Tx κ ν) :
    (remove k : Prog κ ν ε Unit).run tx = .ok ((), tx.delete k) :=
  rfl

@[simp]
theorem run_forM_remove (ks : List κ) (tx : Tx κ ν) :
    (ks.forM remove : Prog κ ν ε Unit).run tx = .ok ((), tx.deleteAll ks) := by
  induction ks generalizing tx
  case nil => rfl
  case cons k ks hi => exact hi (tx.delete k)

-- Writes are all that a transaction does to its view.
theorem run_over (h : tx.Over db) (hr : p.run tx = .ok (a, tx')) : tx'.Over db := by
  induction p generalizing tx
  case ret => cases hr; exact h
  case fail => cases hr
  case get k next hi | scan start s next hi => exact hi _ h hr
  case set k v next hi => exact hi (h.set k v) hr
  case delete k next hi => exact hi (h.delete k) hr

theorem written_subset (h : p.run tx = .ok (a, tx')) : tx.written ⊆ tx'.written := by
  induction p generalizing tx
  case ret => cases h; exact List.Subset.refl _
  case fail => cases h
  case get k next hi | scan start s next hi => exact hi _ h
  case set k v next hi | delete k next hi =>
    exact List.Subset.trans (List.subset_cons_self ..) (hi h)

section Reads

-- All rows that a run reads are in a given set. A scan reads its whole range.
def ReadsIn (S : Set κ) : Prog κ ν ε α → Tx κ ν → Prop
  | ret _, _ => True
  | fail _, _ => True
  | get k next, tx => k ∈ S ∧ (next (tx.view.lookup k)).ReadsIn S tx
  | scan start s next, tx =>
    (∀ k, Tx.InRange start s k → k ∈ S) ∧ (next (tx.scan start s)).ReadsIn S tx
  | set k v next, tx => next.ReadsIn S (tx.set k v)
  | delete k next, tx => next.ReadsIn S (tx.delete k)

variable {S S' : Set κ}

theorem ReadsIn.mono (h : p.ReadsIn S tx) (hs : S ⊆ S') : p.ReadsIn S' tx := by
  induction p generalizing tx
  case ret | fail => trivial
  case get hi => exact ⟨hs h.left, hi _ h.right⟩
  case scan hi => exact ⟨fun k hk => hs (h.left k hk), hi _ h.right⟩
  case set k v next hi | delete k next hi => exact hi h

theorem ReadsIn.bind {f : α → Prog κ ν ε β} (h : p.ReadsIn S tx)
    (hf : ∀ a tx', p.run tx = .ok (a, tx') → (f a).ReadsIn S tx') : (p >>= f).ReadsIn S tx := by
  induction p generalizing tx
  case ret a => exact hf a tx rfl
  case fail => trivial
  case get k next hi | scan start s next hi => exact ⟨h.left, hi _ h.right hf⟩
  case set k v next hi | delete k next hi => exact hi h hf

theorem readsIn_ofExcept (x : Except ε α) (tx : Tx κ ν) :
    (ofExcept x : Prog κ ν ε α).ReadsIn S tx := by
  cases x <;> trivial

-- A run does the same on every snapshot that agrees on the rows that it reads.
theorem run_congr {tx₀ tx₁ : Tx κ ν} (h : Tx.Agree S tx₀ tx₁) (hr : p.ReadsIn S tx₀) :
    Except.Rel (fun r₁ r₀ => r₁.fst = r₀.fst ∧ Tx.Agree S r₀.snd r₁.snd) (p.run tx₁)
      (p.run tx₀) := by
  induction p generalizing tx₀ tx₁
  case ret => exact .ok ⟨rfl, h⟩
  case fail e => exact .error e
  case get k next hi =>
    rw [run, run, h.view k (.inl hr.left)]
    exact hi _ h hr.right
  case scan hi =>
    rw [run, run, h.scan_eq hr.left]
    exact hi _ h hr.right
  case set k v next hi => exact hi (h.set k v) hr
  case delete k next hi => exact hi (h.delete k) hr

end Reads

end Prog

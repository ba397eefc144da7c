import GizClaw.KV.Basic

-- What a store is for: a map from encoded keys to records and member sets. Backends keep their data
-- in very different shapes, and each of them is compared with this one.

namespace GizClaw.KV

variable {o : Option Options}

inductive Val where
  | record (value : Bytes) (deadline : Option Time)
  | members (ordered : Bool) (set : Finset Bytes)
  deriving DecidableEq

namespace Val

def expired (now : Time) : Val → Bool
  | record _ (some d) => d ≤ now
  | record _ none => false
  | members .. => false

theorem expired_mono {v : Val} (h : v.expired t₁) (ht : t₁ ≤ t₂) : v.expired t₂ := by
  cases v
  case members => contradiction
  case record d =>
    cases d
    case none => contradiction
    case some =>
      simp only [expired, decide_eq_true_eq] at h ⊢
      exact h.trans ht

end Val

-- The member set that a group leaves behind, member by member as every backend visits them.
def Group.update (g : Group o) (s : Finset Bytes) : Finset Bytes :=
  g.members.foldl (fun s m => if g.phase.adds then insert m s else s.erase m) s

theorem Group.mem_foldl {b : Bool} {ms : List Bytes} {s : Finset Bytes} :
    x ∈ ms.foldl (fun s m => if b then insert m s else s.erase m) s ↔
    if b then x ∈ ms ∨ x ∈ s else x ∉ ms ∧ x ∈ s := by
  induction ms generalizing s
  case nil => simp
  case cons =>
    cases b <;> simp_all only [List.foldl_cons, Bool.false_eq_true, ↓reduceIte, List.mem_cons,
      Finset.mem_erase, Finset.mem_insert] <;> tauto

theorem Group.mem_update {g : Group o} {s : Finset Bytes} {x : Bytes} :
    x ∈ g.update s ↔ if g.phase.adds then x ∈ g.members ∨ x ∈ s else x ∉ g.members ∧ x ∈ s :=
  mem_foldl

-- `MaxMembers` bounds a collection only when the group makes it larger.
def Group.Exceeds (g : Group o) (previous count : Nat) : Prop :=
  0 < g.maxMembers ∧ g.maxMembers < count ∧ previous < count

instance (g : Group o) (previous count : Nat) : Decidable (g.Exceeds previous count) :=
  inferInstanceAs (Decidable (_ ∧ _ ∧ _))

def OrderedRange.Contains (q : OrderedRange) (m : Bytes) : Prop :=
  (∀ a ∈ q.after, a < m) ∧ (∀ b ∈ q.before, m < b)

instance (q : OrderedRange) (m : Bytes) : Decidable (q.Contains m) :=
  inferInstanceAs (Decidable ((∀ a ∈ q.after, _) ∧ (∀ b ∈ q.before, _)))

abbrev Logical := EncKey → Option Val

namespace Logical

def empty : Logical :=
  fun _ => none

def live (σ : Logical) (now : Time) (e : EncKey) : Option Val :=
  (σ e).filter (!·.expired now)

def get (σ : Logical) (now : Time) (e : EncKey) : Except Err Bytes :=
  match σ.live now e with
  | none => .error .notFound
  | some (.record v _) => .ok v
  | some (.members ..) => .error .wrongType

def hasMember (σ : Logical) (now : Time) (e : EncKey) (m : Bytes) : Except Err Bool :=
  match σ.live now e with
  | none => .ok false
  | some (.members false s) => .ok (m ∈ s)
  | some _ => .error .wrongType

def listMembers (σ : Logical) (now : Time) (e : EncKey) : Except Err (Finset Bytes) :=
  match σ.live now e with
  | none => .ok ∅
  | some (.members false s) => .ok s
  | some _ => .error .wrongType

def rangeOrderedMembers (σ : Logical) (now : Time) (e : EncKey) (q : OrderedRange) :
    Except Err (List Bytes) := do
  q.validate
  match σ.live now e with
  | none => .ok []
  | some (.members true s) => .ok (((s.filter q.Contains).sort (· ≤ ·)).take q.limit.toNat)
  | some _ => .error .wrongType

def checkConditions (σ : Logical) (now : Time) : List (Condition o) → Except Err Bool
  | [] => .ok true
  | c :: cs =>
    match c.expected, σ.live now c.key.encode with
    | none, none => σ.checkConditions now cs
    | none, some _ => .ok false
    | some _, none => .ok false
    | some _, some (.members ..) => .error .wrongType
    | some x, some (.record v _) => if v = x then σ.checkConditions now cs else .ok false

def put (σ : Logical) (entry : Entry o) : Logical :=
  Function.update σ entry.key.encode (some (.record entry.value entry.deadline))

def putAll (σ : Logical) (entries : List (Entry o)) : Logical :=
  entries.foldl put σ

def deleteAll (σ : Logical) (keys : List (Key o)) : Logical :=
  keys.foldl (fun σ k => Function.update σ k.encode none) σ

def store (σ : Logical) (e : EncKey) (ordered : Bool) (s : Finset Bytes) : Logical :=
  Function.update σ e (if s = ∅ then none else some (.members ordered s))

-- The members that a group starts from, unless its key holds something else.
def base (σ : Logical) (now : Time) (g : Group o) : Except Err (Finset Bytes) :=
  match σ.live now g.key.encode with
  | none => .ok ∅
  | some (.members ordered s) => if ordered = g.phase.ordered then .ok s else .error .wrongType
  | some (.record ..) => .error .wrongType

def applyGroup (σ : Logical) (now : Time) (g : Group o) : Except Err Logical :=
  if g.members = [] then .ok σ else do
    let s ← σ.base now g
    if g.Exceeds s.card (g.update s).card then .error .memberLimit else
      .ok (σ.store g.key.encode g.phase.ordered (g.update s))

def applyGroups (σ : Logical) (now : Time) : List (Group o) → Except Err Logical
  | [] => .ok σ
  | g :: gs => do (← σ.applyGroup now g).applyGroups now gs

-- `none` reports that a condition failed.
def applyMutation (σ : Logical) (now : Time) (m : Mutation o) : Except Err (Option Logical) := do
  m.validate now
  if ← σ.checkConditions now m.conditions then
    some <$> ((σ.putAll m.entries).deleteAll m.deleteKeys).applyGroups now m.groups
  else
    return none

def batchMutate (σ : Logical) (now : Time) (entries : List (Entry o)) (keys : List (Key o)) :
    Except Err (Option Logical) := do
  checkDeadlines now entries
  return some ((σ.putAll entries).deleteAll keys)

-- The first guard that exists. A collection reports no value.
def findGuard (σ : Logical) (now : Time) : List (Entry o) → Option (Key o × Bytes)
  | [] => none
  | guard :: guards =>
    match σ.live now guard.key.encode with
    | none => σ.findGuard now guards
    | some (.record v _) => some (guard.key, v)
    | some (.members ..) => some (guard.key, [])

def createIfAllAbsent (σ : Logical) (now : Time) (guards entries : List (Entry o)) :
    Except Err ((Key o × Bytes) ⊕ Logical) :=
  if guards = [] then .error noGuard else
    match σ.findGuard now guards with
    | some conflict => .ok (.inl conflict)
    | none => do
      checkDeadlines now (entries ++ guards)
      return .inr (σ.putAll (entries ++ guards))

def call (c : Call o) (σ : Logical) : Except Err Bool × Logical :=
  settle σ <| match c.write with
  | .set key value =>
    .ok (some (Function.update σ key.encode (some (.record value none))))
  | .delete key => .ok (some (Function.update σ key.encode none))
  | .batchMutate entries keys => σ.batchMutate c.now entries keys
  | .applyMutation m => σ.applyMutation c.now m

def request (now : Time) (r : Request o) (σ : Logical) : Except Err (Reply o) × Logical :=
  match r with
  | .write w => (σ.call ⟨now, w⟩).map (.applied <$> ·) id
  | .createIfAllAbsent guards entries => settleCreate σ (σ.createIfAllAbsent now guards entries)

end Logical
end GizClaw.KV

import GizClaw.KV.Logical

-- The store as services use it: keys before they are encoded, and values in place of the bytes that
-- encode them. Deadlines are left out, and a member limit stands beside the mutation that it
-- bounds.

namespace GizClaw.KV.Typed

inductive Content (ν μ : Type) where
  | record (value : ν)
  | members (ordered : Bool) (set : Finset μ)
  deriving DecidableEq

abbrev Store (κ ν μ : Type) := κ → Option (Content ν μ)

structure SetMembers (κ μ : Type) where
  key : κ
  members : List μ
  deriving DecidableEq

structure Entry (κ ν : Type) where
  key : κ
  value : ν
  deriving DecidableEq

-- `expected = none` requires absence.
structure Condition (κ ν : Type) where
  key : κ
  expected : Option ν
  deriving DecidableEq

structure Mutation (κ ν μ : Type) where
  conditions : List (Condition κ ν) := []
  entries : List (Entry κ ν) := []
  deleteKeys : List κ := []
  addMembers : List (SetMembers κ μ) := []
  removeMembers : List (SetMembers κ μ) := []
  addOrderedMembers : List (SetMembers κ μ) := []
  removeOrderedMembers : List (SetMembers κ μ) := []
  deriving DecidableEq

structure Group (κ μ : Type) extends SetMembers κ μ where
  phase : Phase

variable {κ ν μ : Type}

namespace Mutation

def groups (m : Mutation κ ν μ) : List (Group κ μ) :=
  m.addMembers.map (⟨·, .addMembers⟩) ++
  m.removeMembers.map (⟨·, .removeMembers⟩) ++
  m.addOrderedMembers.map (⟨·, .addOrderedMembers⟩) ++
  m.removeOrderedMembers.map (⟨·, .removeOrderedMembers⟩)

-- The keys that a mutation uses as records.
def records (m : Mutation κ ν μ) : List κ :=
  m.conditions.map (·.key) ++ m.entries.map (·.key) ++ m.deleteKeys

end Mutation

variable [DecidableEq κ] [DecidableEq ν] [DecidableEq μ]

def validateGroups (records : List κ) (kinds : κ → Option Bool) : List (Group κ μ) → Except Err Unit
  | [] => .ok ()
  | g :: gs =>
    if kinds g.key = some !g.phase.ordered then
      .error .wrongType
    else if g.key ∈ records then
      .error (.text "kv: record and collection keys overlap")
    else
      validateGroups records (Function.update kinds g.key (some g.phase.ordered)) gs

def Mutation.validate (m : Mutation κ ν μ) : Except Err Unit :=
  validateGroups m.records (fun _ => none) m.groups

def Group.update (g : Group κ μ) (s : Finset μ) : Finset μ :=
  g.members.foldl (fun s m => if g.phase.adds then insert m s else s.erase m) s

namespace Store

variable (σ : Store κ ν μ)

def get (k : κ) : Except Err ν :=
  match σ k with
  | none => .error .notFound
  | some (.record v) => .ok v
  | some (.members ..) => .error .wrongType

def listMembers (k : κ) : Except Err (Finset μ) :=
  match σ k with
  | none => .ok ∅
  | some (.members false s) => .ok s
  | some _ => .error .wrongType

def rangeOrderedMembers (σ : Store κ ν Bytes) (k : κ) (q : OrderedRange) :
    Except Err (List Bytes) := do
  q.validate
  match σ k with
  | none => .ok []
  | some (.members true s) => .ok (((s.filter q.Contains).sort (· ≤ ·)).take q.limit.toNat)
  | some _ => .error .wrongType

def checkConditions : List (Condition κ ν) → Except Err Bool
  | [] => .ok true
  | c :: cs =>
    match c.expected, σ c.key with
    | none, none => checkConditions cs
    | none, some _ => .ok false
    | some _, none => .ok false
    | some _, some (.members ..) => .error .wrongType
    | some x, some (.record v) => if v = x then checkConditions cs else .ok false

def putAll (entries : List (Entry κ ν)) : Store κ ν μ :=
  entries.foldl (fun σ e => Function.update σ e.key (some (.record e.value))) σ

def deleteAll (keys : List κ) : Store κ ν μ :=
  keys.foldl (fun σ k => Function.update σ k none) σ

-- The members that a group starts from, unless its key holds something else.
def base (g : Group κ μ) : Except Err (Finset μ) :=
  match σ g.key with
  | none => .ok ∅
  | some (.members ordered s) => if ordered = g.phase.ordered then .ok s else .error .wrongType
  | some (.record _) => .error .wrongType

-- Empty collections are not kept.
def applyGroup (g : Group κ μ) : Except Err (Store κ ν μ) :=
  if g.members = [] then .ok σ else do
    let s ← σ.base g
    .ok (Function.update σ g.key
      (if g.update s = ∅ then none else some (.members g.phase.ordered (g.update s))))

def applyGroups (σ : Store κ ν μ) : List (Group κ μ) → Except Err (Store κ ν μ)
  | [] => .ok σ
  | g :: gs => do (← σ.applyGroup g).applyGroups gs

-- `none` reports that a condition failed.
def applyMutation (m : Mutation κ ν μ) : Except Err (Option (Store κ ν μ)) := do
  m.validate
  if ← σ.checkConditions m.conditions then
    some <$> ((σ.putAll m.entries).deleteAll m.deleteKeys).applyGroups m.groups
  else
    return none

-- The members under a key, if it holds a collection of the given kind.
def members (σ : Store κ ν μ) (b : Bool) (k : κ) : Finset μ :=
  match σ k with
  | some (.members ordered s) => if ordered = b then s else ∅
  | _ => ∅

-- Limits are for the collections that the mutation makes larger.
def Exceeds (σ σ' : Store κ ν μ) (limit : κ × Nat) : Prop :=
  0 < limit.snd ∧ limit.snd < (σ'.members false limit.fst).card ∧
    (σ.members false limit.fst).card < (σ'.members false limit.fst).card

instance (σ σ' : Store κ ν μ) (limit : κ × Nat) : Decidable (σ.Exceeds σ' limit) :=
  inferInstanceAs (Decidable (_ ∧ _ ∧ _))

def applyLimited (m : Mutation κ ν μ) (limits : List (κ × Nat)) :
    Except Err (Option (Store κ ν μ)) :=
  match σ.applyMutation m with
  | .ok (some σ') => if ∃ l ∈ limits, σ.Exceeds σ' l then .error .memberLimit else .ok (some σ')
  | r => r

end Store

-- An action may fail, and when it fails it may have had its effect all the same.
inductive Effect {σ α : Type} (s s' : σ) (r : Except KV.Err α) : Except KV.Err α → σ → Prop
  | done : Effect s s' r r s'
  | failed (message : String) : Effect s s' r (.error (.text message)) s
  | replyLost (message : String) : Effect s s' r (.error (.text message)) s'

end GizClaw.KV.Typed

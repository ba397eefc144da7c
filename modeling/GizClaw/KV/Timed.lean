import GizClaw.KV.Typed

-- Records that expire, as services use them: keys before they are encoded, and values in place of
-- the bytes that encode them. A deadline of `none` is the zero `time.Time`.

namespace GizClaw.KV.Timed

structure Entry (κ ν : Type) where
  key : κ
  value : ν
  deadline : Option Time
  deriving DecidableEq

structure Mutation (κ ν : Type) where
  conditions : List (Typed.Condition κ ν) := []
  entries : List (Entry κ ν) := []
  deleteKeys : List κ := []
  deriving DecidableEq

abbrev Store (κ ν : Type) := κ → Option (ν × Option Time)

def expired (now : Time) : Option Time → Bool
  | some d => d ≤ now
  | none => false

namespace Store

variable {κ ν : Type} [DecidableEq κ] [DecidableEq ν] (σ : Store κ ν) (now : Time)

def live (k : κ) : Option ν :=
  match σ k with
  | some (v, deadline) => if expired now deadline then none else some v
  | none => none

def get (k : κ) : Except Err ν :=
  match σ.live now k with
  | some v => .ok v
  | none => .error .notFound

def checkConditions (cs : List (Typed.Condition κ ν)) : Bool :=
  cs.all fun c => σ.live now c.key = c.expected

def putAll (entries : List (Entry κ ν)) : Store κ ν :=
  entries.foldl (fun σ e => Function.update σ e.key (some (e.value, e.deadline))) σ

def deleteAll (keys : List κ) : Store κ ν :=
  keys.foldl (fun σ k => Function.update σ k none) σ

-- `none` reports that a condition failed.
def applyMutation (m : Mutation κ ν) : Except Err (Option (Store κ ν)) :=
  if m.entries.any fun e => expired now e.deadline then .error .invalidDeadline
  else if σ.checkConditions now m.conditions then
    .ok (some ((σ.putAll m.entries).deleteAll m.deleteKeys))
  else .ok none

variable {σ now} {k : κ} {v : ν} {t : Time} {m : Mutation κ ν} {σ' : Store κ ν}

omit [DecidableEq κ] [DecidableEq ν] in
-- What has expired stays so.
theorem live_of_le (h : σ.live t k = some v) (hle : now ≤ t) : σ.live now k = some v := by
  unfold live at h ⊢
  split at h
  case h_2 => nomatch h
  case h_1 deadline hk =>
    split at h
    case isTrue => nomatch h
    case isFalse hfresh =>
      have hnow : expired now deadline = false := by
        cases deadline
        case none => rfl
        case some =>
          simp only [expired, decide_eq_true_eq, decide_eq_false_iff_not] at hfresh ⊢
          exact fun hd => hfresh (hd.trans hle)
      simp [hnow, Option.some.inj h]

omit [DecidableEq ν] in
theorem live_put :
    live (Function.update σ k' (some (v, deadline))) t k =
    if k = k' then if expired t deadline then none else some v else σ.live t k := by
  unfold live
  by_cases hk : k = k' <;> simp [hk]

omit [DecidableEq ν] in
theorem live_erase : live (Function.update σ k' none) t k =
    if k = k' then none else σ.live t k := by
  unfold live
  by_cases hk : k = k' <;> simp [hk]

theorem applyMutation_eq_some (h : σ.applyMutation now m = .ok (some σ')) :
    (∀ c ∈ m.conditions, σ.live now c.key = c.expected) ∧
      σ' = (σ.putAll m.entries).deleteAll m.deleteKeys := by
  unfold applyMutation at h
  split at h
  case isTrue => nomatch h
  case isFalse =>
    split at h
    case isFalse => nomatch h
    case isTrue hc =>
      cases h
      exact ⟨by simpa [checkConditions] using hc, rfl⟩

end Store

end GizClaw.KV.Timed
